import Waypoint.Proofs.Composition.Stages

/-!
# Grouping of compositions

A composition depends on its functions and their order alone. In whatever groups they are put
together, they are called one after another, from the rightmost to the leftmost
(`Composition.apply_eq_callInTurn`); this only needs the laws of answers, so it holds for functions
with effects of any kind. A function that passes its argument on may stand anywhere in any group.
-/

namespace Waypoint

/-! ## The functions of groups -/

theorem Composition.functions_ofParts {F : Type} (outer : Composition F)
    (rest : List (Composition F)) :
    (ofParts outer rest).functions = outer.functions ++ rest.flatMap functions := by
  induction rest generalizing outer with
  | nil => exact (List.append_nil _).symm
  | cons inner rest ih => rw [ofParts_cons, functions, ih, List.flatMap_cons]

namespace Grouped

variable {F : Type}

mutual

/-- Composing keeps the functions and their order. -/
theorem functions_composition :
    (grouped : Grouped F) → grouped.composition.functions = grouped.functions
  | function _ => rfl
  | group outermost rest => by
      rw [composition, Composition.functions_ofParts, functions_composition outermost,
        functions_compositions rest, functions]

theorem functions_compositions : (list : List (Grouped F)) →
    (compositions list).flatMap Composition.functions = allFunctions list
  | [] => rfl
  | first :: rest => by
      rw [compositions, List.flatMap_cons, functions_composition first,
        functions_compositions rest, allFunctions]

end

theorem allFunctions_functions (list : List F) : allFunctions (list.map function) = list := by
  induction list with
  | nil => rfl
  | cons f rest ih => exact congrArg (f :: ·) ih

/-- The functions that are no identity. -/
def proper (isIdentity : F → Bool) (grouped : Grouped F) : List F :=
  grouped.functions.filter fun f => !isIdentity f

end Grouped

/-- Any grouping of a list is one of exactly its functions. -/
theorem Grouping.functions_of_group? {F : Type} {grouping : Grouping} {functions : List F}
    {grouped : Grouped F} (groups : grouping.group? functions = some grouped) :
    grouped.functions = functions := by
  revert groups
  fun_cases Grouping.group? grouping functions with
  | case1 | case2 | case3 =>
      rintro ⟨⟩
      rfl
  | case4 _ f rest =>
      rintro ⟨⟩
      exact congrArg (f :: ·) (Grouped.allFunctions_functions rest)
  | case5 => rintro ⟨⟩

/-! ## Calls in turn -/

/-- Calls functions one after another, each with what the one before it gave. -/
def callInTurn {F R : Type} [Answer R] (call : F → Doc → R) : List F → Doc → R
  | [], doc => Answer.value doc
  | f :: rest, doc => Answer.andThen (call f doc) (callInTurn call rest)

section CallInTurn

variable {F R : Type} [Answer R] [LawfulAnswer R] (call : F → Doc → R)

theorem callInTurn_append (first second : List F) (doc : Doc) :
    callInTurn call (first ++ second) doc =
      Answer.andThen (callInTurn call first doc) (callInTurn call second) := by
  induction first generalizing doc with
  | nil => exact (LawfulAnswer.value_andThen doc _).symm
  | cons f rest ih =>
      -- What the first call gives is not known, so the rest is compared as a function of it.
      calc Answer.andThen (call f doc) (callInTurn call (rest ++ second))
        _ = Answer.andThen (call f doc) fun value =>
              Answer.andThen (callInTurn call rest value) (callInTurn call second) :=
            congrArg _ (funext ih)
        _ = _ := (LawfulAnswer.andThen_assoc _ _ _).symm

/-- The rightmost function of a composition is called first. -/
theorem Composition.apply_eq_callInTurn (composed : Composition F) (doc : Doc) :
    composed.apply call doc = callInTurn call composed.functions.reverse doc := by
  induction composed generalizing doc with
  | function f => exact (LawfulAnswer.andThen_value _).symm
  | compose outer inner ihOuter ihInner =>
      rw [functions, List.reverse_append, callInTurn_append, ← ihInner]
      exact congrArg _ (funext ihOuter)

variable {call} {isIdentity : F → Bool}

/-- Functions that pass their argument on may be left out. -/
theorem callInTurn_filter (passes : ∀ f, isIdentity f → call f = Answer.value)
    (functions : List F) (doc : Doc) :
    callInTurn call (functions.filter fun f => !isIdentity f) doc =
      callInTurn call functions doc := by
  induction functions generalizing doc with
  | nil => rfl
  | cons f rest ih =>
      cases identity : isIdentity f with
      | true =>
          rw [List.filter_cons_of_neg (by simp [identity]), callInTurn, passes f identity,
            LawfulAnswer.value_andThen]
          exact ih doc
      | false =>
          rw [List.filter_cons_of_pos (by simp [identity])]
          exact congrArg _ (funext ih)

theorem Grouped.apply_composition (grouped : Grouped F) (doc : Doc) :
    grouped.composition.apply call doc = callInTurn call grouped.functions.reverse doc := by
  rw [Composition.apply_eq_callInTurn, functions_composition]

/-- Groupings of the same functions are the same. -/
theorem Grouped.apply_eq_of_functions {grouped other : Grouped F}
    (same : other.functions = grouped.functions) :
    other.composition.apply call = grouped.composition.apply call := by
  funext doc
  rw [apply_composition, apply_composition, same]

theorem Grouped.apply_eq_of_proper (passes : ∀ f, isIdentity f → call f = Answer.value)
    {grouped other : Grouped F} (same : other.proper isIdentity = grouped.proper isIdentity) :
    other.composition.apply call = grouped.composition.apply call := by
  funext doc
  rw [apply_composition, apply_composition, ← callInTurn_filter passes, List.filter_reverse,
    ← callInTurn_filter passes grouped.functions.reverse, List.filter_reverse]
  exact congrArg (fun functions : List F => callInTurn call functions.reverse doc) same

end CallInTurn

/-! ## Calls on record -/

/-- A function that leaves its calls on record. -/
def recordedCall {F : Type} (value : F → Doc → Doc) (f : F) (doc : Doc) : Trace (F × Doc) Doc :=
  (Recorded.record (f, doc)).andThen fun _ => pure (value f doc)

section RecordedCall

variable {F : Type} {value : F → Doc → Doc} {isIdentity : F → Bool}

theorem callInTurn_recordedCall_cons (f : F) (rest : List F) (doc : Doc) :
    callInTurn (recordedCall value) (f :: rest) doc =
      ⟨(f, doc) :: (callInTurn (recordedCall value) rest (value f doc)).log,
        (callInTurn (recordedCall value) rest (value f doc)).result⟩ := by
  show (recordedCall value f doc).andThen (callInTurn (recordedCall value) rest) = _
  rw [Recorded.andThen_of_ok rfl]
  rfl

theorem callInTurn_recordedCall (functions : List F) (doc : Doc) :
    callInTurn (recordedCall value) functions doc =
      ⟨Composition.passOn value functions doc,
        .ok (functions.foldl (fun doc f => value f doc) doc)⟩ := by
  induction functions generalizing doc with
  | nil => rfl
  | cons f rest ih =>
      rw [callInTurn_recordedCall_cons, ih]
      rfl

theorem Grouped.apply_recordedCall (grouped : Grouped F) (doc : Doc) :
    grouped.composition.apply (recordedCall value) doc =
      ⟨Composition.passOn value grouped.functions.reverse doc,
        .ok (grouped.functions.foldr value doc)⟩ := by
  rw [apply_composition, callInTurn_recordedCall, List.foldl_reverse]

/-- Where identities are left out the others are called as before, and the value is the same. -/
theorem callInTurn_recordedCall_filter (passes : ∀ f, isIdentity f → value f = id)
    (functions : List F) (doc : Doc) :
    callInTurn (recordedCall value) (functions.filter fun f => !isIdentity f) doc =
      ⟨(callInTurn (recordedCall value) functions doc).log.filter
          fun called => !isIdentity called.1,
        (callInTurn (recordedCall value) functions doc).result⟩ := by
  induction functions generalizing doc with
  | nil => rfl
  | cons f rest ih =>
      rw [callInTurn_recordedCall_cons]
      cases identity : isIdentity f with
      | true =>
          rw [List.filter_cons_of_neg (by simp [identity]), passes f identity, ih,
            List.filter_cons_of_neg (by simp [identity])]
          rfl
      | false =>
          rw [List.filter_cons_of_pos (by simp [identity]), callInTurn_recordedCall_cons, ih,
            List.filter_cons_of_pos (by simp [identity])]

/-- Identities change neither the value nor the calls of the other functions. -/
theorem Grouped.recorded_eq_of_proper (passes : ∀ f, isIdentity f → value f = id)
    {grouped other : Grouped F} (same : other.proper isIdentity = grouped.proper isIdentity)
    (doc : Doc) :
    let trace := grouped.composition.apply (recordedCall value) doc
    let changed := other.composition.apply (recordedCall value) doc
    changed.result = trace.result ∧
      changed.log.filter (fun called => !isIdentity called.1) =
        trace.log.filter (fun called => !isIdentity called.1) := by
  intro trace changed
  have without (group : Grouped F) :
      callInTurn (recordedCall value) (group.proper isIdentity).reverse doc =
        ⟨(group.composition.apply (recordedCall value) doc).log.filter
            fun called => !isIdentity called.1,
          (group.composition.apply (recordedCall value) doc).result⟩ := by
    rw [apply_composition, proper, ← List.filter_reverse]
    exact callInTurn_recordedCall_filter passes group.functions.reverse doc
  have both := without other
  rw [same, without grouped] at both
  obtain ⟨calls, result⟩ := Recorded.mk.inj both
  exact ⟨result.symm, calls.symm⟩

end RecordedCall

/-- The way in which functions are grouped does not matter. Whatever their calls answer, effects
included, a grouping of functions calls them one after another, from the rightmost to the leftmost
and each with what the one before it gave. Groupings of the same functions are the same, and an
identity may be put in or left out anywhere. On record of functions that leave their calls there is
one call of each, in that order, and the value is that of the functions applied from the right; with
identities put in or left out the value and the calls of the other functions are the same, also
where the calls of identities are on record. -/
theorem grouping_and_identities_change_nothing {F : Type} (isIdentity : F → Bool)
    (grouped : Grouped F) :
    (∀ (R : Type) [Answer R] [LawfulAnswer R] (call : F → Doc → R),
      (∀ doc, grouped.composition.apply call doc =
        callInTurn call grouped.functions.reverse doc) ∧
      (∀ other : Grouped F, other.functions = grouped.functions →
        other.composition.apply call = grouped.composition.apply call) ∧
      ((∀ f, isIdentity f → call f = Answer.value) →
        ∀ other : Grouped F, other.proper isIdentity = grouped.proper isIdentity →
          other.composition.apply call = grouped.composition.apply call)) ∧
    ∀ (value : F → Doc → Doc) (doc : Doc),
      let trace := grouped.composition.apply (recordedCall value) doc
      trace.result = .ok (grouped.functions.foldr value doc) ∧
      trace.log = Composition.passOn value grouped.functions.reverse doc ∧
      ((∀ f, isIdentity f → value f = id) →
        ∀ other : Grouped F, other.proper isIdentity = grouped.proper isIdentity →
          let changed := other.composition.apply (recordedCall value) doc
          changed.result = trace.result ∧
            changed.log.filter (fun called => !isIdentity called.1) =
              trace.log.filter (fun called => !isIdentity called.1)) := by
  refine ⟨fun R _ _ call => ⟨grouped.apply_composition, fun other same => ?_,
    fun passes other same => ?_⟩, fun value doc => ?_⟩
  · exact Grouped.apply_eq_of_functions same
  · exact Grouped.apply_eq_of_proper passes same
  · intro trace
    have whole : trace = _ := grouped.apply_recordedCall doc
    exact ⟨congrArg Recorded.result whole, congrArg Recorded.log whole,
      fun passes other same => Grouped.recorded_eq_of_proper passes same doc⟩

def ComposedFunction.isIdentity : ComposedFunction → Bool
  | bareIdentity => true
  | transform .. => false

/-- Groups of one function, and identities at both ends and between: the two functions are called as
they are without all that. -/
theorem padded_composition_of_two_functions :
    let double : ComposedFunction := .transform 0 .double
    let increment : ComposedFunction := .transform 1 .increment
    let padded : Grouped ComposedFunction :=
      .group (.group (.function .bareIdentity) [.function double])
        [.function .bareIdentity,
          .group (.group (.function increment) []) [.function .bareIdentity]]
    let trace := padded.composition.apply ComposedFunction.call (.int 3)
    (∀ f, ComposedFunction.isIdentity f → f.call = Answer.value) ∧
      padded.proper ComposedFunction.isIdentity = [double, increment] ∧
      padded.composition.apply ComposedFunction.call =
        (Composition.ofList double [increment]).apply ComposedFunction.call ∧
      trace.log = [.call ⟨1, .int 3⟩, .call ⟨0, .int 4⟩] ∧ trace.result = .ok (.int 8) := by
  intro double increment padded trace
  have passes : ∀ f, ComposedFunction.isIdentity f → f.call = Answer.value := by
    intro f identity
    cases f with
    | bareIdentity => rfl
    | transform => cases identity
  obtain ⟨any, -⟩ := grouping_and_identities_change_nothing ComposedFunction.isIdentity
    (Grouped.flat double [increment])
  have same := (any _ ComposedFunction.call).2.2 passes padded rfl
  rw [Grouped.composition_flat] at same
  exact ⟨passes, rfl, same, rfl, rfl⟩

end Waypoint
