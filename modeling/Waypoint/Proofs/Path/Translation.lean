import Mathlib
import Waypoint.CompiledPath

/-!
# Translating answers

A translation from one kind of answers to another keeps values, failures and both ways to go on
(`Translation`). Strategies use nothing else of answers, so a translation takes what an accessor
answers to what the same accessor answers among the other kind (`Translation.accessor`). Plain
results are a kind of answers too: the result of a trace and the outcome of a future are both
translations to it.
-/

namespace Waypoint

open Answer

/-- All values, or the first failure. -/
def allValues : List (Except PathError Doc) → Except PathError (List Doc)
  | [] => .ok []
  | .error error :: _ => .error error
  | .ok value :: rest => (allValues rest).map (value :: ·)

instance : Answer (Except PathError Doc) where
  value := .ok
  failure := .error
  andThen := Except.bind
  gather answers next := (allValues answers).bind next

/-- Keeps all that answers are made of. -/
structure Translation {R S : Type} [Answer R] [Answer S] (map : R → S) : Prop where
  value : ∀ doc, map (value doc) = value doc
  failure : ∀ error, map (failure error) = failure error
  andThen : ∀ first next, map (andThen first next) = andThen (map first) fun doc => map (next doc)
  gather : ∀ answers next, map (gather answers next) =
    gather (answers.map map) fun values => map (next values)

namespace Translation

variable {R S : Type} [Answer R] [Answer S] {map : R → S}

theorem withMembers (translation : Translation map) (key : String) (container : Doc)
    (use : List (String × Doc) → R) :
    map (withMembers key container use) =
      Waypoint.withMembers key container fun members => map (use members) := by
  cases container with
  | obj members => rfl
  | null | bool _ | int _ | float _ | str _ | arr _ => exact translation.failure _

theorem withItems (translation : Translation map) (key : String) (container : Doc)
    (use : List Doc → R) :
    map (withItems key container use) =
      Waypoint.withItems key container fun items => map (use items) := by
  cases container with
  | arr items => rfl
  | null | bool _ | int _ | float _ | str _ | obj _ => exact translation.failure _

theorem withList (translation : Translation map) (key : String) (container : Doc)
    (use : List Doc → R) :
    map (withList key container use) =
      Waypoint.withList key container fun items => map (use items) := by
  cases container with
  | arr items => rfl
  | null | bool _ | int _ | float _ | str _ | obj _ => exact translation.failure _

theorem inTurn (translation : Translation map) (next : Doc → R) (done items : List Doc) :
    map (inTurn next done items) = Waypoint.inTurn (fun doc => map (next doc)) done items := by
  induction items generalizing done with
  | nil => exact translation.value _
  | cons item items ih => simp only [Waypoint.inTurn, translation.andThen, ih]

/-- A focus stage is carried out in the same way. -/
theorem focus (translation : Translation map) (strategy : ObjectStrategy) (key : String)
    (next : Doc → R) (container : Doc) :
    map (strategy.focus key next container) =
      strategy.focus key (fun doc => map (next doc)) container := by
  cases strategy with
  | read => exact translation.withMembers key container _
  | update =>
      simp only [ObjectStrategy.focus, translation.withMembers, translation.andThen,
        translation.value]
  | updateOrZero => simp only [ObjectStrategy.focus, translation.andThen, translation.value]
  | pass => rfl

theorem lift (translation : Translation map) (strategy : ArrayStrategy) (key : String)
    (next : Doc → R) (container : Doc) :
    map (strategy.lift key next container) =
      strategy.lift key (fun doc => map (next doc)) container := by
  cases strategy with
  | each | reversed | skipNulls =>
      simp only [ArrayStrategy.lift, translation.withItems, translation.withList,
        translation.gather, translation.value, List.map_map, Function.comp_def]
  | firstOnly =>
      rw [ArrayStrategy.lift, translation.withList, ArrayStrategy.lift]
      congr 1
      funext items
      cases items with
      | nil => exact translation.value _
      | cons item rest => simp only [translation.andThen, translation.value]
  | oneByOne => simp only [ArrayStrategy.lift, translation.withList, translation.inTurn]

/-- A translation goes through an accessor to the leaves. -/
theorem accessor (translation : Translation map) (strategies : Strategies) (path : Path)
    (leaf : Doc → R) (root : Doc) :
    map (path.accessor strategies.wrapping leaf root) =
      path.accessor strategies.wrapping (fun doc => map (leaf doc)) root := by
  simp only [Path.accessor_eq_foldr]
  induction path.stages generalizing root with
  | nil => rfl
  | cons stage rest ih =>
      rw [List.foldr_cons, List.foldr_cons]
      cases stage with
      | focus key =>
          show map (strategies.object.focus key _ root) = strategies.object.focus key _ root
          rw [translation.focus]
          congr 1
          funext doc
          exact ih doc
      | lift key =>
          show map (strategies.array.lift key _ root) = strategies.array.lift key _ root
          rw [translation.lift]
          congr 1
          funext doc
          exact ih doc

end Translation

/-! ## Results and outcomes -/

theorem Recorded.result_sequence {κ : Type} (traces : List (Trace κ Doc)) :
    (Recorded.sequence traces).result = allValues (traces.map Recorded.result) := by
  induction traces with
  | nil => rfl
  | cons first rest ih =>
      rw [Recorded.sequence, Recorded.result_andThen, List.map_cons]
      cases first.result with
      | error error => rfl
      | ok value =>
          show ((Recorded.sequence rest).andThen _).result = (allValues _).map _
          rw [Recorded.result_andThen, ih]
          cases allValues (rest.map Recorded.result) <;> rfl

/-- The result of a trace is the same without the record. -/
theorem Recorded.translation {κ : Type} : Translation (Recorded.result : Trace κ Doc → _) where
  value := fun _ => rfl
  failure := fun _ => rfl
  andThen := Recorded.result_andThen
  gather := by
    intro traces next
    show ((Recorded.sequence traces).andThen next).result = _
    rw [Recorded.result_andThen, Recorded.result_sequence]
    rfl

theorem Future.outcomes_eq {L : Type} (futures : List (Future L)) :
    Future.outcomes futures = allValues (futures.map Future.outcome) := by
  induction futures with
  | nil => rfl
  | cons first rest ih =>
      rw [Future.outcomes, List.map_cons, ih]
      cases first.outcome with
      | error error => rfl
      | ok value =>
          show _ = (allValues _).map _
          cases allValues (rest.map Future.outcome) <;> rfl

/-- The outcome of a future is that of its parts. -/
theorem Future.translation {L : Type} : Translation (Future.outcome : Future L → _) where
  value := fun _ => by
    show (Future.done _).outcome = _
    rw [Future.outcome]
    rfl
  failure := fun _ => by
    show (Future.fail _).outcome = _
    rw [Future.outcome]
    rfl
  andThen := fun first next => Future.outcome_andThen next first
  gather := by
    intro futures next
    show (Future.join futures next).outcome = _
    rw [Future.outcome, Future.outcomes_eq]
    show _ = (allValues _).bind _
    cases allValues (futures.map Future.outcome) <;> rfl

/-- Where nothing waits, an access by a future comes to the result of the immediate one. -/
theorem CompiledPath.outcome_accessLater (compiled : CompiledPath)
    (transform : Doc → Trace Notice Doc) (root : Doc) :
    (compiled.accessLater transform root).outcome = (compiled.access transform root).result := by
  have leaves : (fun doc => (deferredLeaf transform doc).outcome) =
      fun doc => (recordedLeaf transform doc).result := by
    funext doc
    rw [deferredLeaf, Future.callback, Future.outcome, recordedLeaf, Recorded.result_andThen]
    show _ = (transform doc).result
    cases (transform doc).result <;> rw [Future.ofResult, Future.outcome]
  unfold accessLater access
  rw [Future.translation.accessor, Recorded.translation.accessor, leaves]

end Waypoint
