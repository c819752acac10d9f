import Mathlib
import Waypoint.Future.Running

/-!
# When and with what something finishes

A `Finish` is a time and an outcome. Things that run side by side finish together as
`Finish.gather` says. Where all of them come to values the last one counts. Where some of at most
thirty fail, the earliest failure counts, and of several at the same time the one of the lowest
index. Of more than thirty only the failure of the lowest index counts, as soon as all those before
it have values.

One thing is left open. Something in which large joins are nested may need several rounds at one
time, and then a failure of another one at the same time may be seen before its own
(`Finish.mayLag`). The failures that may be reported in place of the first one are its rivals.
-/

namespace Waypoint

variable {α β : Type}

/-- A failure, its time, and the failures that may be reported in its place. -/
structure Failing where
  time : Nat
  error : PathError
  rivals : List PathError
  deriving DecidableEq, Repr

namespace Failing

/-- The failures that may be reported. -/
def reports (failing : Failing) : List PathError :=
  failing.error :: failing.rivals

/-- The earlier one of two failures, and at the same time the first one. If that one may lag behind,
the other one is a rival. -/
def against (mayLag : Bool) (first other : Failing) : Failing :=
  if other.time < first.time then other
  else if first.time = other.time ∧ mayLag then
    { first with rivals := first.rivals ++ other.reports }
  else first

/-- A failure that is seen no sooner than at a time. -/
def notBefore (time : Nat) (failing : Failing) : Failing :=
  { failing with time := max time failing.time }

theorem time_against (mayLag : Bool) (first other : Failing) :
    (first.against mayLag other).time = min first.time other.time := by
  unfold against
  split
  · omega
  · split <;> (show first.time = _; omega)

end Failing

/-- When and with what something finishes. -/
structure Finish (α : Type) where
  time : Nat
  outcome : Except PathError α
  /-- The failures that may be reported in place of the outcome, if that is a failure. -/
  rivals : List PathError
  /-- How many joins of more than thirty elements are nested at most. -/
  nesting : Nat

namespace Finish

/-- Done as soon as it begins. -/
def atOnce (outcome : Except PathError α) : Finish α :=
  ⟨0, outcome, [], 0⟩

def map (f : α → β) (finish : Finish α) : Finish β :=
  ⟨finish.time, finish.outcome.map f, finish.rivals, finish.nesting⟩

def failing? (finish : Finish α) : Option Failing :=
  match finish.outcome with
  | .ok _ => none
  | .error error => some ⟨finish.time, error, finish.rivals⟩

/-- Whether one that fails at the same time may be seen first: something that finishes in a later
round has to be asked again for it, and only what contains large joins within large joins may stop
before it has asked all that it contains. -/
def mayLag (finish : Finish α) : Bool :=
  0 < finish.time && 2 ≤ finish.nesting

/-- The results that may be reported. -/
def Admits (finish : Finish α) : Except PathError α → Prop
  | .ok value => finish.outcome = .ok value
  | .error error => ∃ failing, finish.failing? = some failing ∧ error ∈ failing.reports

/-! ## Side by side -/

/-- The earliest failure, and of several at the same time the first one. -/
def race : List (Finish α) → Option Failing
  | [] => none
  | first :: rest =>
    match first.failing?, race rest with
    | none, other => other
    | some own, none => some own
    | some own, some other => some (own.against first.mayLag other)

/-- The first failure, at the time when all those before it have values. -/
def inTurn : List (Finish α) → Option Failing
  | [] => none
  | first :: rest =>
    match first.failing? with
    | some own => some own
    | none => (inTurn rest).map (Failing.notBefore first.time)

def latest (elements : List (Finish α)) : Nat :=
  elements.foldr (fun element time => max element.time time) 0

def deepest (elements : List (Finish α)) : Nat :=
  elements.foldr (fun element nesting => max element.nesting nesting) 0

/-- The failure that counts, by the number of elements. -/
def failure? (elements : List (Finish α)) : Option Failing :=
  if elements.length ≤ Agenda.threshold then race elements else inTurn elements

def nestingOf (elements : List (Finish α)) : Nat :=
  deepest elements + if elements.length ≤ Agenda.threshold then 0 else 1

/-- Things that run side by side. -/
def gather (elements : List (Finish α)) : Finish (List α) :=
  match failure? elements with
  | some failing => ⟨failing.time, .error failing.error, failing.rivals, nestingOf elements⟩
  | none => ⟨latest elements, .ok (elements.filterMap fun element => element.outcome.toOption), [],
      nestingOf elements⟩

/-! ## Failures -/

variable {finish first : Finish α} {before after elements : List (Finish α)} {failing own : Failing}
  {time : Nat}

theorem failing?_eq_some : finish.failing? = some failing ↔
    finish.outcome = .error failing.error ∧ finish.time = failing.time ∧
      finish.rivals = failing.rivals := by
  obtain ⟨time, outcome, rivals, nesting⟩ := finish
  obtain ⟨time', error, rivals'⟩ := failing
  cases outcome <;> simp [failing?, and_left_comm]

theorem failing?_eq_none : finish.failing? = none ↔ ∃ value, finish.outcome = .ok value := by
  obtain ⟨time, outcome, rivals, nesting⟩ := finish
  cases outcome <;> simp [failing?]

theorem admits_ok {value : α} : finish.Admits (.ok value) ↔ finish.outcome = .ok value :=
  Iff.rfl

theorem admits_outcome (finish : Finish α) : finish.Admits finish.outcome := by
  obtain ⟨time, outcome, rivals, nesting⟩ := finish
  cases outcome with
  | ok value => rfl
  | error error => exact ⟨_, rfl, List.mem_cons_self⟩

/-- With no rivals the result is the outcome. -/
theorem Admits.eq_outcome {result : Except PathError α} (admits : finish.Admits result)
    (none : finish.rivals = []) : result = finish.outcome := by
  cases result with
  | ok value => exact admits.symm
  | error error =>
      obtain ⟨failing, fails, member⟩ := admits
      obtain ⟨outcome, -, rivals⟩ := failing?_eq_some.mp fails
      rw [none] at rivals
      rw [Failing.reports, ← rivals, List.mem_singleton] at member
      rw [outcome, member]

theorem Admits.map {result : Except PathError α} (admits : finish.Admits result) (f : α → β) :
    (finish.map f).Admits (result.map f) := by
  cases result with
  | ok value =>
      show finish.outcome.map f = .ok (f value)
      rw [admits_ok.mp admits]
      rfl
  | error error =>
      obtain ⟨failing, fails, member⟩ := admits
      obtain ⟨outcome, time, rivals⟩ := failing?_eq_some.mp fails
      refine ⟨failing, failing?_eq_some.mpr ⟨?_, time, rivals⟩, member⟩
      show finish.outcome.map f = _
      rw [outcome]
      rfl

/-! ## The earliest failure -/

theorem race_eq_none : race elements = none ↔ ∀ element ∈ elements, element.failing? = none := by
  induction elements with
  | nil => simp [race]
  | cons first rest ih =>
      rw [race, List.forall_mem_cons, ← ih]
      cases first.failing? <;> cases race rest <;> simp

/-- The earliest failure is no later than any. -/
theorem race_le {element : Finish α} (member : element ∈ elements)
    (fails : element.failing? = some own) :
    ∃ failing, race elements = some failing ∧ failing.time ≤ own.time := by
  induction elements with
  | nil => cases member
  | cons first rest ih =>
      rw [race]
      rcases List.mem_cons.mp member with rfl | later
      · rw [fails]
        cases race rest with
        | none => exact ⟨own, rfl, Nat.le_refl _⟩
        | some other => exact ⟨_, rfl, Failing.time_against .. ▸ Nat.min_le_left ..⟩
      · obtain ⟨other, raced, le⟩ := ih later
        rw [raced]
        cases first.failing? with
        | none => exact ⟨other, rfl, le⟩
        | some mine =>
            exact ⟨_, rfl, Failing.time_against .. ▸ Nat.le_trans (Nat.min_le_right ..) le⟩

theorem le_race (all : ∀ element ∈ elements, ∀ own, element.failing? = some own →
      time ≤ own.time) (raced : race elements = some failing) : time ≤ failing.time := by
  induction elements generalizing failing with
  | nil => cases raced
  | cons first rest ih =>
      rw [List.forall_mem_cons] at all
      obtain ⟨here, others⟩ := all
      rw [race] at raced
      cases fails : first.failing? with
      | none =>
          rw [fails] at raced
          exact ih others raced
      | some own =>
          have own_le := here own fails
          cases later : race rest with
          | none =>
              rw [fails, later] at raced
              exact Option.some.inj raced ▸ own_le
          | some other =>
              rw [fails, later] at raced
              rw [← Option.some.inj raced, Failing.time_against]
              exact Nat.le_min.mpr ⟨own_le, ih others later⟩

/-- A failure may be reported if it is among the earliest, and all those before it that are so may
lag behind. -/
theorem mem_reports_race {error : PathError} (fails : first.failing? = some own)
    (member : error ∈ own.reports) (on_time : own.time ≤ time)
    (lag : ∀ element ∈ before, ∀ mine, element.failing? = some mine → mine.time ≤ time →
      element.mayLag = true)
    (raced : race (before ++ first :: after) = some failing) (earliest : time ≤ failing.time) :
    error ∈ failing.reports := by
  -- each of those before it passes, is later, or fails at the same time and has it for a rival
  induction before generalizing failing with
  | nil =>
      rw [List.nil_append, race, fails] at raced
      cases later : race after with
      | none =>
          rw [later] at raced
          exact Option.some.inj raced ▸ member
      | some other =>
          rw [later] at raced
          obtain rfl := Option.some.inj raced
          rw [Failing.time_against] at earliest
          unfold Failing.against
          rw [if_neg (by omega)]
          split
          · exact List.mem_append_left other.reports member
          · exact member
  | cons element before ih =>
      rw [List.forall_mem_cons] at lag
      obtain ⟨here, others⟩ := lag
      have present : first ∈ before ++ first :: after :=
        List.mem_append_right _ List.mem_cons_self
      obtain ⟨other, later, le⟩ := race_le present fails
      rw [List.cons_append, race, later] at raced
      cases fails' : element.failing? with
      | none =>
          rw [fails'] at raced
          exact ih others (Option.some.inj raced ▸ later) earliest
      | some mine =>
          rw [fails'] at raced
          obtain rfl := Option.some.inj raced
          rw [Failing.time_against] at earliest
          have inside := ih others later (by omega)
          unfold Failing.against
          split
          · exact inside
          · rw [if_pos ⟨by omega, here mine fails' (by omega)⟩]
            exact List.mem_append_right mine.reports inside

/-- The earliest failure is that of an element, earlier than those before it and no later than
those after it. -/
theorem race_eq_some (raced : race elements = some failing) :
    ∃ before first own after, elements = before ++ first :: after ∧ first.failing? = some own ∧
      own.time = failing.time ∧ own.error = failing.error ∧
      (∀ element ∈ before, ∀ other, element.failing? = some other → failing.time < other.time) ∧
      (∀ element ∈ after, ∀ other, element.failing? = some other → failing.time ≤ other.time) := by
  induction elements generalizing failing with
  | nil => cases raced
  | cons element rest ih =>
      rw [race] at raced
      cases fails : element.failing? with
      | none =>
          rw [fails] at raced
          obtain ⟨before, first, own, after, rfl, owns, time, error, earlier, later⟩ := ih raced
          refine ⟨element :: before, first, own, after, rfl, owns, time, error, ?_, later⟩
          refine List.forall_mem_cons.mpr ⟨fun other same => ?_, earlier⟩
          cases fails.symm.trans same
      | some mine =>
          cases others : race rest with
          | none =>
              rw [fails, others] at raced
              obtain rfl := Option.some.inj raced
              refine ⟨[], element, mine, rest, rfl, fails, rfl, rfl, List.forall_mem_nil _,
                fun other member own owns => ?_⟩
              cases (race_eq_none.mp others other member).symm.trans owns
          | some other =>
              rw [fails, others] at raced
              obtain rfl := Option.some.inj raced
              by_cases sooner : other.time < mine.time
              · -- the failure of a later element comes sooner
                obtain ⟨before, first, own, after, rfl, owns, time, error, earlier, later⟩ :=
                  ih others
                rw [Failing.against, if_pos sooner]
                refine ⟨element :: before, first, own, after, rfl, owns, time, error, ?_, later⟩
                refine List.forall_mem_cons.mpr ⟨fun own same => ?_, earlier⟩
                obtain rfl := Option.some.inj (fails.symm.trans same)
                exact sooner
              · -- no other failure comes sooner
                have later : ∀ element ∈ rest, ∀ own, element.failing? = some own →
                    mine.time ≤ own.time := by
                  intro element member own owns
                  obtain ⟨least, raced, le⟩ := race_le member owns
                  obtain rfl := Option.some.inj (others.symm.trans raced)
                  exact Nat.le_trans (Nat.le_of_not_lt sooner) le
                rw [Failing.against, if_neg sooner]
                split <;> exact ⟨[], element, mine, rest, rfl, fails, rfl, rfl,
                  List.forall_mem_nil _, later⟩

/-! ## The first failure -/

theorem inTurn_eq_none : inTurn elements = none ↔
    ∀ element ∈ elements, element.failing? = none := by
  induction elements with
  | nil => simp [inTurn]
  | cons first rest ih =>
      rw [inTurn, List.forall_mem_cons, ← ih]
      cases first.failing? <;> simp

/-- The first failure comes when all elements up to it have finished. -/
theorem inTurn_append (ok : ∀ element ∈ before, element.failing? = none)
    (fails : first.failing? = some own) :
    inTurn (before ++ first :: after) =
      some { own with time := max (latest before) own.time } := by
  induction before with
  | nil =>
      rw [List.nil_append, inTurn, fails]
      simp [latest]
  | cons element before ih =>
      rw [List.forall_mem_cons] at ok
      rw [List.cons_append, inTurn, ok.1, ih ok.2]
      simp [latest, Failing.notBefore, Nat.max_assoc]

/-- The first failure is that of an element which comes after nothing but values. -/
theorem inTurn_eq_some (fails : inTurn elements = some failing) :
    ∃ before first own after, elements = before ++ first :: after ∧ first.failing? = some own ∧
      failing = { own with time := max (latest before) own.time } ∧
      ∀ element ∈ before, element.failing? = none := by
  cases found : elements.find? fun element => element.failing?.isSome with
  | none =>
      have ok : inTurn elements = none := inTurn_eq_none.mpr fun element member => by
        simpa using List.find?_eq_none.mp found element member
      cases ok.symm.trans fails
  | some first =>
      obtain ⟨owns, before, after, rfl, ok⟩ := List.find?_eq_some_iff_append.mp found
      obtain ⟨own, owns⟩ := Option.isSome_iff_exists.mp owns
      have ok : ∀ element ∈ before, element.failing? = none := fun element member => by
        simpa using ok element member
      rw [inTurn_append ok owns] at fails
      exact ⟨before, first, own, after, rfl, owns, (Option.some.inj fails).symm, ok⟩

/-- An element counts if only values come before it. -/
theorem le_inTurn (ok : ∀ element ∈ before, element.failing? = none)
    (fails : inTurn (before ++ first :: after) = some failing) : first.time ≤ failing.time := by
  induction before generalizing failing with
  | nil =>
      rw [List.nil_append, inTurn] at fails
      cases own : first.failing? with
      | some mine =>
          rw [own] at fails
          obtain rfl := Option.some.inj fails
          exact Nat.le_of_eq (failing?_eq_some.mp own).2.1
      | none =>
          rw [own] at fails
          obtain ⟨other, -, rfl⟩ := Option.map_eq_some_iff.mp fails
          exact Nat.le_max_left ..
  | cons element before ih =>
      rw [List.forall_mem_cons] at ok
      rw [List.cons_append, inTurn, ok.1] at fails
      obtain ⟨other, later, rfl⟩ := Option.map_eq_some_iff.mp fails
      exact Nat.le_trans (ih ok.2 later) (Nat.le_max_right ..)

theorem latest_le (all : ∀ element ∈ elements, element.time ≤ time) :
    latest elements ≤ time := by
  induction elements with
  | nil => exact Nat.zero_le _
  | cons first rest ih =>
      rw [List.forall_mem_cons] at all
      exact Nat.max_le.mpr ⟨all.1, ih all.2⟩

theorem le_latest {element : Finish α} (member : element ∈ elements) :
    element.time ≤ latest elements := by
  induction elements with
  | nil => cases member
  | cons first rest ih =>
      rcases List.mem_cons.mp member with rfl | later
      · exact Nat.le_max_left ..
      · exact Nat.le_trans (ih later) (Nat.le_max_right ..)

/-- The latest of elements that finish at given times. -/
theorem latest_eq_sup {wait : Nat → Nat}
    (times : ∀ index element, elements[index]? = some element → element.time = wait index) :
    latest elements = (Finset.range elements.length).sup wait := by
  refine Nat.le_antisymm (latest_le fun element member => ?_) (Finset.sup_le fun index member => ?_)
  · obtain ⟨index, at_index⟩ := List.mem_iff_getElem?.mp member
    obtain ⟨bound, -⟩ := List.getElem?_eq_some_iff.mp at_index
    rw [times index element at_index]
    exact Finset.le_sup (Finset.mem_range.mpr bound)
  · have at_index := List.getElem?_eq_getElem (Finset.mem_range.mp member)
    rw [← times index _ at_index]
    exact le_latest (List.mem_of_getElem? at_index)

/-! ## Side by side -/

theorem gather_of_failure (fails : failure? elements = some failing) :
    (gather elements).failing? = some failing := by
  rw [gather, fails]
  rfl

theorem gather_of_values (ok : ∀ element ∈ elements, element.failing? = none) :
    (gather elements).time = latest elements ∧
      (gather elements).outcome =
        .ok (elements.filterMap fun element => element.outcome.toOption) := by
  have none : failure? elements = none := by
    unfold failure?
    split
    · exact race_eq_none.mpr ok
    · exact inTurn_eq_none.mpr ok
  rw [gather, none]
  exact ⟨rfl, rfl⟩

/-- At most thirty elements finish no sooner than any failure of theirs, and no sooner than all of
them do. -/
theorem le_gather_of_small (small : elements.length ≤ Agenda.threshold)
    (failures : ∀ element ∈ elements, ∀ own, element.failing? = some own → time ≤ own.time)
    (exist : ∃ element ∈ elements, time ≤ element.time) : time ≤ (gather elements).time := by
  unfold gather failure?
  rw [if_pos small]
  cases raced : race elements with
  | some failing => exact le_race failures raced
  | none =>
      obtain ⟨element, member, le⟩ := exist
      exact Nat.le_trans le (le_latest member)

/-- More than thirty elements finish no sooner than one that comes after nothing but values. -/
theorem le_gather_of_large (large : ¬ (before ++ first :: after).length ≤ Agenda.threshold)
    (ok : ∀ element ∈ before, element.failing? = none) (le : time ≤ first.time) :
    time ≤ (gather (before ++ first :: after)).time := by
  unfold gather failure?
  rw [if_neg large]
  refine Nat.le_trans le ?_
  cases fails : inTurn (before ++ first :: after) with
  | some failing => exact le_inTurn ok fails
  | none => exact le_latest (List.mem_append_right _ List.mem_cons_self)

/-- At most thirty elements end with a failure that is among the earliest, if those before it that
are so may lag behind. -/
theorem gather_small_fails {error : PathError}
    (small : (before ++ first :: after).length ≤ Agenda.threshold)
    (fails : first.failing? = some own) (member : error ∈ own.reports) (on_time : own.time ≤ time)
    (lag : ∀ element ∈ before, ∀ mine, element.failing? = some mine → mine.time ≤ time →
      element.mayLag = true)
    (earliest : time ≤ (gather (before ++ first :: after)).time) :
    (gather (before ++ first :: after)).time ≤ time ∧
      (gather (before ++ first :: after)).Admits (.error error) := by
  have present : first ∈ before ++ first :: after :=
    List.mem_append_right _ List.mem_cons_self
  obtain ⟨failing, raced, le⟩ := race_le present fails
  have gathered := gather_of_failure (show failure? (before ++ first :: after) = some failing by
    rw [failure?, if_pos small, raced])
  obtain ⟨-, same, -⟩ := failing?_eq_some.mp gathered
  rw [same] at earliest ⊢
  exact ⟨Nat.le_trans le on_time, failing, gathered,
    mem_reports_race fails member on_time lag raced earliest⟩

/-- More than thirty elements end with the failure that comes after nothing but values. -/
theorem gather_large_fails {error : PathError}
    (large : ¬ (before ++ first :: after).length ≤ Agenda.threshold)
    (ok : ∀ element ∈ before, element.failing? = none)
    (values : ∀ element ∈ before, element.time ≤ time) (fails : first.failing? = some own)
    (member : error ∈ own.reports) (on_time : own.time ≤ time) :
    (gather (before ++ first :: after)).time ≤ time ∧
      (gather (before ++ first :: after)).Admits (.error error) := by
  have gathered := gather_of_failure
    (show failure? (before ++ first :: after) = some { own with time := max _ _ } by
      rw [failure?, if_neg large, inTurn_append ok fails])
  obtain ⟨-, same, -⟩ := failing?_eq_some.mp gathered
  rw [same]
  exact ⟨Nat.max_le.mpr ⟨latest_le values, on_time⟩, _, gathered, member⟩

/-! ## Nesting -/

theorem nesting_gather (elements : List (Finish α)) :
    (gather elements).nesting = nestingOf elements := by
  unfold gather
  split <;> rfl

theorem nesting_le_deepest {element : Finish α} (member : element ∈ elements) :
    element.nesting ≤ deepest elements := by
  induction elements with
  | nil => cases member
  | cons first rest ih =>
      rcases List.mem_cons.mp member with rfl | later
      · exact Nat.le_max_left ..
      · exact Nat.le_trans (ih later) (Nat.le_max_right ..)

theorem deepest_le {bound : Nat} (all : ∀ element ∈ elements, element.nesting ≤ bound) :
    deepest elements ≤ bound := by
  induction elements with
  | nil => exact Nat.zero_le _
  | cons first rest ih =>
      rw [List.forall_mem_cons] at all
      exact Nat.max_le.mpr ⟨all.1, ih all.2⟩

/-- Where large joins are nested in no element of a small one, the first failure has no rivals. -/
theorem rivals_race (shallow : ∀ element ∈ elements, element.nesting ≤ 1)
    (none : ∀ element ∈ elements, element.rivals = [])
    (raced : race elements = some failing) : failing.rivals = [] := by
  induction elements generalizing failing with
  | nil => cases raced
  | cons first rest ih =>
      rw [List.forall_mem_cons] at shallow none
      -- so the first of two failures keeps the other one from being reported
      have prompt : first.mayLag = false := by
        have := shallow.1
        simp only [mayLag, Bool.and_eq_false_imp, decide_eq_false_iff_not]
        omega
      rw [race, prompt] at raced
      cases fails : first.failing? with
      | none =>
          rw [fails] at raced
          exact ih shallow.2 none.2 raced
      | some own =>
          have alone : own.rivals = [] := (failing?_eq_some.mp fails).2.2 ▸ none.1
          cases later : race rest with
          | none =>
              rw [fails, later] at raced
              exact Option.some.inj raced ▸ alone
          | some other =>
              rw [fails, later] at raced
              obtain rfl := Option.some.inj raced
              unfold Failing.against
              split
              · exact ih shallow.2 none.2 later
              · rw [if_neg (by simp)]
                exact alone

theorem rivals_inTurn (none : ∀ element ∈ elements, element.rivals = [])
    (fails : inTurn elements = some failing) : failing.rivals = [] := by
  induction elements generalizing failing with
  | nil => cases fails
  | cons first rest ih =>
      rw [List.forall_mem_cons] at none
      rw [inTurn] at fails
      cases own : first.failing? with
      | some mine =>
          rw [own] at fails
          obtain rfl := Option.some.inj fails
          exact (failing?_eq_some.mp own).2.2 ▸ none.1
      | none =>
          rw [own] at fails
          obtain ⟨other, later, rfl⟩ := Option.map_eq_some_iff.mp fails
          show other.rivals = []
          exact ih none.2 later

/-- Rivals come from nested large joins only. -/
theorem rivals_gather (none : ∀ element ∈ elements, element.nesting ≤ 1 → element.rivals = [])
    (shallow : (gather elements).nesting ≤ 1) : (gather elements).rivals = [] := by
  rw [nesting_gather, nestingOf] at shallow
  have each (element : Finish α) (member : element ∈ elements) : element.nesting ≤ 1 :=
    Nat.le_trans (nesting_le_deepest member) (by omega)
  have alone (element : Finish α) (member : element ∈ elements) : element.rivals = [] :=
    none element member (each element member)
  unfold gather
  cases fails : failure? elements with
  | none => rfl
  | some failing =>
      unfold failure? at fails
      split at fails
      · exact rivals_race each alone fails
      · exact rivals_inTurn alone fails

end Finish

end Waypoint
