import Mathlib
import Waypoint.Future.Running

/-!
# What a running future comes to

Whether a running future comes to a value, and to which one, does not depend on time
(`Running.expected`). Which failure it comes to may depend on it, but it is always one of those that
are in the future (`Running.failures`). Asking a future keeps the one and adds nothing to the other
(`Running.Refines`).
-/

namespace Waypoint

variable {L : Type}

namespace Future

mutual

/-- The failures in a future. What comes after a join counts only where all children have a
value. -/
def failures : Future L → List PathError
  | done _ => []
  | fail error => [error]
  | call _ _ next => next.failures
  | join children next =>
    allFailures children ++
      match outcomes children with
      | .ok values => (next values).failures
      | .error _ => []

def allFailures : List (Future L) → List PathError
  | [] => []
  | child :: rest => child.failures ++ allFailures rest

end

theorem mem_allFailures {error : PathError} {children : List (Future L)} :
    error ∈ allFailures children ↔ ∃ child ∈ children, error ∈ child.failures := by
  induction children with
  | nil => simp [allFailures]
  | cons child rest ih => simp [allFailures, ih]

end Future

namespace Running

mutual

/-- The value that a running future comes to, if it comes to one. -/
def expected : Running L → Option Doc
  | fresh future => future.outcome.toOption
  | waiting _ next => next.outcome.toOption
  | joining children _ next =>
    (expectedAll children).bind fun values => (next values).outcome.toOption
  | finished result => result.toOption

def expectedAll : List (Running L) → Option (List Doc)
  | [] => some []
  | child :: rest => (expected child).bind fun value => (expectedAll rest).map (value :: ·)

end

mutual

/-- The failures in a running future. -/
def failures : Running L → List PathError
  | fresh future => future.failures
  | waiting _ next => next.failures
  | joining children _ next =>
    allFailures children ++
      match expectedAll children with
      | some values => (next values).failures
      | none => []
  | finished (.ok _) => []
  | finished (.error error) => [error]

def allFailures : List (Running L) → List PathError
  | [] => []
  | child :: rest => failures child ++ allFailures rest

end

theorem mem_allFailures {error : PathError} {children : List (Running L)} :
    error ∈ allFailures children ↔ ∃ child ∈ children, error ∈ child.failures := by
  induction children with
  | nil => simp [allFailures]
  | cons child rest ih => simp [allFailures, ih]

/-! ## The children of a join that begins -/

theorem expectedAll_map_fresh (children : List (Future L)) :
    expectedAll (children.map fresh) = (Future.outcomes children).toOption := by
  induction children with
  | nil => rfl
  | cons child rest ih =>
      rw [List.map_cons, expectedAll, expected, ih, Future.outcomes]
      cases child.outcome with
      | error error => rfl
      | ok value => cases Future.outcomes rest <;> rfl

theorem allFailures_map_fresh (children : List (Future L)) :
    allFailures (children.map fresh) = Future.allFailures children := by
  induction children with
  | nil => rfl
  | cons child rest ih => rw [List.map_cons, allFailures, failures, ih, Future.allFailures]

/-! ## The children of a join that ends -/

theorem expectedAll_of_values {children : List (Running L)} {values : List Doc}
    (all : values? children = some values) : expectedAll children = some values := by
  induction children generalizing values with
  | nil => exact all
  | cons child rest ih =>
      match child with
      | finished (.ok value) =>
        obtain ⟨others, tail, rfl⟩ := Option.map_eq_some_iff.mp all
        rw [expectedAll, expected, ih tail]
        rfl
      | finished (.error _) | fresh _ | waiting _ _ | joining _ _ _ => cases all

theorem eq_finished {running : Running L} (finished : running.isFinished = true) :
    ∃ result, running = .finished result := by
  cases running with
  | finished result => exact ⟨result, rfl⟩
  | fresh _ | waiting _ _ | joining _ _ _ => cases finished

theorem isFinished_of_values {children : List (Running L)} {values : List Doc}
    (all : values? children = some values) : ∀ child ∈ children, child.isFinished = true := by
  induction children generalizing values with
  | nil => exact List.forall_mem_nil _
  | cons child rest ih =>
      match child with
      | finished (.ok value) =>
        obtain ⟨others, tail, -⟩ := Option.map_eq_some_iff.mp all
        exact List.forall_mem_cons.mpr ⟨rfl, ih tail⟩
      | finished (.error _) | fresh _ | waiting _ _ | joining _ _ _ => cases all

/-- The next failure of a join is that of a child. -/
theorem mem_of_nextFailure {children : List (Running L)} {error : PathError}
    (next : nextFailure children = some error) : finished (.error error) ∈ children := by
  induction children with
  | nil => cases next
  | cons child rest ih =>
      match child with
      | finished (.ok value) => exact List.mem_cons_of_mem _ (ih next)
      | finished (.error first) =>
        obtain rfl : first = error := Option.some.inj next
        exact List.mem_cons_self
      | fresh _ | waiting _ _ | joining _ _ _ => cases next

theorem expectedAll_eq_none {children : List (Running L)} {child : Running L}
    (member : child ∈ children) (fails : child.expected = none) : expectedAll children = none := by
  induction children with
  | nil => cases member
  | cons first rest ih =>
      rw [expectedAll]
      rcases List.mem_cons.mp member with rfl | later
      · rw [fails]
        rfl
      · -- the first child does not matter, it may come to a value or not
        rw [ih later]
        cases first.expected <;> rfl

/-- A join of the children may end with a failure. -/
structure MayFail (children : List (Running L)) (error : PathError) : Prop where
  expected : expectedAll children = none
  failure : error ∈ allFailures children

/-- A join may end with the failure of a child that has finished. -/
theorem MayFail.of_mem {children : List (Running L)} {error : PathError}
    (member : finished (.error error) ∈ children) : MayFail children error where
  expected := expectedAll_eq_none member rfl
  failure := mem_allFailures.mpr ⟨_, member, by simp [failures]⟩

/-! ## Refinement -/

/-- One running future is another one later on. -/
structure Refines (before after : Running L) : Prop where
  expected : after.expected = before.expected
  failures : after.failures ⊆ before.failures

namespace Refines

theorem refl (running : Running L) : Refines running running :=
  ⟨rfl, fun _ member => member⟩

theorem trans {first second third : Running L} (one : Refines first second)
    (two : Refines second third) : Refines first third :=
  ⟨two.expected.trans one.expected, fun _ member => one.failures (two.failures member)⟩

end Refines

/-- The same for many running futures. -/
def RefinesAll (before after : List (Running L)) : Prop :=
  List.Forall₂ Refines before after

namespace RefinesAll

variable {before after : List (Running L)}

theorem refl (running : List (Running L)) : RefinesAll running running :=
  List.forall₂_same.mpr fun child _ => Refines.refl child

theorem trans {first second third : List (Running L)} (one : RefinesAll first second)
    (two : RefinesAll second third) : RefinesAll first third := by
  unfold RefinesAll at *
  induction one generalizing third with
  | nil => exact two
  | cons head tail ih =>
      cases two with
      | cons head' tail' => exact .cons (head.trans head') (ih tail')

theorem set {children : List (Running L)} {index : Nat} {child child' : Running L}
    (at_index : children[index]? = some child) (refines : Refines child child') :
    RefinesAll children (children.set index child') := by
  induction children generalizing index with
  | nil => cases at_index
  | cons first rest ih =>
      cases index with
      | zero =>
          obtain rfl : first = child := Option.some.inj at_index
          exact .cons refines (refl rest)
      | succ index => exact .cons (.refl first) (ih at_index)

theorem expectedAll_eq (refines : RefinesAll before after) :
    expectedAll after = expectedAll before := by
  induction refines with
  | nil => rfl
  | cons head tail ih => rw [expectedAll, expectedAll, head.expected, ih]

theorem allFailures_subset (refines : RefinesAll before after) :
    allFailures after ⊆ allFailures before := by
  induction refines with
  | nil => exact fun _ member => member
  | cons head tail ih =>
      intro error member
      rcases List.mem_append.mp member with own | others
      · exact List.mem_append_left _ (head.failures own)
      · exact List.mem_append_right _ (ih others)

theorem mayFail (refines : RefinesAll before after) {error : PathError}
    (may : MayFail after error) : MayFail before error :=
  ⟨refines.expectedAll_eq ▸ may.expected, refines.allFailures_subset may.failure⟩

/-- A join is taken further with its children, whatever becomes of its agenda. -/
theorem joining (refines : RefinesAll before after) (agenda agenda' : Agenda)
    (next : List Doc → Future L) :
    Refines (.joining before agenda next) (.joining after agenda' next) where
  expected := by rw [Running.expected, Running.expected, refines.expectedAll_eq]
  failures := by
    intro error member
    rw [Running.failures, refines.expectedAll_eq] at member
    rw [Running.failures]
    rcases List.mem_append.mp member with own | later
    · exact List.mem_append_left _ (refines.allFailures_subset own)
    · exact List.mem_append_right _ later

end RefinesAll

/-! ## The ends of a join -/

variable {children : List (Running L)}

/-- A join that ends with a failure. -/
theorem Refines.of_mayFail {error : PathError} (may : MayFail children error) (agenda : Agenda)
    (next : List Doc → Future L) :
    Refines (joining children agenda next) (finished (.error error)) where
  expected := by
    rw [Running.expected, Running.expected, may.expected]
    rfl
  failures := by
    intro other member
    obtain rfl : other = error := List.mem_singleton.mp member
    rw [Running.failures]
    exact List.mem_append_left _ may.failure

/-- A join that goes on with what comes after it. -/
theorem Refines.of_values {values : List Doc} (all : expectedAll children = some values)
    (agenda : Agenda) (next : List Doc → Future L) :
    Refines (joining children agenda next) (fresh (next values)) where
  expected := by
    rw [Running.expected, Running.expected, all]
    rfl
  failures := by
    intro error member
    rw [Running.failures, all]
    exact List.mem_append_right _ member

theorem Refines.of_join (children : List (Future L)) (agenda : Agenda)
    (next : List Doc → Future L) :
    Refines (fresh (.join children next)) (joining (children.map fresh) agenda next) where
  expected := by
    rw [Running.expected, Running.expected, expectedAll_map_fresh, Future.outcome]
    cases Future.outcomes children <;> rfl
  failures := by
    rw [Running.failures, Running.failures, expectedAll_map_fresh, allFailures_map_fresh,
      Future.failures]
    cases Future.outcomes children <;> exact fun _ member => member

end Running

end Waypoint
