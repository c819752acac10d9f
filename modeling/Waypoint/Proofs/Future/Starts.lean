import Waypoint.Future.World

/-!
# The starts and ends in a record

Callbacks take their waiting times in the order in which they start, so that order is read off a
record (`Entry.starts`), and so is the order in which they end (`Entry.ends`).
-/

namespace Waypoint

variable {L : Type}

/-- The label of a callback that starts. -/
def CallEvent.started? : CallEvent L → Option L
  | started label _ => some label
  | ended _ _ => none

/-- The label of a callback that ends. -/
def CallEvent.ended? : CallEvent L → Option L
  | started _ _ => none
  | ended label _ => some label

namespace Entry

/-- The labels of the callbacks on record, in the order in which they start. -/
def starts (log : List (Entry (CallEvent L))) : List L :=
  (calls log).filterMap CallEvent.started?

@[simp] theorem starts_nil : starts ([] : List (Entry (CallEvent L))) = [] := rfl

@[simp] theorem starts_append (log log' : List (Entry (CallEvent L))) :
    starts (log ++ log') = starts log ++ starts log' := by
  simp [starts, calls]

@[simp] theorem starts_started (label : L) (time : Nat) (log : List (Entry (CallEvent L))) :
    starts (.call (.started label time) :: log) = label :: starts log := rfl

@[simp] theorem starts_ended (label : L) (time : Nat) (log : List (Entry (CallEvent L))) :
    starts (.call (.ended label time) :: log) = starts log := rfl

@[simp] theorem starts_notice (notice : Notice) (log : List (Entry (CallEvent L))) :
    starts (.notice notice :: log) = starts log := rfl

@[simp] theorem starts_map_notice (notices : List Notice) :
    starts (notices.map .notice : List (Entry (CallEvent L))) = [] := by
  rw [starts, calls_map_notice, List.filterMap_nil]

/-- The labels of the callbacks that have ended, in the order in which they end. -/
def ends (log : List (Entry (CallEvent L))) : List L :=
  (calls log).filterMap CallEvent.ended?

@[simp] theorem ends_nil : ends ([] : List (Entry (CallEvent L))) = [] := rfl

@[simp] theorem ends_append (log log' : List (Entry (CallEvent L))) :
    ends (log ++ log') = ends log ++ ends log' := by
  simp [ends, calls]

@[simp] theorem ends_started (label : L) (time : Nat) (log : List (Entry (CallEvent L))) :
    ends (.call (.started label time) :: log) = ends log := rfl

@[simp] theorem ends_ended (label : L) (time : Nat) (log : List (Entry (CallEvent L))) :
    ends (.call (.ended label time) :: log) = label :: ends log := rfl

@[simp] theorem ends_notice (notice : Notice) (log : List (Entry (CallEvent L))) :
    ends (.notice notice :: log) = ends log := rfl

@[simp] theorem ends_map_notice (notices : List Notice) :
    ends (notices.map .notice : List (Entry (CallEvent L))) = [] := by
  rw [ends, calls_map_notice, List.filterMap_nil]

theorem mem_ends_iff {label : L} {log : List (Entry (CallEvent L))} :
    label ∈ ends log ↔ ∃ time, .call (.ended label time) ∈ log := by
  induction log with
  | nil => simp
  | cons line rest ih =>
      match line with
      | .call (.ended other time) => simp [ih, eq_comm, exists_or]
      | .call (.started _ _) | .notice _ => simp [ih]

end Entry

end Waypoint
