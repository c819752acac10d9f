import Waypoint.Path.Stage

/-!
# Notices

What the library reports about its own work while it runs: every notice has a level, a message and
named fields.
-/

namespace Waypoint

inductive Level where
  | trace
  | debug
  | warn
  deriving DecidableEq, Inhabited, Repr

def Level.name : Level → String
  | .trace => "TRACE"
  | .debug => "DEBUG"
  | .warn => "WARN"

/-- A report on the library's own work. -/
inductive Notice where
  | compiled (path : Path)
  /-- A fold is about to take the element at an index. -/
  | foldStep (index : Nat)
  /-- A task is about to be launched; it is counted among those in flight. -/
  | launching (index inFlight : Nat)
  /-- All tasks were joined. -/
  | allCompleted (completed : Nat)
  /-- A task failed; the tasks in flight go on unobserved, the pending ones are given up. -/
  | taskFailed (index detached abandoned : Nat)
  | taskPanicked (inFlight : Nat)
  deriving DecidableEq, Inhabited, Repr

namespace Notice

def level : Notice → Level
  | compiled .. => .trace
  | foldStep .. => .trace
  | launching .. => .debug
  | allCompleted .. => .debug
  | taskFailed .. => .warn
  | taskPanicked .. => .warn

def message : Notice → String
  | compiled .. => "compiled property path"
  | foldStep .. => "async fold step"
  | launching .. => "launching task"
  | allCompleted .. => "all tasks completed"
  | taskFailed .. => "task failed; letting tasks in flight finish"
  | taskPanicked .. => "task panicked"

/-- The fields of a notice, in order, with their values as text. -/
def fields : Notice → List (String × String)
  | compiled path => [("path", path.text), ("stages", toString path.stageCount)]
  | foldStep index => [("index", toString index)]
  | launching index inFlight => [("index", toString index), ("in_flight", toString inFlight)]
  | allCompleted completed => [("completed", toString completed)]
  | taskFailed index detached abandoned =>
    [("index", toString index), ("detached", toString detached),
      ("abandoned", toString abandoned)]
  | taskPanicked inFlight => [("in_flight", toString inFlight)]

end Notice

/-- A line of a record: a call under observation, or a notice given along the way. -/
inductive Entry (κ : Type) where
  | call (call : κ)
  | notice (notice : Notice)
  deriving DecidableEq, Inhabited, Repr

namespace Entry

variable {κ : Type}

def call? : Entry κ → Option κ
  | call c => some c
  | notice _ => none

def notice? : Entry κ → Option Notice
  | call _ => none
  | notice n => some n

def calls (record : List (Entry κ)) : List κ :=
  record.filterMap call?

def notices (record : List (Entry κ)) : List Notice :=
  record.filterMap notice?

theorem calls_append (record more : List (Entry κ)) :
    calls (record ++ more) = calls record ++ calls more :=
  List.filterMap_append

/-- Notices are no calls. -/
theorem calls_map_notice (lines : List Notice) :
    calls (lines.map .notice : List (Entry κ)) = [] := by
  induction lines with
  | nil => rfl
  | cons line rest ih => exact ih

end Entry

end Waypoint
