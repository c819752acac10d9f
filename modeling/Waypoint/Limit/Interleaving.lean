import Waypoint.Limit.Pool

/-!
# Bounded runs in every order

A bounded run as a system of moves. The pool launches tasks and takes those that have ended. A
launched task starts at some later move and ends at another; what it comes to is fixed, when it does
so is not. The pool waits only where it cannot launch, and then takes any one of the ended tasks.

Nothing is said about time: `Interleaved limit tasks moves run` holds for every sequence of moves
that are possible one after another. After the run has its result the pool makes no more moves, but
the tasks that it left in flight still do.
-/

namespace Waypoint

/-- What happens to a task in the course of a bounded run, in this order. -/
inductive Phase where
  | launch
  | start
  /-- It comes to its completion. -/
  | finish
  /-- The pool takes its completion. -/
  | join
  deriving DecidableEq, Inhabited, Repr

inductive Move where
  | task (phase : Phase) (index : Nat)
  /-- The run resolves to the values of all tasks. -/
  | resolve
  deriving DecidableEq, Inhabited, Repr

namespace Move

/-- The task of a move, if the move is of a phase. -/
def index? (phase : Phase) : Move → Option Nat
  | task own index => if own = phase then some index else none
  | resolve => none

/-- Whether a move is made by the pool, and not by a task on its own. -/
def isPool : Move → Bool
  | task .launch _ => true
  | task .start _ => false
  | task .finish _ => false
  | task .join _ => true
  | resolve => true

end Move

/-- The tasks that go through a phase in a sequence of moves, in order. -/
def indices (phase : Phase) (moves : List Move) : List Nat :=
  moves.filterMap (Move.index? phase)

/-- A bounded run between two moves: its pool, the launched tasks by what they have done so far, the
notices given, and the result once there is one. -/
structure BoundedRun (V ε : Type) where
  pool : Pool V ε
  /-- The launched tasks that have not started. -/
  spawned : List Nat
  /-- The started tasks that have not ended. -/
  active : List Nat
  /-- The ended tasks that the pool has not taken. -/
  ended : List Nat
  notices : List Notice
  result : Option (Except (LimitError ε) (List V))

namespace BoundedRun

variable {V ε : Type}

/-- A run before its first move. Without a limit it has its result already. -/
def initial (limit : Nat) (tasks : List (Task V ε)) : BoundedRun V ε where
  pool := Pool.new limit tasks
  spawned := []
  active := []
  ended := []
  notices := []
  result := if limit = 0 then some (.error .invalidLimit) else none

/-- The pool waits for a task to end: there is no result yet and nothing to launch. -/
def Waiting (run : BoundedRun V ε) : Prop :=
  run.result = none ∧ run.pool.launch? = none

/-- The moves that are possible, and what they lead to. -/
inductive Step (tasks : List (Task V ε)) : BoundedRun V ε → Move → BoundedRun V ε → Prop
  | launch {run pool} {index : Nat} {task} (undecided : run.result = none)
      (launched : run.pool.launch? = some ((index, task), pool)) :
      Step tasks run (.task .launch index)
        { run with
          pool
          spawned := run.spawned ++ [index]
          notices := run.notices ++ [.launching index (run.pool.running.length + 1)] }
  | start {run} (index : Nat) (member : index ∈ run.spawned) :
      Step tasks run (.task .start index)
        { run with spawned := run.spawned.erase index, active := run.active ++ [index] }
  | finish {run} (index : Nat) (member : index ∈ run.active) :
      Step tasks run (.task .finish index)
        { run with active := run.active.erase index, ended := run.ended ++ [index] }
  | join {run task pool} (index : Nat) (waiting : run.Waiting) (member : index ∈ run.ended)
      (known : tasks[index]? = some task)
      (joined : run.pool.join index task.completion = .ok pool) :
      Step tasks run (.task .join index) { run with pool, ended := run.ended.erase index }
  | fail {run task error notice} (index : Nat) (waiting : run.Waiting)
      (member : index ∈ run.ended) (known : tasks[index]? = some task)
      (failed : run.pool.join index task.completion = .error (error, notice)) :
      Step tasks run (.task .join index)
        { run with
          pool := run.pool.leave index
          ended := run.ended.erase index
          notices := run.notices ++ [notice]
          result := some (.error error) }
  | resolve {run} (waiting : run.Waiting) (empty : run.pool.running = []) :
      Step tasks run .resolve
        { run with
          notices := run.notices ++ [.allCompleted tasks.length]
          result := some (.ok run.pool.results) }

/-- No move is possible any more. -/
def Over (tasks : List (Task V ε)) (run : BoundedRun V ε) : Prop :=
  ∀ move next, ¬Step tasks run move next

end BoundedRun

/-- `Interleaved limit tasks moves run`: the moves lead from the beginning of a run to `run`. -/
inductive Interleaved {V ε : Type} (limit : Nat) (tasks : List (Task V ε)) :
    List Move → BoundedRun V ε → Prop
  | nil : Interleaved limit tasks [] (.initial limit tasks)
  | snoc {moves move run next} (before : Interleaved limit tasks moves run)
      (step : run.Step tasks move next) : Interleaved limit tasks (moves ++ [move]) next

end Waypoint
