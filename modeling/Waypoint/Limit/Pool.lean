import Waypoint.Error
import Waypoint.Notice
import Waypoint.Sorting
import Waypoint.Wait

/-!
# The pool of a bounded run

A bounded run keeps at most `limit` tasks in flight. Tasks are launched in input order, each as soon
as a slot is free, and joined one at a time in whatever order they complete. The first task that
does not come to a value ends the run; the tasks then in flight are left alone and those not yet
launched never are.

`Pool` is the state between two joins, `Pool.refill` launches and `Pool.join` takes one completion.
Which task completes next is not decided here.
-/

namespace Waypoint

inductive Completion (V ε : Type) where
  | value (value : V)
  | failure (error : ε)
  | panic
  deriving DecidableEq, Inhabited

/-- What a task comes to that is a call of a function without panics. -/
def Completion.ofResult {V ε : Type} : Except ε V → Completion V ε
  | .ok result => value result
  | .error error => failure error

/-- A task: how long it takes and what it comes to. -/
structure Task (V ε : Type) where
  duration : Nat
  completion : Completion V ε

/-- A task that waits before it comes to something. -/
def Task.waiting {V ε : Type} (delay : Nat) (completion : Completion V ε) : Task V ε :=
  ⟨boundedWait delay, completion⟩

/-- The state of a bounded run: the tasks not yet launched, the indices of those in flight in the
order of their launch, and the values joined so far with their indices. -/
structure Pool (V ε : Type) where
  limit : Nat
  pending : List (Nat × Task V ε)
  running : List Nat
  joined : List (Nat × V)

namespace Pool

variable {V ε : Type}

/-- The pool before any launch: tasks are numbered in input order. -/
def new (limit : Nat) (tasks : List (Task V ε)) : Pool V ε :=
  ⟨limit, tasks.zipIdx.map fun (task, index) => (index, task), [], []⟩

/-- The first pending task and the pool that has launched it, if a slot is free. -/
def launch? (pool : Pool V ε) : Option ((Nat × Task V ε) × Pool V ε) :=
  match pool.pending with
  | [] => none
  | first :: rest =>
    if pool.running.length < pool.limit then
      some (first, { pool with pending := rest, running := pool.running ++ [first.1] })
    else none

def free (pool : Pool V ε) : Nat :=
  pool.limit - pool.running.length

/-- The tasks that a refill launches: the first pending ones, as many as there are free slots. -/
def launchable (pool : Pool V ε) : List (Nat × Task V ε) :=
  pool.pending.take pool.free

/-- The pool with every free slot filled as long as tasks are pending. -/
def refill (pool : Pool V ε) : Pool V ε :=
  { pool with
    pending := pool.pending.drop pool.free
    running := pool.running ++ pool.launchable.map Prod.fst }

/-- The notices of a refill: each launch counts itself among the tasks in flight. -/
def launchNotices (pool : Pool V ε) : List Notice :=
  pool.launchable.zipIdx.map fun (launched, position) =>
    .launching launched.1 (pool.running.length + position + 1)

def leave (index : Nat) (pool : Pool V ε) : Pool V ε :=
  { pool with running := pool.running.erase index }

/-- Takes the completion of a task in flight. A value is kept; anything else ends the run, with the
failure and a closing notice. -/
def join (index : Nat) (completion : Completion V ε) (pool : Pool V ε) :
    Except (LimitError ε × Notice) (Pool V ε) :=
  let left := pool.leave index
  match completion with
  | .value value => .ok { left with joined := left.joined ++ [(index, value)] }
  | .failure error =>
    .error (.task index error, .taskFailed index left.running.length left.pending.length)
  | .panic => .error (.join, .taskPanicked left.running.length)

/-- The values joined so far, in input order. -/
def results (pool : Pool V ε) : List V :=
  (sortBy Prod.fst pool.joined).map Prod.snd

/-! ## Joining -/

/-- A task comes to a value exactly when its join does not end the run, and the value is kept. -/
theorem join_eq_ok {index : Nat} {completion : Completion V ε} {pool next : Pool V ε}
    (joined : pool.join index completion = .ok next) :
    ∃ value, completion = .value value ∧
      next = { pool.leave index with joined := pool.joined ++ [(index, value)] } := by
  cases completion with
  | value value => exact ⟨value, rfl, (Except.ok.inj joined).symm⟩
  | failure error => cases joined
  | panic => cases joined

/-- The failure with which a join ends the run, and its notice. -/
theorem join_eq_error {index : Nat} {completion : Completion V ε} {pool : Pool V ε}
    {error : LimitError ε} {notice : Notice}
    (failed : pool.join index completion = .error (error, notice)) :
    (∃ reason, completion = .failure reason ∧ error = .task index reason ∧
        notice = .taskFailed index (pool.leave index).running.length pool.pending.length) ∨
      (completion = .panic ∧ error = .join ∧
        notice = .taskPanicked (pool.leave index).running.length) := by
  cases completion with
  | value value => cases failed
  | failure reason =>
      obtain ⟨rfl, rfl⟩ := Prod.mk.inj (Except.error.inj failed)
      exact .inl ⟨reason, rfl, rfl, rfl⟩
  | panic =>
      obtain ⟨rfl, rfl⟩ := Prod.mk.inj (Except.error.inj failed)
      exact .inr ⟨rfl, rfl, rfl⟩

/-! ## Launching one by one -/

/-- A launch moves the first pending task to the tasks in flight, and only into a free slot. -/
theorem launch?_eq_some {pool next : Pool V ε} {first : Nat × Task V ε}
    (launched : pool.launch? = some (first, next)) :
    ∃ rest, pool.pending = first :: rest ∧ pool.running.length < pool.limit ∧
      next = { pool with pending := rest, running := pool.running ++ [first.1] } := by
  unfold launch? at launched
  split at launched
  · cases launched
  · rename_i head rest pending
    split at launched
    · rename_i room
      obtain ⟨rfl, rfl⟩ := Prod.mk.inj (Option.some.inj launched)
      exact ⟨rest, pending, room, rfl⟩
    · cases launched

/-- Nothing is launched when no task is pending or no slot is free. -/
theorem launch?_eq_none_iff {pool : Pool V ε} :
    pool.launch? = none ↔ pool.pending = [] ∨ pool.limit ≤ pool.running.length := by
  unfold launch?
  cases pool.pending with
  | nil => simp
  | cons first rest => simp

/-- A refill does nothing where no task can be launched. -/
theorem refill_of_launch?_none {pool : Pool V ε} (full : pool.launch? = none) :
    pool.launchable = [] ∧ pool.refill = pool := by
  have launchable : pool.launchable = [] := by
    rcases launch?_eq_none_iff.mp full with none | noRoom
    · simp [Pool.launchable, none]
    · simp [Pool.launchable, free, Nat.sub_eq_zero_of_le noRoom]
  have pending : pool.pending.drop pool.free = pool.pending := by
    rcases launch?_eq_none_iff.mp full with none | noRoom
    · simp [none]
    · simp [free, Nat.sub_eq_zero_of_le noRoom]
  simp [refill, launchable, pending]

/-- A refill launches a task, if one can be launched, and then does what is left to do. -/
theorem refill_of_launch? {pool next : Pool V ε} {first : Nat × Task V ε}
    (launched : pool.launch? = some (first, next)) :
    pool.launchable = first :: next.launchable ∧ pool.refill = next.refill ∧
      pool.launchNotices =
        .launching first.1 (pool.running.length + 1) :: next.launchNotices := by
  obtain ⟨rest, pending, room, rfl⟩ := launch?_eq_some launched
  have free : pool.free =
      Pool.free { pool with pending := rest, running := pool.running ++ [first.1] } + 1 := by
    simp only [Pool.free, List.length_append, List.length_singleton]
    omega
  have launchable : pool.launchable = first ::
      Pool.launchable { pool with pending := rest, running := pool.running ++ [first.1] } := by
    simp [Pool.launchable, pending, free]
  refine ⟨launchable, ?_, ?_⟩
  · simp [refill, launchable, pending, free]
  · simp only [launchNotices, launchable, List.zipIdx_cons, List.zipIdx_succ, List.map_cons,
      List.map_map, List.length_append, List.length_singleton, Nat.zero_add, Nat.add_zero]
    congr 1
    refine List.map_congr_left fun entry _ => ?_
    simp only [Function.comp, Nat.add_assoc, Nat.add_comm 1]

end Pool

end Waypoint
