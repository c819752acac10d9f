import Mathlib
import Waypoint.Limit.Interleaving

/-!
# What every bounded run keeps

`Consistent` is the invariant of bounded runs: it relates the moves made so far to the tasks that
are pending, in flight and joined. It says that every task goes through the phases of its life in
order, each at most once, and that the pool launches in input order and never beyond its limit.
-/

namespace Waypoint

variable {V ε : Type}

/-! ## Tasks of a sequence of moves -/

@[simp] theorem indices_nil (phase : Phase) : indices phase [] = [] := rfl

@[simp] theorem indices_append (phase : Phase) (first second : List Move) :
    indices phase (first ++ second) = indices phase first ++ indices phase second :=
  List.filterMap_append

@[simp] theorem indices_task_self (phase : Phase) (index : Nat) :
    indices phase [.task phase index] = [index] := by
  simp [indices, Move.index?]

theorem indices_task_of_ne {own phase : Phase} (ne : own ≠ phase) (index : Nat) :
    indices phase [.task own index] = [] := by
  simp [indices, Move.index?, ne]

@[simp] theorem indices_resolve (phase : Phase) : indices phase [.resolve] = [] := rfl

theorem mem_indices {phase : Phase} {index : Nat} {moves : List Move} :
    index ∈ indices phase moves ↔ .task phase index ∈ moves := by
  unfold indices
  rw [List.mem_filterMap]
  constructor
  · rintro ⟨move, member, found⟩
    cases move with
    | resolve => cases found
    | task own other =>
        simp only [Move.index?] at found
        split at found
        · rename_i same
          obtain rfl := Option.some.inj found
          exact same ▸ member
        · cases found
  · intro member
    exact ⟨_, member, by simp [Move.index?]⟩

/-- Moving a member from one list to the end of another loses nothing. -/
theorem append_erase_perm {index : Nat} {list : List Nat} (member : index ∈ list)
    (front : List Nat) : (front ++ [index] ++ list.erase index).Perm (front ++ list) := by
  rw [List.append_assoc]
  exact (List.perm_cons_erase member).symm.append_left front

/-! ## The invariant -/

/-- What holds between the moves of a run and where they led. -/
structure Consistent (limit : Nat) (tasks : List (Task V ε)) (moves : List Move)
    (run : BoundedRun V ε) : Prop where
  limit_eq : run.pool.limit = limit
  /-- Tasks are launched in input order; the others are pending. -/
  order : indices .launch moves ++ run.pool.pending.map Prod.fst = List.range tasks.length
  /-- Launched tasks are in flight until they are joined. -/
  joined : (indices .join moves ++ run.pool.running).Perm (indices .launch moves)
  started : (indices .start moves ++ run.spawned).Perm (indices .launch moves)
  finished : (indices .finish moves ++ run.active).Perm (indices .start moves)
  ended : (indices .join moves ++ run.ended).Perm (indices .finish moves)
  bound : run.pool.running.length ≤ limit

namespace Consistent

variable {limit : Nat} {tasks : List (Task V ε)} {moves : List Move} {run : BoundedRun V ε}

theorem initial (limit : Nat) (tasks : List (Task V ε)) :
    Consistent limit tasks [] (.initial limit tasks) where
  limit_eq := rfl
  order := by
    show (Pool.new limit tasks).pending.map Prod.fst = List.range tasks.length
    rw [List.range_eq_range', ← List.zipIdx_map_snd 0 tasks]
    unfold Pool.new
    rw [List.map_map]
    rfl
  joined := .refl _
  started := .refl _
  finished := .refl _
  ended := .refl _
  bound := Nat.zero_le _

/-- The tasks in flight are those that have not started, those that have not ended and those that
have not been taken. -/
theorem inFlight (consistent : Consistent limit tasks moves run) :
    run.pool.running.Perm (run.ended ++ run.active ++ run.spawned) := by
  -- the phases in turn: joined and ended give finished, finished and active give started
  have split : (indices .join moves ++ (run.ended ++ run.active ++ run.spawned)).Perm
      (indices .launch moves) := by
    have ended := (consistent.ended.append_right run.active).trans consistent.finished
    have all := (ended.append_right run.spawned).trans consistent.started
    simpa only [List.append_assoc] using all
  exact (List.perm_append_left_iff _).mp (consistent.joined.trans split.symm)

theorem ended_inFlight (consistent : Consistent limit tasks moves run) {index : Nat}
    (member : index ∈ run.ended) : index ∈ run.pool.running := by
  rw [consistent.inFlight.mem_iff]
  simp [member]

theorem launches_eq_range (consistent : Consistent limit tasks moves run) :
    indices .launch moves = List.range (indices .launch moves).length := by
  have first := congrArg (List.take (indices .launch moves).length) consistent.order
  rw [List.take_left, List.take_range] at first
  have bounded : (indices .launch moves).length ≤ tasks.length := by
    have total := congrArg List.length consistent.order
    simp only [List.length_append, List.length_range] at total
    omega
  rwa [Nat.min_eq_left bounded] at first

theorem launches_nodup (consistent : Consistent limit tasks moves run) :
    (indices .launch moves).Nodup := by
  rw [consistent.launches_eq_range]
  exact List.nodup_range

theorem launches_length (consistent : Consistent limit tasks moves run) :
    (indices .launch moves).length + run.pool.pending.length = tasks.length := by
  simpa using congrArg List.length consistent.order

/-- What the pool does when it takes a task leaves the tasks it may launch alone. -/
theorem join_of_leave {index : Nat} {pool : Pool V ε} {notices : List Notice}
    {result : Option (Except (LimitError ε) (List V))}
    (consistent : Consistent limit tasks moves run) (member : index ∈ run.ended)
    (limit_eq : pool.limit = run.pool.limit) (pending : pool.pending = run.pool.pending)
    (running : pool.running = run.pool.running.erase index) :
    Consistent limit tasks (moves ++ [.task .join index])
      { run with pool, ended := run.ended.erase index, notices, result } where
  limit_eq := limit_eq.trans consistent.limit_eq
  order := by simpa [indices_task_of_ne, pending] using consistent.order
  joined := by
    have moved := append_erase_perm (consistent.ended_inFlight member) (indices .join moves)
    simpa [indices_task_of_ne, running] using moved.trans consistent.joined
  started := by simpa [indices_task_of_ne] using consistent.started
  finished := by simpa [indices_task_of_ne] using consistent.finished
  ended := by
    have moved := append_erase_perm member (indices .join moves)
    simpa [indices_task_of_ne] using moved.trans consistent.ended
  bound := by
    rw [running]
    exact (List.length_erase_le).trans consistent.bound

theorem step {move : Move} {next : BoundedRun V ε} (consistent : Consistent limit tasks moves run)
    (made : run.Step tasks move next) : Consistent limit tasks (moves ++ [move]) next := by
  cases made with
  | @launch pool index task undecided launched =>
      obtain ⟨rest, pending, room, rfl⟩ := Pool.launch?_eq_some launched
      have order := consistent.order
      rw [pending] at order
      exact {
        limit_eq := consistent.limit_eq
        order := by simpa using order
        joined := by
          simpa [indices_task_of_ne] using consistent.joined.append_right [index]
        started := by
          simpa [indices_task_of_ne] using consistent.started.append_right [index]
        finished := by simpa [indices_task_of_ne] using consistent.finished
        ended := by simpa [indices_task_of_ne] using consistent.ended
        bound := by
          have limit_eq := consistent.limit_eq
          simp only [List.length_append, List.length_singleton]
          omega }
  | start index member =>
      have moved := append_erase_perm member (indices .start moves)
      exact {
        limit_eq := consistent.limit_eq
        order := by simpa [indices_task_of_ne] using consistent.order
        joined := by simpa [indices_task_of_ne] using consistent.joined
        started := by simpa [indices_task_of_ne] using moved.trans consistent.started
        finished := by
          simpa [indices_task_of_ne] using consistent.finished.append_right [index]
        ended := by simpa [indices_task_of_ne] using consistent.ended
        bound := consistent.bound }
  | finish index member =>
      have moved := append_erase_perm member (indices .finish moves)
      exact {
        limit_eq := consistent.limit_eq
        order := by simpa [indices_task_of_ne] using consistent.order
        joined := by simpa [indices_task_of_ne] using consistent.joined
        started := by simpa [indices_task_of_ne] using consistent.started
        finished := by simpa [indices_task_of_ne] using moved.trans consistent.finished
        ended := by
          simpa [indices_task_of_ne] using consistent.ended.append_right [index]
        bound := consistent.bound }
  | @join task pool index waiting member known joined =>
      -- a value and a failure differ in what is kept of them, which the invariant does not look at
      obtain ⟨value, -, rfl⟩ := Pool.join_eq_ok joined
      exact consistent.join_of_leave member rfl rfl rfl
  | @fail task error notice index waiting member known failed =>
      exact consistent.join_of_leave member rfl rfl rfl
  | resolve waiting empty =>
      exact {
        limit_eq := consistent.limit_eq
        order := by simpa using consistent.order
        joined := by simpa using consistent.joined
        started := by simpa using consistent.started
        finished := by simpa using consistent.finished
        ended := by simpa using consistent.ended
        bound := consistent.bound }

end Consistent

theorem Interleaved.consistent {limit : Nat} {tasks : List (Task V ε)} {moves : List Move}
    {run : BoundedRun V ε} (reached : Interleaved limit tasks moves run) :
    Consistent limit tasks moves run := by
  induction reached with
  | nil => exact .initial limit tasks
  | snoc _ made ih => exact ih.step made

end Waypoint
