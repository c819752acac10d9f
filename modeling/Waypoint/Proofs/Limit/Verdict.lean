import Waypoint.Proofs.Limit.Invariant

/-!
# What the result of a bounded run says about its moves

A run has no result as long as all joined tasks came to values. It resolves after it has joined all
tasks, and fails with the first joined task that came to no value; from then on no move is one of
the pool (`Verdict`). Every run that has no result yet can go on, and no run makes more than four
moves for each task and one more.
-/

namespace Waypoint

variable {V ε : Type}

/-- The failure with which a run ends that joins the completion of a task. -/
def Completion.failure? (index : Nat) : Completion V ε → Option (LimitError ε)
  | value _ => none
  | failure error => some (.task index error)
  | panic => some .join

namespace BoundedRun

/-- The values that a pool has joined are those of its tasks. -/
def Faithful (tasks : List (Task V ε)) (run : BoundedRun V ε) : Prop :=
  ∀ entry ∈ run.pool.joined, ∃ task, tasks[entry.1]? = some task ∧
    task.completion = .value entry.2

variable {tasks : List (Task V ε)} {run next : BoundedRun V ε} {move : Move}

theorem Faithful.step (faithful : run.Faithful tasks) (made : run.Step tasks move next) :
    next.Faithful tasks := by
  cases made with
  | launch undecided launched =>
      obtain ⟨rest, -, -, rfl⟩ := Pool.launch?_eq_some launched
      exact faithful
  | start index member => exact faithful
  | finish index member => exact faithful
  | @join task pool index waiting member known joined =>
      obtain ⟨value, comes, rfl⟩ := Pool.join_eq_ok joined
      intro entry present
      rcases List.mem_append.mp present with earlier | last
      · exact faithful entry earlier
      · obtain rfl := List.mem_singleton.mp last
        exact ⟨task, known, comes⟩
  | fail index waiting member known failed => exact faithful
  | resolve waiting empty => exact faithful

end BoundedRun

/-- How the result of a run comes from its moves. -/
inductive Verdict (tasks : List (Task V ε)) (moves : List Move) (run : BoundedRun V ε) : Prop
  /-- All joined tasks came to values. -/
  | undecided (result : run.result = none)
      (joined : run.pool.joined.map Prod.fst = indices .join moves)
  /-- All tasks were joined, and nothing is in flight. -/
  | resolved (result : run.result = some (.ok run.pool.results))
      (joined : run.pool.joined.map Prod.fst = indices .join moves)
      (total : (indices .join moves).Perm (List.range tasks.length))
      (empty : run.pool.running = [])
  /-- A joined task ended the run; those joined before it came to values, and since then the pool
  has made no move. -/
  | failed {before after : List Move} {index : Nat} {task : Task V ε} {error : LimitError ε}
      (result : run.result = some (.error error))
      (known : tasks[index]? = some task)
      (failure : task.completion.failure? index = some error)
      (split : moves = before ++ .task .join index :: after)
      (joined : run.pool.joined.map Prod.fst = indices .join before)
      (quiet : ∀ move ∈ after, move.isPool = false)

namespace Consistent

variable {limit : Nat} {tasks : List (Task V ε)} {moves : List Move} {run : BoundedRun V ε}

/-- A pool that waits with nothing in flight has joined all tasks. -/
theorem all_joined (consistent : Consistent limit tasks moves run) (positive : 0 < limit)
    (waiting : run.Waiting) (empty : run.pool.running = []) :
    (indices .join moves).Perm (List.range tasks.length) := by
  have pending : run.pool.pending = [] := by
    rcases Pool.launch?_eq_none_iff.mp waiting.2 with none | noRoom
    · exact none
    · have limit_eq := consistent.limit_eq
      simp only [empty, List.length_nil] at noRoom
      omega
  have joined := consistent.joined
  have order := consistent.order
  simp only [empty, pending, List.append_nil, List.map_nil] at joined order
  exact order ▸ joined

/-- Where nothing is in flight no task makes a move of its own. -/
theorem not_step_of_empty (consistent : Consistent limit tasks moves run)
    (empty : run.pool.running = []) {move : Move} {next : BoundedRun V ε}
    (own : move.isPool = false) : ¬run.Step tasks move next := by
  have none : run.ended ++ run.active ++ run.spawned = [] :=
    (empty ▸ consistent.inFlight).nil_eq.symm
  intro made
  cases made with
  | start index member => simp_all
  | finish index member => simp_all
  | launch undecided launched => cases own
  | join index waiting member known joined => cases own
  | fail index waiting member known failed => cases own
  | resolve waiting empty => cases own

end Consistent

namespace Verdict

variable {limit : Nat} {tasks : List (Task V ε)} {moves : List Move} {move : Move}
  {run next : BoundedRun V ε}

/-- A move that a task makes on its own changes nothing about the result. -/
theorem own_step (verdict : Verdict tasks moves run)
    (consistent : Consistent limit tasks moves run) (own : move.isPool = false)
    (made : run.Step tasks move next) (result : next.result = run.result)
    (pool : next.pool = run.pool) (joins : indices .join [move] = []) :
    Verdict tasks (moves ++ [move]) next := by
  cases verdict with
  | undecided none joined =>
      exact .undecided (result.trans none) (by simpa [pool, joins] using joined)
  | resolved done joined total empty =>
      exact absurd made (consistent.not_step_of_empty empty own)
  | failed error known failure split joined quiet =>
      refine .failed (result.trans error) known failure (by rw [split, List.append_assoc]; rfl)
        (by rw [pool, joined]) ?_
      intro later member
      rcases List.mem_append.mp member with earlier | last
      · exact quiet later earlier
      · exact List.mem_singleton.mp last ▸ own

/-- Before the result all joined tasks came to values. -/
theorem joined_of_undecided (verdict : Verdict tasks moves run) (none : run.result = none) :
    run.pool.joined.map Prod.fst = indices .join moves := by
  cases verdict with
  | undecided _ joined => exact joined
  | resolved result => rw [none] at result; cases result
  | failed result => rw [none] at result; cases result

theorem step (verdict : Verdict tasks moves run) (consistent : Consistent limit tasks moves run)
    (positive : 0 < limit) (made : run.Step tasks move next) :
    Verdict tasks (moves ++ [move]) next := by
  cases made with
  | @launch pool index task undecided launched =>
      have joined := verdict.joined_of_undecided undecided
      obtain ⟨rest, -, -, rfl⟩ := Pool.launch?_eq_some launched
      exact .undecided undecided (by simpa [indices_task_of_ne] using joined)
  | start index member =>
      exact verdict.own_step consistent rfl (.start index member) rfl rfl rfl
  | finish index member =>
      exact verdict.own_step consistent rfl (.finish index member) rfl rfl rfl
  | @join task pool index waiting member known joined =>
      obtain ⟨value, -, rfl⟩ := Pool.join_eq_ok joined
      exact .undecided waiting.1 (by simpa using verdict.joined_of_undecided waiting.1)
  | @fail task error notice index waiting member known failed =>
      have failure : task.completion.failure? index = some error := by
        rcases Pool.join_eq_error failed with ⟨reason, comes, rfl, -⟩ | ⟨comes, rfl, -⟩
        · rw [comes]; rfl
        · rw [comes]; rfl
      exact .failed rfl known failure rfl (verdict.joined_of_undecided waiting.1) (by simp)
  | resolve waiting empty =>
      have total := consistent.all_joined positive waiting empty
      exact .resolved rfl (by simpa using verdict.joined_of_undecided waiting.1)
        (by simpa using total) empty

end Verdict

namespace Interleaved

variable {limit : Nat} {tasks : List (Task V ε)} {moves : List Move} {run : BoundedRun V ε}

theorem faithful (reached : Interleaved limit tasks moves run) : run.Faithful tasks := by
  induction reached with
  | nil => intro entry member; cases member
  | snoc _ made ih => exact ih.step made

theorem verdict (reached : Interleaved limit tasks moves run) (positive : 0 < limit) :
    Verdict tasks moves run := by
  induction reached with
  | nil => exact .undecided (by simp [BoundedRun.initial, Nat.ne_of_gt positive]) rfl
  | snoc before made ih => exact ih.step before.consistent positive made

/-- A run up to one of its moves is a run in which that move is possible. -/
theorem split {before after : List Move} {move : Move}
    (reached : Interleaved limit tasks (before ++ move :: after) run) :
    ∃ earlier next, Interleaved limit tasks before earlier ∧ earlier.Step tasks move next := by
  generalize whole : before ++ move :: after = moves at reached
  induction reached generalizing after with
  | nil => simp at whole
  | @snoc moves last run next reached made ih =>
      rcases List.eq_nil_or_concat after with rfl | ⟨front, final, rfl⟩
      · obtain ⟨rfl, rfl⟩ := List.append_singleton_inj.mp whole
        exact ⟨run, next, reached, made⟩
      · rw [List.concat_eq_append, ← List.cons_append, ← List.append_assoc] at whole
        exact ih (List.append_inj_left' whole rfl)

end Interleaved

/-! ## Every run comes to an end -/

namespace Consistent

variable {limit : Nat} {tasks : List (Task V ε)} {moves : List Move} {run : BoundedRun V ε}

theorem running_lt (consistent : Consistent limit tasks moves run) {index : Nat}
    (member : index ∈ run.pool.running) : index < tasks.length := by
  have launched : index ∈ indices .launch moves :=
    consistent.joined.subset (List.mem_append_right _ member)
  have total := consistent.order ▸ List.mem_append_left (run.pool.pending.map Prod.fst) launched
  exact List.mem_range.mp total

/-- A run without a result can go on. -/
theorem can_move (consistent : Consistent limit tasks moves run) (undecided : run.result = none) :
    ∃ move next, run.Step tasks move next := by
  cases launched : run.pool.launch? with
  | some first => exact ⟨_, _, .launch undecided launched⟩
  | none =>
      have waiting : run.Waiting := ⟨undecided, launched⟩
      cases spawned : run.spawned with
      | cons index _ => exact ⟨_, _, .start index (by simp [spawned])⟩
      | nil =>
          cases active : run.active with
          | cons index _ => exact ⟨_, _, .finish index (by simp [active])⟩
          | nil =>
              cases ended : run.ended with
              | nil =>
                  have inFlight := consistent.inFlight
                  simp only [spawned, active, ended, List.append_nil] at inFlight
                  exact ⟨_, _, .resolve waiting inFlight.eq_nil⟩
              | cons index _ =>
                  have member : index ∈ run.ended := by simp [ended]
                  have bound := consistent.running_lt (consistent.ended_inFlight member)
                  have known := List.getElem?_eq_getElem bound
                  cases taken : run.pool.join index tasks[index].completion with
                  | ok pool => exact ⟨_, _, .join index waiting member known taken⟩
                  | error failure => exact ⟨_, _, .fail index waiting member known taken⟩

/-- Where no move is possible, all launched tasks have started and ended. -/
theorem finished_of_over (consistent : Consistent limit tasks moves run)
    (ended : run.Over tasks) :
    (indices .start moves).Perm (indices .launch moves) ∧
      (indices .finish moves).Perm (indices .launch moves) := by
  have spawned : run.spawned = [] :=
    List.eq_nil_iff_forall_not_mem.mpr fun index member => ended _ _ (.start index member)
  have active : run.active = [] :=
    List.eq_nil_iff_forall_not_mem.mpr fun index member => ended _ _ (.finish index member)
  have started := consistent.started
  have finished := consistent.finished
  rw [spawned, List.append_nil] at started
  rw [active, List.append_nil] at finished
  exact ⟨started, finished.trans started⟩

end Consistent

theorem length_eq_indices (moves : List Move) :
    moves.length = (indices .launch moves).length + (indices .start moves).length +
      (indices .finish moves).length + (indices .join moves).length + moves.count .resolve := by
  induction moves with
  | nil => rfl
  | cons move rest ih =>
      rw [← List.singleton_append, List.length_append, ih, List.count_append]
      simp only [indices_append, List.length_append, List.length_singleton]
      cases move with
      | resolve => simp; omega
      | task phase index => cases phase <;> simp [indices_task_of_ne] <;> omega

namespace Interleaved

variable {limit : Nat} {tasks : List (Task V ε)} {moves : List Move} {run : BoundedRun V ε}

/-- A run resolves at most once, and has a result from then on. -/
theorem count_resolve_le (reached : Interleaved limit tasks moves run) :
    moves.count .resolve ≤ if run.result = none then 0 else 1 := by
  induction reached with
  | nil => simp
  | @snoc moves move run next _ made ih =>
      rw [List.count_append]
      cases made with
      | launch undecided _ => simpa [undecided] using ih
      | start index member => simpa using ih
      | finish index member => simpa using ih
      | join index waiting _ _ _ => simpa [waiting.1] using ih
      | fail index waiting _ _ _ => simpa [waiting.1] using Nat.le_succ_of_le ih
      | resolve waiting _ => simpa [waiting.1] using ih

/-- No run goes on for ever: at most four moves for each task, and the resolution. -/
theorem length_le (reached : Interleaved limit tasks moves run) :
    moves.length ≤ 4 * tasks.length + 1 := by
  have consistent := reached.consistent
  have launches := consistent.launches_length
  have joined := consistent.joined.length_eq
  have started := consistent.started.length_eq
  have finished := consistent.finished.length_eq
  have resolved : moves.count .resolve ≤ 1 := by
    have bound := reached.count_resolve_le
    split at bound <;> omega
  rw [length_eq_indices]
  simp only [List.length_append] at joined started finished
  omega

end Interleaved

end Waypoint
