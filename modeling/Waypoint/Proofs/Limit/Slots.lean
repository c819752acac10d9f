import Waypoint.Proofs.Limit.Verdict

/-!
# Slots

The pool of a bounded run never has more tasks in flight than its limit, and never fewer than it
could have where it waits.
-/

namespace Waypoint

variable {V ε : Type}

/-- Where the pool waits, every slot is taken for which there is a task. -/
theorem Consistent.running_length_of_waiting {limit : Nat} {tasks : List (Task V ε)}
    {moves : List Move} {run : BoundedRun V ε} (consistent : Consistent limit tasks moves run)
    (waiting : run.Waiting) :
    run.pool.running.length = min limit (tasks.length - (indices .join moves).length) := by
  have launches := consistent.launches_length
  have joined := consistent.joined.length_eq
  have bound := consistent.bound
  have limit_eq := consistent.limit_eq
  rw [List.length_append] at joined
  rcases Pool.launch?_eq_none_iff.mp waiting.2 with none | noRoom
  · rw [none, List.length_nil] at launches
    omega
  · omega

/-- A run with a result in which every joined task came to a value has joined all tasks. -/
theorem Verdict.total_of_values {tasks : List (Task V ε)} {moves : List Move}
    {run : BoundedRun V ε} (verdict : Verdict tasks moves run)
    (values : ∀ index ∈ indices .join moves, ∃ task value, tasks[index]? = some task ∧
      task.completion = .value value)
    (decided : run.result ≠ none) : (indices .join moves).Perm (List.range tasks.length) := by
  cases verdict with
  | undecided none joined => exact absurd none decided
  | resolved result joined total empty => exact total
  | @failed before after index task error result known failure split joined quiet =>
      obtain ⟨other, value, same, comes⟩ := values index (mem_indices.mpr (by simp [split]))
      obtain rfl := Option.some.inj (known.symm.trans same)
      rw [comes] at failure
      cases failure

/-- The joined tasks, those in flight and those pending partition the input, and the launched ones
come first in it. At most `limit` tasks are in flight, and where the pool waits as many as there can
be: nothing is in flight there only when all tasks were joined. A run in which no joined task fails
ends after one join for every task. -/
theorem slots_filled_in_input_order {limit : Nat} (positive : 1 ≤ limit)
    {tasks : List (Task V ε)} {moves : List Move} {run : BoundedRun V ε}
    (reached : Interleaved limit tasks moves run) :
    (indices .join moves ++ run.pool.running ++ run.pool.pending.map Prod.fst).Perm
        (List.range tasks.length) ∧
      (∃ launched, indices .launch moves = List.range launched ∧
        run.pool.pending.map Prod.fst = (List.range tasks.length).drop launched) ∧
      run.pool.running.length ≤ limit ∧
      (run.Waiting →
        run.pool.running.length = min limit (tasks.length - (indices .join moves).length) ∧
          (run.pool.running = [] ↔ (indices .join moves).length = tasks.length)) ∧
      ((∀ index ∈ indices .join moves, ∃ task value, tasks[index]? = some task ∧
          task.completion = .value value) →
        run.result ≠ none ∨ run.Over tasks → (indices .join moves).length = tasks.length) := by
  have consistent := reached.consistent
  refine ⟨?_, ⟨_, consistent.launches_eq_range, ?_⟩, consistent.bound, ?_, ?_⟩
  · have partition := consistent.joined.append_right (run.pool.pending.map Prod.fst)
    rwa [consistent.order] at partition
  · rw [← consistent.order, List.drop_left]
  · intro waiting
    have slots := consistent.running_length_of_waiting waiting
    have joined := consistent.joined.length_eq
    have launches := consistent.launches_length
    rw [List.length_append] at joined
    refine ⟨slots, ?_⟩
    rw [← List.length_eq_zero_iff, slots]
    omega
  · intro values ended
    have decided : run.result ≠ none := by
      rcases ended with decided | ended
      · exact decided
      · intro undecided
        obtain ⟨move, next, made⟩ := consistent.can_move undecided
        exact ended move next made
    have total := (reached.verdict positive).total_of_values values decided
    simpa using total.length_eq

/-- The second of three tasks was joined first, and the third has taken its slot. -/
theorem slots_filled_after_first_join :
    let tasks : List (Task Nat Unit) := [⟨0, .value 5⟩, ⟨0, .value 6⟩, ⟨0, .panic⟩]
    let moves : List Move := [.task .launch 0, .task .launch 1, .task .start 1, .task .finish 1,
      .task .join 1, .task .launch 2]
    ∃ run, 1 ≤ 2 ∧ Interleaved 2 tasks moves run ∧ run.Waiting ∧
      run.pool.running.length = min 2 (tasks.length - (indices .join moves).length) := by
  intro tasks moves
  have reached : Interleaved 2 tasks moves _ :=
    (((((Interleaved.nil.snoc (.launch rfl rfl)).snoc (.launch rfl rfl)).snoc
      (.start 1 (by decide))).snoc (.finish 1 (by decide))).snoc
      (.join 1 ⟨rfl, rfl⟩ (by decide) rfl rfl)).snoc (.launch rfl rfl)
  exact ⟨_, by decide, reached, ⟨rfl, rfl⟩,
    ((slots_filled_in_input_order (by decide) reached).2.2.2.1 ⟨rfl, rfl⟩).1⟩

end Waypoint
