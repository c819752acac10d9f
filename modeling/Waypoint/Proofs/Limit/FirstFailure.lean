import Waypoint.Limit.Timeline
import Waypoint.Proofs.Limit.Verdict

/-!
# The first failure of a bounded run

The first joined task that comes to no value decides the run. The pool then makes no more moves; the
tasks that it left in flight go on to their ends, unobserved.
-/

namespace Waypoint

variable {V ε : Type}

/-- Moves that the pool does not make launch and join nothing. -/
theorem indices_of_quiet (phase : Phase) (pool : ∀ index, (Move.task phase index).isPool = true)
    {moves : List Move} (quiet : ∀ move ∈ moves, move.isPool = false) :
    indices phase moves = [] := by
  refine List.eq_nil_iff_forall_not_mem.mpr fun index member => ?_
  have own := quiet _ (mem_indices.mp member)
  rw [pool index] at own
  cases own

/-- The tasks that a run without a failure has joined came to values. -/
theorem BoundedRun.Faithful.value_of_joined {tasks : List (Task V ε)} {run : BoundedRun V ε}
    (faithful : run.Faithful tasks) {index : Nat} (joined : index ∈ run.pool.joined.map Prod.fst) :
    ∃ task value, tasks[index]? = some task ∧ task.completion = .value value := by
  obtain ⟨entry, member, rfl⟩ := List.mem_map.mp joined
  obtain ⟨task, known, comes⟩ := faithful entry member
  exact ⟨task, entry.2, known, comes⟩

/-- Without a limit there is nothing to run: no move is ever made. -/
theorem Interleaved.of_limit_zero {tasks : List (Task V ε)} {moves : List Move}
    {run : BoundedRun V ε} (reached : Interleaved 0 tasks moves run) :
    moves = [] ∧ run = .initial 0 tasks := by
  induction reached with
  | nil => exact ⟨rfl, rfl⟩
  | snoc before made ih =>
      obtain ⟨rfl, rfl⟩ := ih
      cases made with
      | launch undecided launched => cases undecided
      | start index member => cases member
      | finish index member => cases member
      | join index waiting member known joined => cases member
      | fail index waiting member known failed => cases member
      | resolve waiting empty => cases waiting.1

/-- A run that has joined a task that came to no value has the failure of that task as its result,
and before it joined values only. -/
theorem Verdict.of_failure {tasks : List (Task V ε)} {moves : List Move} {run : BoundedRun V ε}
    (verdict : Verdict tasks moves run) (faithful : run.Faithful tasks) {index : Nat}
    (joined : index ∈ indices .join moves) {task : Task V ε} (known : tasks[index]? = some task)
    {error : LimitError ε} (failure : task.completion.failure? index = some error) :
    ∃ before after, moves = before ++ .task .join index :: after ∧
      run.result = some (.error error) ∧
      (∀ other ∈ indices .join before, ∃ task value, tasks[other]? = some task ∧
        task.completion = .value value) ∧
      ∀ move ∈ after, move.isPool = false := by
  have noValue : index ∉ run.pool.joined.map Prod.fst := by
    intro member
    obtain ⟨same, value, found, comes⟩ := faithful.value_of_joined member
    obtain rfl := Option.some.inj (known.symm.trans found)
    rw [comes] at failure
    cases failure
  cases verdict with
  | undecided result all => exact absurd (all ▸ joined) noValue
  | resolved result all total empty => exact absurd (all ▸ joined) noValue
  | @failed before after last failed reason result found reasons split all quiet =>
      have none : indices .join after = [] := indices_of_quiet .join (fun _ => rfl) quiet
      have here : index ∈ indices .join before ++ [last] := by
        rw [split, List.append_cons, indices_append, indices_append, none] at joined
        simpa using joined
      obtain rfl : index = last := by
        rcases List.mem_append.mp here with earlier | same
        · exact absurd (all ▸ earlier) noValue
        · exact List.mem_singleton.mp same
      obtain rfl := Option.some.inj (known.symm.trans found)
      obtain rfl := Option.some.inj (failure.symm.trans reasons)
      refine ⟨before, after, split, result, ?_, quiet⟩
      intro other member
      exact faithful.value_of_joined (all ▸ member)

/-- A run ends at the first join of a task that comes to no value, with the index and the failure of
that task, or with `join` if it panicked. The joins before it were of values, and after it nothing
is launched or joined. The launched tasks are a prefix of the input; no other task ever starts. The
tasks in flight at that join, fewer than `limit` without the failed one, are not interrupted: a run
that cannot go on has started and finished each launched task once. Without a limit the run fails
before any move. -/
theorem first_failure_ends_run (tasks : List (Task V ε)) :
    (∀ limit, 1 ≤ limit → ∀ moves run, Interleaved limit tasks moves run →
      ∀ index ∈ indices .join moves, ∀ task, tasks[index]? = some task →
      ∀ error, task.completion.failure? index = some error →
        ∃ before after atJoin launched,
          moves = before ++ .task .join index :: after ∧
          Interleaved limit tasks before atJoin ∧ atJoin.result = none ∧
          run.result = some (.error error) ∧
          (∀ other ∈ indices .join before, ∃ task value, tasks[other]? = some task ∧
            task.completion = .value value) ∧
          (∀ move ∈ after, move.isPool = false) ∧
          indices .launch moves = List.range launched ∧
          indices .launch before = List.range launched ∧
          (indices .start moves).Nodup ∧ (∀ other ∈ indices .start moves, other < launched) ∧
          index ∈ atJoin.pool.running ∧ (atJoin.pool.running.erase index).length ≤ limit - 1 ∧
          (run.Over tasks → (indices .start moves).Perm (List.range launched) ∧
            (indices .finish moves).Perm (List.range launched))) ∧
      (∀ moves run, Interleaved 0 tasks moves run →
        moves = [] ∧ run.result = some (.error .invalidLimit)) ∧
      ∀ drain, (runLimited 0 tasks drain).result = .error .invalidLimit ∧
        Entry.calls (runLimited 0 tasks drain).log = [.resolved 0] := by
  refine ⟨?_, ?_, fun drain => ⟨rfl, rfl⟩⟩
  · intro limit positive moves run reached index joined task known error failure
    have consistent := reached.consistent
    obtain ⟨before, after, split, result, values, quiet⟩ :=
      (reached.verdict positive).of_failure reached.faithful joined known failure
    subst split
    obtain ⟨atJoin, next, earlier, made⟩ := reached.split
    have waiting : atJoin.Waiting ∧ index ∈ atJoin.ended := by
      cases made with
      | join index waiting member known joined => exact ⟨waiting, member⟩
      | fail index waiting member known failed => exact ⟨waiting, member⟩
    have member := earlier.consistent.ended_inFlight waiting.2
    have launches : indices .launch (before ++ .task .join index :: after) =
        indices .launch before := by
      rw [List.append_cons, indices_append, indices_append,
        indices_of_quiet .launch (fun _ => rfl) quiet]
      simp [indices_task_of_ne]
    have range := earlier.consistent.launches_eq_range
    have subset : ∀ other ∈ indices .start (before ++ .task .join index :: after),
        other ∈ List.range (indices .launch before).length := by
      intro other started
      rw [← range, ← launches]
      exact consistent.started.subset (List.mem_append_left _ started)
    refine ⟨before, after, atJoin, _, rfl, earlier, waiting.1.1, result, values, quiet,
      launches.trans range, range, ?_, ?_, member, ?_, ?_⟩
    · have all := consistent.started.nodup_iff.mpr consistent.launches_nodup
      exact (List.nodup_append.mp all).1
    · intro other started
      exact List.mem_range.mp (subset other started)
    · have bound := earlier.consistent.bound
      rw [List.length_erase_of_mem member]
      omega
    · intro ended
      have finished := consistent.finished_of_over ended
      rwa [launches, range] at finished
  · intro moves run reached
    obtain ⟨rfl, rfl⟩ := reached.of_limit_zero
    exact ⟨rfl, rfl⟩

/-- The second of three tasks fails while the first one is in flight; the third never starts. -/
theorem first_failure_of_three_tasks :
    let tasks : List (Task Nat String) := [⟨0, .value 5⟩, ⟨0, .failure "no"⟩, ⟨0, .value 7⟩]
    let moves : List Move := [.task .launch 0, .task .launch 1, .task .start 1, .task .start 0,
      .task .finish 1, .task .join 1, .task .finish 0]
    ∃ run, 1 ≤ 2 ∧ Interleaved 2 tasks moves run ∧ 1 ∈ indices .join moves ∧
      tasks[1]? = some ⟨0, .failure "no"⟩ ∧ run.result = some (.error (.task 1 "no")) ∧
      ∃ before launched, moves = before ++ [.task .join 1, .task .finish 0] ∧
        indices .launch moves = List.range launched ∧
        ∀ other ∈ indices .start moves, other < launched := by
  intro tasks moves
  have reached : Interleaved 2 tasks moves _ :=
    ((((((Interleaved.nil.snoc (.launch rfl rfl)).snoc (.launch rfl rfl)).snoc
      (.start 1 (by decide))).snoc (.start 0 (by decide))).snoc (.finish 1 (by decide))).snoc
      (.fail 1 ⟨rfl, rfl⟩ (by decide) rfl rfl)).snoc (.finish 0 (by decide))
  obtain ⟨before, after, atJoin, launched, split, -, -, result, -, -, launches, -, -, starts, -⟩ :=
    (first_failure_ends_run tasks).1 2 (by decide) moves _ reached 1 (by decide) _ rfl _ rfl
  exact ⟨_, by decide, reached, by decide, rfl, result, moves.take 5, launched, rfl, launches,
    starts⟩

end Waypoint
