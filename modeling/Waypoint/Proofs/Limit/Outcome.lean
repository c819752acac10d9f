import Waypoint.Proofs.Limit.Clock

/-!
# The outcome of a bounded run

Whatever the limit and the order in which its tasks complete, a bounded run comes to the values of
all its tasks in input order, or fails if one of them comes to no value.
-/

namespace Waypoint

variable {V ε : Type}

/-- Sorting entries whose keys are the numbers below `count` brings every entry to the position that
is its key. -/
theorem map_fst_sortBy_eq_range {count : Nat} {entries : List (Nat × V)}
    (keys : (entries.map Prod.fst).Perm (List.range count)) :
    (sortBy Prod.fst entries).map Prod.fst = List.range count := by
  have sorted : ((sortBy Prod.fst entries).map Prod.fst).Pairwise (· ≤ ·) :=
    List.pairwise_map.mpr (pairwise_sortBy Prod.fst entries)
  have perm := ((sortBy_perm Prod.fst entries).map Prod.fst).trans keys
  exact perm.eq_of_pairwise' sorted List.pairwise_le_range

namespace BoundedRun

variable {tasks : List (Task V ε)} {run : BoundedRun V ε}

/-- A run that has joined all tasks has their values in input order. -/
theorem Faithful.results_eq (faithful : run.Faithful tasks)
    (total : (run.pool.joined.map Prod.fst).Perm (List.range tasks.length)) :
    run.pool.results.map .value = tasks.map Task.completion := by
  have keys := map_fst_sortBy_eq_range total
  have length : (sortBy Prod.fst run.pool.joined).length = tasks.length := by
    simpa using congrArg List.length keys
  refine List.ext_getElem (by simp [Pool.results, length]) fun position here _ => ?_
  simp only [Pool.results, List.length_map] at here
  have key : (sortBy Prod.fst run.pool.joined)[position].1 = position := by
    have same := List.getElem_of_eq keys (by simpa using here)
    simpa using same
  obtain ⟨task, known, comes⟩ := faithful (sortBy Prod.fst run.pool.joined)[position]
    ((sortBy_perm _ _).subset (List.getElem_mem here))
  rw [key, List.getElem?_eq_getElem (length ▸ here)] at known
  simp [Pool.results, Option.some.inj known, comes]

end BoundedRun

namespace Verdict

variable {tasks : List (Task V ε)} {moves : List Move} {run : BoundedRun V ε}

/-- A run resolves to the values of its tasks, and only if all tasks come to values. -/
theorem outcome (verdict : Verdict tasks moves run) (faithful : run.Faithful tasks)
    {result : Except (LimitError ε) (List V)} (decided : run.result = some result) :
    (∃ values, result = .ok values ∧ values.map .value = tasks.map Task.completion) ∨
      (∃ error, result = .error error) ∧
        ¬∀ task ∈ tasks, ∃ value, task.completion = .value value := by
  cases verdict with
  | undecided none joined => rw [none] at decided; cases decided
  | resolved resolves joined total empty =>
      obtain rfl := Option.some.inj (resolves.symm.trans decided)
      exact .inl ⟨_, rfl, faithful.results_eq (joined ▸ total)⟩
  | failed fails known failure split joined quiet =>
      obtain rfl := Option.some.inj (fails.symm.trans decided)
      refine .inr ⟨⟨_, rfl⟩, fun values => ?_⟩
      obtain ⟨value, comes⟩ := values _ (List.mem_of_getElem? known)
      rw [comes] at failure
      cases failure

end Verdict

theorem values_of_map_eq {tasks : List (Task V ε)} {values : List V}
    (all : values.map .value = tasks.map Task.completion) :
    ∀ task ∈ tasks, ∃ value, task.completion = .value value := by
  intro task member
  have present : task.completion ∈ values.map Completion.value :=
    all ▸ List.mem_map_of_mem member
  obtain ⟨value, -, same⟩ := List.mem_map.mp present
  exact ⟨value, same.symm⟩

/-- A bounded run comes to an end in every order, and then to the values of all tasks, each at the
index of its task, exactly if all tasks come to values. So any two runs of the same tasks come to
the same values or both fail. The run on the clock is one of them. -/
theorem result_independent_of_order (tasks : List (Task V ε)) :
    (∀ limit, 1 ≤ limit → ∀ moves run, Interleaved limit tasks moves run →
      moves.length ≤ 4 * tasks.length + 1 ∧ (run.Over tasks → run.result ≠ none) ∧
      ∀ result, run.result = some result →
        ((∃ values, result = .ok values) ↔
          ∀ task ∈ tasks, ∃ value, task.completion = .value value) ∧
        ∀ values, result = .ok values → values.map .value = tasks.map Task.completion) ∧
    (∀ limit limit', 1 ≤ limit → 1 ≤ limit' → ∀ moves moves' run run',
      Interleaved limit tasks moves run → Interleaved limit' tasks moves' run' →
      ∀ result result', run.result = some result → run'.result = some result' →
        (∃ values, result = .ok values ∧ result' = .ok values) ∨
          ∃ error error', result = .error error ∧ result' = .error error') ∧
    ∀ limit drain, ∃ moves run, Interleaved limit tasks moves run ∧
      RecordedAs (runLimited limit tasks drain) moves run := by
  refine ⟨?_, ?_, fun limit drain => runLimited_interleaved limit tasks drain⟩
  · intro limit positive moves run reached
    refine ⟨reached.length_le, ?_, ?_⟩
    · intro ended undecided
      obtain ⟨move, next, made⟩ := reached.consistent.can_move undecided
      exact ended move next made
    · intro result decided
      rcases (reached.verdict positive).outcome reached.faithful decided with
        ⟨values, rfl, all⟩ | ⟨⟨error, rfl⟩, missing⟩
      · refine ⟨⟨fun _ => values_of_map_eq all, fun _ => ⟨values, rfl⟩⟩, fun other same => ?_⟩
        exact Except.ok.inj same ▸ all
      · exact ⟨⟨fun ⟨_, same⟩ => (nomatch same), fun every => absurd every missing⟩,
          fun _ same => (nomatch same)⟩
  · intro limit limit' positive positive' moves moves' run run' reached reached' result result'
      decided decided'
    rcases (reached.verdict positive).outcome reached.faithful decided with
      ⟨values, rfl, all⟩ | ⟨⟨error, rfl⟩, missing⟩
    · rcases (reached'.verdict positive').outcome reached'.faithful decided' with
        ⟨values', rfl, all'⟩ | ⟨_, missing⟩
      · have same : values = values' :=
          List.map_injective_iff.mpr (fun _ _ => Completion.value.inj) (all.trans all'.symm)
        exact .inl ⟨values, rfl, by rw [same]⟩
      · exact absurd (values_of_map_eq all) missing
    · rcases (reached'.verdict positive').outcome reached'.faithful decided' with
        ⟨values', rfl, all'⟩ | ⟨⟨error', rfl⟩, _⟩
      · exact absurd (values_of_map_eq all') missing
      · exact .inr ⟨error, error', rfl, rfl⟩

/-- Two tasks one after the other, and both at once with the second one first. -/
theorem result_of_two_orders :
    let tasks : List (Task Nat Unit) := [⟨0, .value 5⟩, ⟨0, .value 6⟩]
    ∃ moves moves' run run', 1 ≤ 1 ∧ 1 ≤ 2 ∧ Interleaved 1 tasks moves run ∧
      Interleaved 2 tasks moves' run' ∧ run.result = some (.ok [5, 6]) ∧
      run'.result = some (.ok [5, 6]) ∧
      ((∃ values, Except.ok (ε := LimitError Unit) [5, 6] = .ok values ∧
          Except.ok (ε := LimitError Unit) [5, 6] = .ok values) ∨
        ∃ error error', Except.ok (ε := LimitError Unit) [5, 6] = .error error ∧
          Except.ok (ε := LimitError Unit) [5, 6] = .error error') := by
  intro tasks
  have first : Interleaved 1 tasks _ _ :=
    ((((((((Interleaved.nil.snoc (.launch rfl rfl)).snoc (.start 0 (by decide))).snoc
      (.finish 0 (by decide))).snoc (.join 0 ⟨rfl, rfl⟩ (by decide) rfl rfl)).snoc
      (.launch rfl rfl)).snoc (.start 1 (by decide))).snoc (.finish 1 (by decide))).snoc
      (.join 1 ⟨rfl, rfl⟩ (by decide) rfl rfl)).snoc (.resolve ⟨rfl, rfl⟩ rfl)
  have second : Interleaved 2 tasks _ _ :=
    ((((((((Interleaved.nil.snoc (.launch rfl rfl)).snoc (.launch rfl rfl)).snoc
      (.start 0 (by decide))).snoc (.start 1 (by decide))).snoc (.finish 1 (by decide))).snoc
      (.join 1 ⟨rfl, rfl⟩ (by decide) rfl rfl)).snoc (.finish 0 (by decide))).snoc
      (.join 0 ⟨rfl, rfl⟩ (by decide) rfl rfl)).snoc (.resolve ⟨rfl, rfl⟩ rfl)
  exact ⟨_, _, _, _, by decide, by decide, first, second, rfl, rfl,
    (result_independent_of_order tasks).2.1 1 2 (by decide) (by decide) _ _ _ _ first second _ _
      rfl rfl⟩

end Waypoint
