import Waypoint.Proofs.Limit.Clock
import Waypoint.Proofs.Limit.FirstFailure

/-!
# The notices of a bounded run

A bounded run gives a notice with each launch, and one more when it comes to a result. The counts in
them are taken from the pool: before a launch, and after the join that ends the run. They agree with
the moves that were made until then, so every task is accounted for (`Reported`).
-/

namespace Waypoint

variable {V ε : Type}

/-- The number of tasks that were joined before a task was launched. -/
def joinsBefore (moves : List Move) (index : Nat) : Nat :=
  (indices .join (moves.takeWhile (· != .task .launch index))).length

/-- The notice of a launch: of the tasks launched so far, this one included, those are in flight
that were not joined before. -/
def launchNotice (moves : List Move) (index : Nat) : Notice :=
  .launching index (index + 1 - joinsBefore moves index)

/-- The notices with which a run closes, and how their counts come from its moves. -/
inductive Closing (limit : Nat) (tasks : List (Task V ε)) (moves : List Move)
    (run : BoundedRun V ε) : List Notice → Prop
  /-- As long as there is no result, nothing. -/
  | undecided (result : run.result = none) : Closing limit tasks moves run []
  /-- All tasks were launched and joined. -/
  | completed {values : List V} (result : run.result = some (.ok values))
      (launched : (indices .launch moves).length = tasks.length)
      (joined : (indices .join moves).length = tasks.length) :
      Closing limit tasks moves run [.allCompleted tasks.length]
  /-- A task failed. Those joined before it came to values, the detached ones were launched and not
  joined, and the abandoned ones were not launched. -/
  | failed {index detached abandoned : Nat} {task : Task V ε} {error : ε}
      (result : run.result = some (.error (.task index error)))
      (known : tasks[index]? = some task) (comes : task.completion = .failure error)
      (joined : indices .join moves = run.pool.joined.map Prod.fst ++ [index])
      (total : run.pool.joined.length + 1 + detached + abandoned = tasks.length)
      (launched : (indices .launch moves).length + abandoned = tasks.length)
      (room : detached ≤ limit - 1) :
      Closing limit tasks moves run [.taskFailed index detached abandoned]
  /-- A task panicked. Those joined before it came to values, and the ones in flight were launched
  and not joined. -/
  | panicked {index inFlight : Nat} {task : Task V ε} (result : run.result = some (.error .join))
      (known : tasks[index]? = some task) (comes : task.completion = .panic)
      (joined : indices .join moves = run.pool.joined.map Prod.fst ++ [index])
      (launched : (indices .join moves).length + inFlight = (indices .launch moves).length) :
      Closing limit tasks moves run [.taskPanicked inFlight]

/-- The notices of a run: one for each launch and those with which it closes. -/
structure Reported (limit : Nat) (tasks : List (Task V ε)) (moves : List Move)
    (run : BoundedRun V ε) (closing : List Notice) : Prop where
  notices : run.notices = (indices .launch moves).map (launchNotice moves) ++ closing
  closes : Closing limit tasks moves run closing
  inFlight : ∀ index ∈ indices .launch moves,
    joinsBefore moves index ≤ index ∧ index + 1 - joinsBefore moves index ≤ limit

/-! ## Joins before a launch -/

/-- Up to its first launch a task was not launched. -/
theorem joinsBefore_eq {before : List Move} {index : Nat}
    (fresh : .task .launch index ∉ before) (after : List Move) :
    joinsBefore (before ++ .task .launch index :: after) index = (indices .join before).length := by
  have others : ∀ move ∈ before, (move != Move.task .launch index) = true := by
    intro move member
    exact bne_iff_ne.mpr fun same => fresh (same ▸ member)
  have first : (before ++ .task .launch index :: after).takeWhile (· != .task .launch index) =
      before := by
    rw [List.takeWhile_append_of_pos others, List.takeWhile_cons]
    simp
  rw [joinsBefore, first]

/-- What comes after a launch makes no difference to it. -/
theorem joinsBefore_append {moves : List Move} {index : Nat}
    (launched : index ∈ indices .launch moves) (more : List Move) :
    joinsBefore (moves ++ more) index = joinsBefore moves index := by
  obtain ⟨before, after, rfl, fresh⟩ := List.eq_append_cons_of_mem (mem_indices.mp launched)
  rw [List.append_assoc, List.cons_append, joinsBefore_eq fresh, joinsBefore_eq fresh]

theorem map_launchNotice_append (moves more : List Move) :
    (indices .launch moves).map (launchNotice (moves ++ more)) =
      (indices .launch moves).map (launchNotice moves) :=
  List.map_congr_left fun index launched => by
    rw [launchNotice, launchNotice, joinsBefore_append launched]

/-! ## One move -/

theorem Closing.eq_nil {limit : Nat} {tasks : List (Task V ε)} {moves : List Move}
    {run : BoundedRun V ε} {closing : List Notice} (closes : Closing limit tasks moves run closing)
    (undecided : run.result = none) : closing = [] := by
  cases closes with
  | undecided _ => rfl
  | completed result | failed result | panicked result =>
      rw [undecided] at result
      cases result

/-- A move of a task on its own changes nothing about how a run closes. -/
theorem Closing.own_step {limit : Nat} {tasks : List (Task V ε)} {moves : List Move} {move : Move}
    {run next : BoundedRun V ε} {closing : List Notice}
    (closes : Closing limit tasks moves run closing) (result : next.result = run.result)
    (pool : next.pool = run.pool) (launches : indices .launch [move] = [])
    (joins : indices .join [move] = []) : Closing limit tasks (moves ++ [move]) next closing := by
  have launched : indices .launch (moves ++ [move]) = indices .launch moves := by
    rw [indices_append, launches, List.append_nil]
  have joined : indices .join (moves ++ [move]) = indices .join moves := by
    rw [indices_append, joins, List.append_nil]
  cases closes with
  | undecided none => exact .undecided (result.trans none)
  | completed done all whole =>
      exact .completed (result.trans done) (launched ▸ all) (joined ▸ whole)
  | failed fails known comes last total all room =>
      exact .failed (result.trans fails) known comes (by rw [joined, pool, last])
        (by rw [pool, total]) (by rw [launched, all]) room
  | panicked fails known comes last all =>
      exact .panicked (result.trans fails) known comes (by rw [joined, pool, last])
        (by rw [joined, launched, all])

/-- The counts that the pool takes when a join ends the run. -/
theorem Consistent.counts_of_join {limit : Nat} {tasks : List (Task V ε)} {moves : List Move}
    {run : BoundedRun V ε} (consistent : Consistent limit tasks moves run) {index : Nat}
    (member : index ∈ run.ended) :
    (indices .join moves).length + 1 + (run.pool.leave index).running.length =
        (indices .launch moves).length ∧
      (run.pool.leave index).running.length ≤ limit - 1 := by
  have joined := consistent.joined.length_eq
  have bound := consistent.bound
  have taken := consistent.ended_inFlight member
  have some := List.length_pos_of_mem taken
  rw [List.length_append] at joined
  rw [Pool.leave, List.length_erase_of_mem taken]
  omega

/-- A task is launched after all tasks before it in the input. -/
theorem Consistent.launches_before {limit : Nat} {tasks : List (Task V ε)} {moves : List Move}
    {run : BoundedRun V ε} {index : Nat}
    (consistent : Consistent limit tasks (moves ++ [.task .launch index]) run) :
    indices .launch moves = List.range index := by
  have launches : indices .launch (moves ++ [.task .launch index]) =
      indices .launch moves ++ [index] := by simp
  have range := consistent.launches_eq_range
  rw [launches, List.length_append, List.length_singleton, List.range_succ] at range
  obtain ⟨earlier, last⟩ := List.append_singleton_inj.mp range
  rw [earlier, ← last]

namespace Reported

variable {limit : Nat} {tasks : List (Task V ε)} {moves : List Move} {move : Move}
  {run next : BoundedRun V ε} {closing : List Notice}

/-- A move that launches nothing adds nothing but the notices with which the run closes. -/
theorem idle {more : List Notice} (reported : Reported limit tasks moves run closing)
    (launches : indices .launch [move] = [])
    (notices : next.notices = (indices .launch moves).map (launchNotice moves) ++ more)
    (closes : Closing limit tasks (moves ++ [move]) next more) :
    Reported limit tasks (moves ++ [move]) next more where
  notices := by
    rw [indices_append, launches, List.append_nil, map_launchNotice_append, notices]
  closes := closes
  inFlight := by
    intro index launched
    rw [indices_append, launches, List.append_nil] at launched
    rw [joinsBefore_append launched]
    exact reported.inFlight index launched

/-- A launch counts the task among those in flight. -/
theorem launch (reported : Reported limit tasks moves run closing)
    (consistent : Consistent limit tasks moves run) (undecided : run.result = none) {index : Nat}
    (after : Consistent limit tasks (moves ++ [.task .launch index]) next)
    (notices : next.notices = run.notices ++ [.launching index (run.pool.running.length + 1)])
    (result : next.result = none) (room : run.pool.running.length < limit) :
    Reported limit tasks (moves ++ [.task .launch index]) next [] := by
  have launches : indices .launch (moves ++ [.task .launch index]) =
      indices .launch moves ++ [index] := by simp
  have range := after.launches_before
  have index_eq : index = (indices .launch moves).length := by rw [range, List.length_range]
  have fresh : .task .launch index ∉ moves := by
    rw [← mem_indices, range]
    exact List.not_mem_range_self
  have before : joinsBefore (moves ++ [.task .launch index]) index =
      (indices .join moves).length := joinsBefore_eq fresh []
  have joined := consistent.joined.length_eq
  rw [List.length_append] at joined
  constructor
  · have count : run.pool.running.length + 1 = index + 1 - (indices .join moves).length := by omega
    rw [notices, reported.notices, reported.closes.eq_nil undecided, launches, List.map_append,
      map_launchNotice_append, List.map_singleton, launchNotice, before, count]
    simp
  · exact .undecided result
  · intro other member
    rw [launches] at member
    rcases List.mem_append.mp member with earlier | last
    · rw [joinsBefore_append earlier]
      exact reported.inFlight other earlier
    · obtain rfl := List.mem_singleton.mp last
      rw [before]
      omega

theorem step (reported : Reported limit tasks moves run closing)
    (consistent : Consistent limit tasks moves run) (verdict : Verdict tasks moves run)
    (positive : 0 < limit) (made : run.Step tasks move next) :
    ∃ closing, Reported limit tasks (moves ++ [move]) next closing := by
  have after := consistent.step made
  cases made with
  | @launch pool index task undecided launched =>
      obtain ⟨rest, -, room, rfl⟩ := Pool.launch?_eq_some launched
      rw [consistent.limit_eq] at room
      exact ⟨[], reported.launch consistent undecided after rfl undecided room⟩
  | start index member =>
      exact ⟨closing, reported.idle rfl reported.notices (reported.closes.own_step rfl rfl rfl rfl)⟩
  | finish index member =>
      exact ⟨closing, reported.idle rfl reported.notices (reported.closes.own_step rfl rfl rfl rfl)⟩
  | join index waiting member known joined =>
      have notices := reported.notices
      rw [reported.closes.eq_nil waiting.1] at notices
      exact ⟨[], reported.idle rfl notices (.undecided waiting.1)⟩
  | @fail task error notice index waiting member known failed =>
      have notices := reported.notices
      rw [reported.closes.eq_nil waiting.1, List.append_nil] at notices
      have joined := verdict.joined_of_undecided waiting.1
      obtain ⟨inFlight, room⟩ := consistent.counts_of_join member
      have launches := consistent.launches_length
      refine ⟨[notice], reported.idle rfl (by rw [notices]) ?_⟩
      have joins : indices .join (moves ++ [.task .join index]) =
          run.pool.joined.map Prod.fst ++ [index] := by simp [joined]
      have same : indices .launch (moves ++ [.task .join index]) = indices .launch moves := by
        simp [indices_task_of_ne]
      have count : run.pool.joined.length = (indices .join moves).length := by
        rw [← joined, List.length_map]
      rcases Pool.join_eq_error failed with ⟨reason, comes, rfl, rfl⟩ | ⟨comes, rfl, rfl⟩
      · refine .failed rfl known comes joins ?_ ?_ room
        · show run.pool.joined.length + 1 + _ + _ = _
          omega
        · rw [same]
          exact launches
      · refine .panicked rfl known comes joins ?_
        rw [joins, same, List.length_append, List.length_map, List.length_singleton, count]
        exact inFlight
  | resolve waiting empty =>
      have notices := reported.notices
      rw [reported.closes.eq_nil waiting.1, List.append_nil] at notices
      have total := (consistent.all_joined positive waiting empty).length_eq
      have joined := consistent.joined.length_eq
      rw [empty, List.append_nil] at joined
      rw [List.length_range] at total
      have launched : (indices .launch moves).length = tasks.length := by omega
      exact ⟨[.allCompleted tasks.length], reported.idle rfl (by rw [notices])
        (.completed rfl (by simpa using launched) (by simpa using total))⟩

end Reported

/-- A run is reported from its beginning on. -/
theorem Interleaved.reported {limit : Nat} {tasks : List (Task V ε)} {moves : List Move}
    {run : BoundedRun V ε} (reached : Interleaved limit tasks moves run) (positive : 0 < limit) :
    ∃ closing, Reported limit tasks moves run closing := by
  induction reached with
  | nil =>
      refine ⟨[], rfl, .undecided ?_, fun index member => by cases member⟩
      simp [BoundedRun.initial, Nat.ne_of_gt positive]
  | snoc before made ih =>
      obtain ⟨closing, reported⟩ := ih
      exact reported.step before.consistent (before.verdict positive) positive made

/-- The notices of a bounded run account for every task. In whatever order the tasks complete, there
is one notice for each launch, and then one more when the run comes to a result. The tasks are
launched as `0`, `1`, `2` and so on, and the notice of a launch says how many were launched so far,
this one included, and not joined, which is at least one and at most `limit`. The last notice
(`Closing`) says that all tasks were completed, and then all of them were launched and joined; or
which task failed, and then those joined before it, this one, the detached and the abandoned ones
are all the tasks; or how many tasks that were launched were not joined when one panicked. A run
that cannot go on has its result. The run on the clock gives the notices of such a run. -/
theorem notices_account_for_every_task {limit : Nat} (positive : 1 ≤ limit)
    (tasks : List (Task V ε)) :
    (∀ moves run, Interleaved limit tasks moves run →
      ∃ closing, run.notices = (indices .launch moves).map (launchNotice moves) ++ closing ∧
        Closing limit tasks moves run closing ∧
        (∃ launched, indices .launch moves = List.range launched) ∧
        (∀ before index after, moves = before ++ .task .launch index :: after →
          indices .launch before = List.range index ∧
          joinsBefore moves index = (indices .join before).length ∧
          1 ≤ index + 1 - (indices .join before).length ∧
          index + 1 - (indices .join before).length ≤ limit) ∧
        (run.Over tasks → run.result ≠ none)) ∧
    ∀ drain, ∃ moves run, Interleaved limit tasks moves run ∧
      run.result = some (runLimited limit tasks drain).result ∧
      run.notices = Entry.notices (runLimited limit tasks drain).log := by
  refine ⟨?_, ?_⟩
  · intro moves run reached
    have consistent := reached.consistent
    obtain ⟨closing, reported⟩ := reached.reported positive
    refine ⟨closing, reported.notices, reported.closes, ⟨_, consistent.launches_eq_range⟩, ?_, ?_⟩
    · rintro before index after rfl
      obtain ⟨atLaunch, launched, earlier, made⟩ := reached.split
      have range := (earlier.consistent.step made).launches_before
      have fresh : .task .launch index ∉ before := by
        rw [← mem_indices, range]
        exact List.not_mem_range_self
      have joins := joinsBefore_eq fresh after
      have member : index ∈ indices .launch (before ++ .task .launch index :: after) :=
        mem_indices.mpr (List.mem_append_right _ List.mem_cons_self)
      obtain ⟨fewer, room⟩ := reported.inFlight index member
      rw [joins] at fewer room
      exact ⟨range, joins, by omega, room⟩
    · intro ended undecided
      obtain ⟨move, next, made⟩ := consistent.can_move undecided
      exact ended move next made
  · intro drain
    obtain ⟨moves, run, reached, result, notices, -⟩ := runLimited_interleaved limit tasks drain
    exact ⟨moves, run, reached, result, notices⟩

/-- The second of four tasks fails after the first one came to a value; the third one is in flight
then, and the last one was not launched. -/
theorem notices_of_four_tasks :
    let tasks : List (Task Nat String) :=
      [⟨0, .value 5⟩, ⟨0, .failure "no"⟩, ⟨0, .value 7⟩, ⟨0, .value 8⟩]
    let moves : List Move := [.task .launch 0, .task .launch 1, .task .start 0, .task .finish 0,
      .task .join 0, .task .launch 2, .task .start 1, .task .finish 1, .task .join 1]
    ∃ run closing, 1 ≤ 2 ∧ Interleaved 2 tasks moves run ∧
      run.notices = [.launching 0 1, .launching 1 2, .launching 2 2, .taskFailed 1 1 1] ∧
      run.notices = (indices .launch moves).map (launchNotice moves) ++ closing ∧
      Closing 2 tasks moves run closing := by
  intro tasks moves
  have reached : Interleaved 2 tasks moves _ :=
    ((((((((Interleaved.nil.snoc (.launch rfl rfl)).snoc (.launch rfl rfl)).snoc
      (.start 0 (by decide))).snoc (.finish 0 (by decide))).snoc
      (.join 0 ⟨rfl, rfl⟩ (by decide) rfl rfl)).snoc (.launch rfl rfl)).snoc
      (.start 1 (by decide))).snoc (.finish 1 (by decide))).snoc
      (.fail 1 ⟨rfl, rfl⟩ (by decide) rfl rfl)
  obtain ⟨closing, notices, closes, -⟩ :=
    (notices_account_for_every_task (by decide) tasks).1 moves _ reached
  exact ⟨_, closing, by decide, reached, rfl, notices, closes⟩

end Waypoint
