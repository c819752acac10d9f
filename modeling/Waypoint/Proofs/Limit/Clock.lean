import Waypoint.Proofs.Limit.Shown

/-!
# Bounded runs on the clock

What the clock lets happen in a bounded run is one of its interleavings: `runLimited` gives the
result of a sequence of possible moves, with the starts, the ends and the notices on record. Three
rounds for every task are enough for it (`Timeline.load`), so it never stops without a result.
-/

namespace Waypoint

variable {V ε : Type}

/-! ## Rounds -/

/-- How many rounds a turn may still cost: a task that starts may sleep and then gets in line
again. -/
def Turn.load : Turn V ε → Nat
  | start _ _ => 3
  | finish _ => 1

namespace Timeline

variable {timeline : Timeline V ε}

/-- A bound on the rounds that are left. -/
def load (pool : Pool V ε) (timeline : Timeline V ε) : Nat :=
  3 * pool.pending.length + (timeline.line.map Turn.load).sum + 2 * timeline.asleep.length

/-- A launch only moves a task to the line. -/
theorem load_refill (pool : Pool V ε) (timeline : Timeline V ε) :
    (refill pool timeline).2.load pool.refill = timeline.load pool := by
  have starts (launched : List (Nat × Task V ε)) :
      ((launched.map fun entry => Turn.start entry.1 entry.2).map Turn.load).sum =
        3 * launched.length := by
    induction launched with
    | nil => rfl
    | cons first rest ih =>
        simp only [List.map_cons, List.sum_cons, ih, Turn.load, List.length_cons]
        omega
  simp only [refill, load, Pool.refill, List.map_append, List.sum_append, starts,
    Pool.launchable, List.length_take, List.length_drop]
  omega

/-- Every turn brings the rounds to come down. -/
theorem load_takeTurn (pool : Pool V ε) {turn : Turn V ε} {rest : List (Turn V ε)}
    (line : timeline.line = turn :: rest) :
    ({ timeline with line := rest }.takeTurn turn).load pool < timeline.load pool := by
  cases turn with
  | finish timed =>
      simp only [load, takeTurn, finish, record, line, List.map_cons, List.sum_cons, Turn.load]
      omega
  | start index task =>
      simp only [load, takeTurn, start, line, List.map_cons, List.sum_cons, Turn.load]
      split
      · simp only [finish, record]
        omega
      · simp only [record, List.length_append, List.length_singleton]
        omega

theorem load_takeTurns_le (pool : Pool V ε) (count : Nat) (timeline : Timeline V ε) :
    (timeline.takeTurns count).load pool ≤ timeline.load pool := by
  induction count generalizing timeline with
  | zero => exact Nat.le_refl _
  | succ count ih =>
      cases line : timeline.line with
      | nil => simp [takeTurns, load, line]
      | cons turn rest =>
          rw [takeTurns_succ count line]
          exact (ih _).trans (load_takeTurn pool line).le

theorem load_takeTurns_lt (pool : Pool V ε) (count : Nat) (nonempty : timeline.line ≠ []) :
    (timeline.takeTurns (count + 1)).load pool < timeline.load pool := by
  obtain ⟨turn, rest, line⟩ := List.exists_cons_of_ne_nil nonempty
  rw [takeTurns_succ count line]
  exact (load_takeTurns_le pool count _).trans_lt (load_takeTurn pool line)

/-- When the clock moves, at least one task gets in line. -/
theorem load_advance (pool : Pool V ε) (nonempty : timeline.asleep ≠ []) :
    timeline.advance.load pool < timeline.load pool := by
  obtain ⟨first, rest, asleep⟩ := List.exists_cons_of_ne_nil nonempty
  have least : ∃ time, timeline.nextEnd? = some time := by
    simp [nextEnd?, asleep, List.min?_cons]
  obtain ⟨time, next⟩ := least
  obtain ⟨timed, member, rfl⟩ := List.mem_map.mp (List.min?_mem next)
  have ends (due : List (Timed V ε)) : ((due.map Turn.finish).map Turn.load).sum = due.length := by
    induction due with
    | nil => rfl
    | cons first rest ih =>
        simp only [List.map_cons, List.sum_cons, ih, Turn.load, List.length_cons]
        omega
  have due : 0 < (timeline.asleep.filter fun task => task.finish ≤ timed.finish).length :=
    List.length_pos_of_mem (List.mem_filter.mpr ⟨member, by simp⟩)
  have split := (filter_due_perm timed.finish timeline.asleep).length_eq
  rw [List.length_append] at split
  simp only [advance, next, advanceTo, load, List.map_append, List.sum_append, ends]
  omega

/-- Joins leave the tasks to come alone. -/
theorem load_joinEnded {list : List (Timed V ε)} {pool next : Pool V ε}
    {after : Timeline V ε} (joined : joinEnded list pool timeline = (.ok next, after)) :
    after.load next = timeline.load pool := by
  induction list generalizing pool timeline with
  | nil =>
      obtain ⟨same, rfl⟩ := Prod.mk.inj joined
      obtain rfl := Except.ok.inj same
      rfl
  | cons task rest ih =>
      simp only [joinEnded] at joined
      split at joined
      · cases (Prod.mk.inj joined).1
      · rename_i taken ok
        obtain ⟨value, -, rfl⟩ := Pool.join_eq_ok ok
        exact (ih joined).trans (load_refill _ timeline)

end Timeline

/-! ## Joins and rounds -/

/-- Where joins and rounds lead: as long as none fails the pool waits, otherwise the run has
failed. -/
def Led (limit : Nat) (tasks : List (Task V ε)) :
    Except (LimitError ε) (Pool V ε) × Timeline V ε → Prop
  | (.ok pool, timeline) => timeline.ended = [] ∧ ∃ moves run,
      Shown limit tasks timeline moves run ∧ run.pool = pool ∧ run.Waiting
  | (.error error, timeline) => ∃ moves run,
      Shown limit tasks timeline moves run ∧ run.result = some (.error error)

namespace Shown

variable {limit : Nat} {tasks : List (Task V ε)} {timeline : Timeline V ε} {moves : List Move}
  {run : BoundedRun V ε}

/-- The pool takes an ended task that has come to a value. -/
theorem join {task : Timed V ε} {rest : List (Timed V ε)} {pool : Pool V ε}
    (shown : Shown limit tasks timeline moves run) (waiting : run.Waiting)
    (ended : timeline.ended = task :: rest)
    (taken : run.pool.join task.index task.completion = .ok pool) :
    ∃ next, next.pool = pool ∧ next.result = none ∧
      Shown limit tasks { timeline with ended := rest } (moves ++ [.task .join task.index])
        next := by
  have indices : run.ended = task.index :: rest.map Timed.index := by
    rw [shown.ended, ended, List.map_cons]
  have here : task ∈ timeline.ended := ended ▸ List.mem_cons_self ..
  obtain ⟨source, known, comes⟩ := shown.endedKnown task here
  obtain ⟨value, -, rfl⟩ := Pool.join_eq_ok taken
  refine ⟨{ run with pool := _, ended := run.ended.erase task.index }, rfl, waiting.1, {
    reached := shown.reached.snoc
      (.join task.index waiting (by simp [indices]) known (comes ▸ taken))
    spawned := shown.spawned
    active := shown.active
    ended := by simp [indices]
    pendingKnown := shown.pendingKnown
    lineKnown := shown.lineKnown
    activeKnown := shown.activeKnown
    endedKnown := fun timed member =>
      shown.endedKnown timed (ended ▸ List.mem_cons_of_mem _ member)
    notices := shown.notices
    seen := by
      rw [ownMoves_append, ← shown.seen]
      simp [ownMoves, Move.isPool] }⟩

/-- The pool takes ended tasks until one fails. -/
theorem joinEnded (list : List (Timed V ε)) (timeline : Timeline V ε)
    (shown : Shown limit tasks { timeline with ended := list } moves run) (waiting : run.Waiting)
    (idle : timeline.ended = []) : Led limit tasks (Timeline.joinEnded list run.pool timeline) := by
  induction list generalizing timeline moves run with
  | nil =>
      refine ⟨idle, moves, run, ?_, rfl, waiting⟩
      rwa [← idle] at shown
  | cons task rest ih =>
      simp only [Timeline.joinEnded]
      cases taken : run.pool.join task.index task.completion with
      | error failure =>
          obtain ⟨error, notice⟩ := failure
          have ended : run.ended = task.index :: rest.map Timed.index := shown.ended
          obtain ⟨source, known, comes⟩ := shown.endedKnown task (List.mem_cons_self ..)
          refine ⟨_, _, {
            reached := shown.reached.snoc
              (.fail task.index waiting (by simp [ended]) known (comes ▸ taken))
            spawned := shown.spawned
            active := shown.active
            ended := by simp [ended]
            pendingKnown := shown.pendingKnown
            lineKnown := shown.lineKnown
            activeKnown := shown.activeKnown
            endedKnown := fun timed here => shown.endedKnown timed (List.mem_cons_of_mem _ here)
            notices := by simp [shown.notices, Timeline.record, Entry.notices, Entry.notice?]
            seen := by
              rw [ownMoves_append, Timeline.record, seenMoves_append, shown.seen]
              rfl }, rfl⟩
      | ok pool =>
          obtain ⟨left, rfl, undecided, after⟩ := shown.join waiting rfl taken
          obtain ⟨_, next, refilled, full, waiting⟩ := after.refill undecided
          have led := ih (Timeline.refill _ timeline).2 refilled waiting idle
          rwa [full] at led

/-- Where the line is empty and no ended task is left, a task in flight is asleep. -/
theorem asleep_of_running (shown : Shown limit tasks timeline moves run)
    (idle : timeline.ended = []) (line : timeline.line = []) (busy : run.pool.running ≠ []) :
    timeline.asleep ≠ [] := by
  intro asleep
  have inFlight := shown.reached.consistent.inFlight
  have active := shown.active
  simp only [line, asleep, List.filterMap_nil, List.append_nil, List.map_nil] at active
  rw [shown.ended, shown.spawned, active.eq_nil, idle, line] at inFlight
  exact busy inFlight.eq_nil

/-- Where no rounds are left nothing is in flight. -/
theorem running_of_load (shown : Shown limit tasks timeline moves run)
    (idle : timeline.ended = []) (none : timeline.load run.pool = 0) : run.pool.running = [] := by
  unfold Timeline.load at none
  have line : timeline.line = [] := by
    cases line : timeline.line with
    | nil => rfl
    | cons turn rest => cases turn <;> simp [line, Turn.load] at none
  by_contra busy
  have sleeps := List.length_pos_iff.mpr (shown.asleep_of_running idle line busy)
  omega

theorem advance (shown : Shown limit tasks timeline moves run) :
    Shown limit tasks timeline.advance moves run ∧ timeline.advance.ended = timeline.ended := by
  unfold Timeline.advance
  split
  · exact ⟨shown, rfl⟩
  · exact ⟨shown.advanceTo _, rfl⟩

/-- Turns are taken, and then the pool takes the tasks that have ended. -/
theorem takeBatch (shown : Shown limit tasks timeline moves run) (waiting : run.Waiting)
    (count : Nat) :
    Led limit tasks (Timeline.joinEnded (timeline.takeTurns count).ended run.pool
      { timeline.takeTurns count with ended := [] }) := by
  obtain ⟨_, next, ran, pool, result⟩ := shown.takeTurns count
  have still_waiting : next.Waiting := ⟨result.trans waiting.1, pool ▸ waiting.2⟩
  have led := joinEnded (timeline.takeTurns count).ended
    { timeline.takeTurns count with ended := [] } ran still_waiting rfl
  rwa [pool] at led

/-- Rounds lead to the end of the run, if there are enough of them. -/
theorem settle (shown : Shown limit tasks timeline moves run) (waiting : run.Waiting)
    (idle : timeline.ended = []) {rounds : Nat} (enough : timeline.load run.pool ≤ rounds) :
    Led limit tasks (Timeline.settle rounds run.pool timeline) ∧
      ∀ pool, (Timeline.settle rounds run.pool timeline).1 = .ok pool → pool.running = [] := by
  induction rounds generalizing timeline moves run with
  | zero =>
      refine ⟨⟨idle, moves, run, shown, rfl, waiting⟩, ?_⟩
      intro pool same
      obtain rfl := Except.ok.inj same
      exact shown.running_of_load idle (Nat.le_zero.mp enough)
  | succ rounds ih =>
      simp only [Timeline.settle]
      by_cases none : run.pool.running = []
      · rw [if_pos (by simp [none])]
        refine ⟨⟨idle, moves, run, shown, rfl, waiting⟩, ?_⟩
        intro pool same
        obtain rfl := Except.ok.inj same
        exact none
      · rw [if_neg (by simpa using none)]
        by_cases line : timeline.line = []
        · -- nothing stands in line, so the clock moves and a task gets there
          rw [if_pos (by simp [line])]
          have less := Timeline.load_advance run.pool (shown.asleep_of_running idle line none)
          obtain ⟨moved, same⟩ := shown.advance
          exact ih moved waiting (same.trans idle) (by omega)
        · -- a batch takes at least one turn, and the joins after it add none
          rw [if_neg (by simpa using line)]
          have less := Timeline.load_takeTurns_lt run.pool 60 line
          have led := shown.takeBatch waiting Timeline.batch
          split
          · rename_i error after joined
            rw [joined] at led
            exact ⟨led, fun pool same => by cases same⟩
          · rename_i taken after joined
            have load := Timeline.load_joinEnded joined
            rw [joined] at led
            obtain ⟨still_idle, _, last, shown, rfl, waiting⟩ := led
            have fewer : after.load last.pool < rounds + 1 := by
              rw [load]
              exact less.trans_le enough
            exact ih shown waiting still_idle (Nat.le_of_lt_succ fewer)

/-! ## After a failure -/

theorem finishAll (shown : Shown limit tasks timeline moves run) (due : List (Timed V ε))
    (others : List (Timed V ε)) (asleep : (due ++ others).Perm timeline.asleep) :
    ∃ moves next, next.result = run.result ∧
      Shown limit tasks
        { timeline with
          asleep := others
          ended := timeline.ended ++ due
          log := timeline.log ++ due.map fun task => .call (.ended task.index task.finish) }
        moves next := by
  induction due generalizing timeline moves run with
  | nil =>
      refine ⟨moves, run, rfl, ?_⟩
      exact {
        reached := shown.reached
        spawned := shown.spawned
        active := shown.active.trans
          ((asleep.symm.append_left (timeline.line.filterMap Turn.finish?)).map Timed.index)
        ended := by simp [shown.ended]
        pendingKnown := shown.pendingKnown
        lineKnown := shown.lineKnown
        activeKnown := fun timed member =>
          shown.activeKnown timed
            ((asleep.append_left (timeline.line.filterMap Turn.finish?)).subset member)
        endedKnown := by simpa using shown.endedKnown
        notices := by simpa using shown.notices
        seen := by simpa using shown.seen }
  | cons first rest ih =>
      have leaves : (first :: (timeline.line.filterMap Turn.finish? ++ (rest ++ others))).Perm
          (timeline.line.filterMap Turn.finish? ++ timeline.asleep) :=
        List.perm_middle.symm.trans (asleep.append_left _)
      obtain ⟨ended, _, result, finished⟩ := shown.finish first timeline.line (rest ++ others)
        first.finish rfl (fun _ _ member => member) leaves
      obtain ⟨moves, next, result', shown⟩ := ih finished (.refl _)
      refine ⟨moves, next, result'.trans result, ?_⟩
      simpa using shown

/-- What is seen in a drain is what tasks do on their own. -/
theorem drained (shown : Shown limit tasks timeline moves run) (drain : Nat) :
    ∃ moves next, Interleaved limit tasks moves next ∧ next.result = run.result ∧
      next.notices = Entry.notices (timeline.drained drain).log ∧
      ownMoves moves = seenMoves (timeline.drained drain).log := by
  unfold Timeline.drained
  split
  · exact ⟨moves, run, shown.reached, rfl, shown.notices, shown.seen⟩
  · obtain ⟨_, ran, shown, -, result⟩ := shown.takeTurns timeline.line.length
    let sooner (task : Timed V ε) : Bool := task.finish < timeline.now + boundedWait drain
    let asleep := (timeline.takeTurns timeline.line.length).asleep
    have split : (sortBy Timed.finish (asleep.filter sooner) ++
        asleep.filter fun task => !sooner task).Perm asleep :=
      ((sortBy_perm _ _).append_right _).trans (List.filter_append_perm sooner asleep)
    obtain ⟨moves, next, result', shown⟩ := shown.finishAll _ _ split
    exact ⟨moves, next, shown.reached, result'.trans result, shown.notices, shown.seen⟩

end Shown

/-- `RecordedAs report moves run`: the report of a run on the clock has the result of `run`, its
notices and the moves that its tasks make on their own. -/
def RecordedAs (report : LimitReport V ε) (moves : List Move) (run : BoundedRun V ε) : Prop :=
  run.result = some report.result ∧ run.notices = Entry.notices report.log ∧
    ownMoves moves = seenMoves report.log

theorem Led.recorded {limit : Nat} {tasks : List (Task V ε)}
    {outcome : Except (LimitError ε) (Pool V ε) × Timeline V ε} (led : Led limit tasks outcome)
    (empty : ∀ pool, outcome.1 = .ok pool → pool.running = []) (drain : Nat) :
    ∃ moves run, Interleaved limit tasks moves run ∧
      RecordedAs (.ofRounds tasks.length drain outcome) moves run := by
  obtain ⟨result | pool, timeline⟩ := outcome
  · obtain ⟨moves, run, shown, failed⟩ := led
    have resolved :
        Shown limit tasks (timeline.record (.call (.resolved timeline.now))) moves run :=
      { shown with
        notices := by simpa [Timeline.record] using shown.notices
        seen := by
          rw [Timeline.record, seenMoves_append, shown.seen]
          exact (List.append_nil _).symm }
    obtain ⟨moves, next, reached, same, notices, seen⟩ := resolved.drained drain
    exact ⟨moves, next, reached, same.trans failed, notices, seen⟩
  · obtain ⟨-, moves, run, shown, rfl, waiting⟩ := led
    refine ⟨_, _, shown.reached.snoc (.resolve waiting (empty _ rfl)), rfl, ?_, ?_⟩
    · simp [LimitReport.ofRounds, Timeline.record, shown.notices, Entry.notices, Entry.notice?]
    · rw [ownMoves_append, shown.seen]
      simp only [LimitReport.ofRounds, Timeline.record, seenMoves_append]
      rw [List.append_assoc]
      rfl

/-- Three rounds for every task lead to the end of a run. -/
theorem settle_led {limit : Nat} (positive : limit ≠ 0) (tasks : List (Task V ε)) :
    let begun := Timeline.refill (Pool.new limit tasks) Timeline.empty
    let outcome := Timeline.settle (3 * tasks.length) begun.1 begun.2
    Led limit tasks outcome ∧ ∀ pool, outcome.1 = .ok pool → pool.running = [] := by
  have undecided : (BoundedRun.initial limit tasks).result = none := by
    simp [BoundedRun.initial, positive]
  obtain ⟨_, run, shown, pool, waiting⟩ := (Shown.initial limit tasks).refill undecided
  have enough : (Timeline.refill (Pool.new limit tasks) Timeline.empty).2.load run.pool ≤
      3 * tasks.length := by
    rw [pool]
    refine (Timeline.load_refill (Pool.new limit tasks) Timeline.empty).trans_le ?_
    simp [Timeline.load, Timeline.empty, Pool.new]
  have settled := shown.settle waiting rfl enough
  rwa [pool] at settled

/-- Every run on the clock is an interleaving. -/
theorem runLimited_interleaved (limit : Nat) (tasks : List (Task V ε)) (drain : Nat) :
    ∃ moves run, Interleaved limit tasks moves run ∧
      RecordedAs (runLimited limit tasks drain) moves run := by
  by_cases zero : limit = 0
  · subst zero
    exact ⟨[], _, .nil, rfl, rfl, rfl⟩
  obtain ⟨led, empty⟩ := settle_led zero tasks
  rw [runLimited, if_neg zero]
  exact led.recorded empty drain

end Waypoint
