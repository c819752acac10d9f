import Waypoint.Limit.Timeline
import Waypoint.Proofs.Limit.Verdict

/-!
# Bounded runs as a timeline shows them

`Shown limit tasks timeline moves run` relates a timeline to an interleaving: the tasks that stand
in line, sleep or have ended are those of the run in the same phase, and the record holds the moves
that tasks make on their own. Everything that happens on a timeline is a sequence of such moves.
-/

namespace Waypoint

variable {V ε : Type}

def TaskEvent.move? : TaskEvent → Option Move
  | started index _ => some (.task .start index)
  | ended index _ => some (.task .finish index)
  | resolved _ => none

def Turn.start? : Turn V ε → Option Nat
  | start index _ => some index
  | finish _ => none

def Turn.finish? : Turn V ε → Option (Timed V ε)
  | start _ _ => none
  | finish task => some task

def seenMoves (log : List (Entry TaskEvent)) : List Move :=
  (Entry.calls log).filterMap TaskEvent.move?

/-- The moves that tasks make on their own, in order. -/
def ownMoves (moves : List Move) : List Move :=
  moves.filter fun move => !move.isPool

/-- A task on the clock comes to what the task of its index comes to. -/
def Timed.Known (tasks : List (Task V ε)) (timed : Timed V ε) : Prop :=
  ∃ task, tasks[timed.index]? = some task ∧ task.completion = timed.completion

/-- A run as a timeline shows it: the moves that led to it, and where its tasks stand. -/
structure Shown (limit : Nat) (tasks : List (Task V ε)) (timeline : Timeline V ε)
    (moves : List Move) (run : BoundedRun V ε) : Prop where
  reached : Interleaved limit tasks moves run
  spawned : run.spawned = timeline.line.filterMap Turn.start?
  active : run.active.Perm
    ((timeline.line.filterMap Turn.finish? ++ timeline.asleep).map Timed.index)
  ended : run.ended = timeline.ended.map Timed.index
  pendingKnown : ∀ index task, (index, task) ∈ run.pool.pending → tasks[index]? = some task
  lineKnown : ∀ index task, .start index task ∈ timeline.line → tasks[index]? = some task
  activeKnown : ∀ timed ∈ timeline.line.filterMap Turn.finish? ++ timeline.asleep,
    timed.Known tasks
  endedKnown : ∀ timed ∈ timeline.ended, timed.Known tasks
  notices : run.notices = Entry.notices timeline.log
  seen : ownMoves moves = seenMoves timeline.log

@[simp] theorem seenMoves_append (first second : List (Entry TaskEvent)) :
    seenMoves (first ++ second) = seenMoves first ++ seenMoves second := by
  simp [seenMoves, Entry.calls]

@[simp] theorem ownMoves_append (first second : List Move) :
    ownMoves (first ++ second) = ownMoves first ++ ownMoves second := by
  simp [ownMoves]

@[simp] theorem notices_append {κ : Type} (first second : List (Entry κ)) :
    Entry.notices (first ++ second) = Entry.notices first ++ Entry.notices second := by
  simp [Entry.notices]

@[simp] theorem notices_map_notice {κ : Type} (notices : List Notice) :
    Entry.notices (notices.map (Entry.notice (κ := κ))) = notices := by
  induction notices with
  | nil => rfl
  | cons first rest ih => exact congrArg (first :: ·) ih

@[simp] theorem notices_call {κ : Type} (call : κ) : Entry.notices [Entry.call call] = [] := rfl

@[simp] theorem seenMoves_map_notice (notices : List Notice) :
    seenMoves (notices.map Entry.notice) = [] := by
  induction notices with
  | nil => rfl
  | cons first rest ih => exact ih

namespace Shown

variable {limit : Nat} {tasks : List (Task V ε)} {timeline : Timeline V ε} {moves : List Move}
  {run : BoundedRun V ε}

theorem initial (limit : Nat) (tasks : List (Task V ε)) :
    Shown limit tasks Timeline.empty [] (.initial limit tasks) where
  reached := .nil
  spawned := rfl
  active := .refl _
  ended := rfl
  pendingKnown := by
    intro index task member
    obtain ⟨⟨found, position⟩, present, same⟩ := List.mem_map.mp member
    obtain ⟨rfl, rfl⟩ := Prod.mk.inj same
    exact List.mk_mem_zipIdx_iff_getElem?.mp present
  lineKnown := by intro index task member; cases member
  activeKnown := by intro timed member; cases member
  endedKnown := by intro timed member; cases member
  notices := rfl
  seen := rfl

/-! ## Launches -/

def launched (index : Nat) (task : Task V ε) (inFlight : Nat) (timeline : Timeline V ε) :
    Timeline V ε :=
  { timeline with
    line := timeline.line ++ [.start index task]
    log := timeline.log ++ [.notice (.launching index inFlight)] }

theorem launch (shown : Shown limit tasks timeline moves run) (undecided : run.result = none)
    {index : Nat} {task : Task V ε} {pool : Pool V ε}
    (launch : run.pool.launch? = some ((index, task), pool)) :
    ∃ next, next.pool = pool ∧ next.result = none ∧
      Shown limit tasks (launched index task (run.pool.running.length + 1) timeline)
        (moves ++ [.task .launch index]) next := by
  obtain ⟨rest, pending, room, rfl⟩ := Pool.launch?_eq_some launch
  have known : tasks[index]? = some task := shown.pendingKnown index task (by simp [pending])
  refine ⟨_, rfl, ?_, {
    reached := shown.reached.snoc (.launch undecided launch)
    spawned := by simp [launched, shown.spawned, Turn.start?]
    active := by simpa [launched, List.filterMap_cons, Turn.finish?] using shown.active
    ended := shown.ended
    pendingKnown := fun other task' member =>
      shown.pendingKnown other task' (by rw [pending]; exact .tail _ member)
    lineKnown := ?_
    activeKnown := by
      simpa [launched, List.filterMap_cons, Turn.finish?] using shown.activeKnown
    endedKnown := shown.endedKnown
    notices := by simp [launched, shown.notices, Entry.notices, Entry.notice?]
    seen := by
      rw [ownMoves_append, launched, seenMoves_append, shown.seen]
      rfl }⟩
  · exact undecided
  · intro other task' member
    rcases List.mem_append.mp member with earlier | last
    · exact shown.lineKnown other task' earlier
    · obtain ⟨rfl, rfl⟩ := Turn.start.inj (List.mem_singleton.mp last)
      exact known

/-- A refill is a sequence of launches, after which the pool waits. -/
theorem refill (shown : Shown limit tasks timeline moves run) (undecided : run.result = none) :
    ∃ moves next, Shown limit tasks (Timeline.refill run.pool timeline).2 moves next ∧
      next.pool = run.pool.refill ∧ next.Waiting := by
  induction size : run.pool.pending.length using Nat.strong_induction_on
    generalizing timeline moves run with | _ size ih => ?_
  subst size
  cases launch : run.pool.launch? with
  | none =>
      obtain ⟨launchable, same⟩ := Pool.refill_of_launch?_none launch
      refine ⟨moves, run, ?_, same.symm, undecided, launch⟩
      simpa [Timeline.refill, launchable, Pool.launchNotices] using shown
  | some first =>
      obtain ⟨⟨index, task⟩, pool⟩ := first
      obtain ⟨next, rfl, stillUndecided, after⟩ := shown.launch undecided launch
      obtain ⟨rest, pending, room, shrinks⟩ := Pool.launch?_eq_some launch
      have smaller : next.pool.pending.length < run.pool.pending.length := by
        rw [pending, shrinks, List.length_cons]
        exact Nat.lt_succ_self _
      obtain ⟨moves, last, shown, full, waiting⟩ := ih _ smaller after stillUndecided rfl
      obtain ⟨launchable, same, notices⟩ := Pool.refill_of_launch? launch
      refine ⟨moves, last, ?_, full.trans same.symm, waiting⟩
      simpa [Timeline.refill, launchable, notices, launched] using shown

/-! ## Turns -/

theorem start (shown : Shown limit tasks timeline moves run) {index : Nat} {task : Task V ε}
    {rest : List (Turn V ε)} (line : timeline.line = .start index task :: rest) :
    ∃ next, next.pool = run.pool ∧ next.result = run.result ∧
      Shown limit tasks
        { timeline with
          line := rest
          asleep := timeline.asleep ++
            [⟨index, timeline.now + task.duration, task.completion⟩]
          log := timeline.log ++ [.call (.started index timeline.now)] }
        (moves ++ [.task .start index]) next := by
  have spawned : run.spawned = index :: rest.filterMap Turn.start? := by
    rw [shown.spawned, line]
    rfl
  have known := shown.lineKnown index task (by simp [line])
  have same : timeline.line.filterMap Turn.finish? = rest.filterMap Turn.finish? := by
    rw [line]
    rfl
  have active := shown.active
  have activeKnown := shown.activeKnown
  rw [same] at active activeKnown
  refine ⟨{ run with spawned := run.spawned.erase index, active := run.active ++ [index] }, rfl,
    rfl, {
    reached := shown.reached.snoc (.start index (by simp [spawned]))
    spawned := by simp [spawned]
    active := ?_
    ended := shown.ended
    pendingKnown := shown.pendingKnown
    lineKnown := fun other task' member => shown.lineKnown other task' (by simp [line, member])
    activeKnown := ?_
    endedKnown := shown.endedKnown
    notices := by simpa using shown.notices
    seen := by
      rw [ownMoves_append, seenMoves_append, shown.seen]
      rfl }⟩
  · rw [← List.append_assoc, List.map_append]
    exact active.append_right [index]
  · intro timed member
    rw [← List.append_assoc] at member
    rcases List.mem_append.mp member with earlier | last
    · exact activeKnown timed earlier
    · obtain rfl := List.mem_singleton.mp last
      exact ⟨task, known, rfl⟩

theorem finish (shown : Shown limit tasks timeline moves run) (timed : Timed V ε)
    (line : List (Turn V ε)) (asleep : List (Timed V ε)) (time : Nat)
    (starts : line.filterMap Turn.start? = timeline.line.filterMap Turn.start?)
    (subset : ∀ index task, .start index task ∈ line → .start index task ∈ timeline.line)
    (leaves : (timed :: (line.filterMap Turn.finish? ++ asleep)).Perm
      (timeline.line.filterMap Turn.finish? ++ timeline.asleep)) :
    ∃ next, next.pool = run.pool ∧ next.result = run.result ∧
      Shown limit tasks
        { timeline with
          line
          asleep
          ended := timeline.ended ++ [timed]
          log := timeline.log ++ [.call (.ended timed.index time)] }
        (moves ++ [.task .finish timed.index]) next := by
  have active : run.active.Perm
      (timed.index :: (line.filterMap Turn.finish? ++ asleep).map Timed.index) :=
    shown.active.trans (leaves.map Timed.index).symm
  have member : timed.index ∈ run.active := active.mem_iff.mpr (List.mem_cons_self ..)
  have known := shown.activeKnown timed (leaves.subset (List.mem_cons_self ..))
  refine ⟨{ run with
      active := run.active.erase timed.index, ended := run.ended ++ [timed.index] }, rfl, rfl, {
    reached := shown.reached.snoc (.finish timed.index member)
    spawned := shown.spawned.trans starts.symm
    active := ((List.perm_cons_erase member).symm.trans active).cons_inv
    ended := by simp [shown.ended]
    pendingKnown := shown.pendingKnown
    lineKnown := fun index task here => shown.lineKnown index task (subset index task here)
    activeKnown := fun other here =>
      shown.activeKnown other (leaves.subset (List.mem_cons_of_mem _ here))
    endedKnown := ?_
    notices := by simpa using shown.notices
    seen := by
      rw [ownMoves_append, seenMoves_append, shown.seen]
      rfl }⟩
  intro other here
  rcases List.mem_append.mp here with earlier | last
  · exact shown.endedKnown other earlier
  · exact List.mem_singleton.mp last ▸ known

theorem takeTurn (shown : Shown limit tasks timeline moves run) {turn : Turn V ε}
    {rest : List (Turn V ε)} (line : timeline.line = turn :: rest) :
    ∃ moves next, Shown limit tasks ({ timeline with line := rest }.takeTurn turn) moves next ∧
      next.pool = run.pool ∧ next.result = run.result := by
  cases turn with
  | finish timed =>
      obtain ⟨next, pool, result, shown⟩ := shown.finish timed rest timeline.asleep timeline.now
        (by rw [line]; rfl) (fun index task member => by simp [line, member]) (by rw [line]; rfl)
      exact ⟨_, next, shown, pool, result⟩
  | start index task =>
      obtain ⟨begun, pool, result, shown⟩ := shown.start line
      simp only [Timeline.takeTurn, Timeline.start]
      split
      · -- The task is asleep for no time, and leaves again as the last one.
        rename_i instant
        obtain ⟨next, pool', result', shown⟩ := shown.finish
          ⟨index, timeline.now + task.duration, task.completion⟩ rest timeline.asleep timeline.now
          rfl (fun _ _ member => member) (by
            rw [← List.append_assoc]
            exact (List.perm_append_singleton _ _).symm)
        exact ⟨_, next, by simpa [Timeline.finish, Timeline.record] using shown,
          pool'.trans pool, result'.trans result⟩
      · exact ⟨_, begun, shown, pool, result⟩

end Shown

namespace Timeline

variable {timeline : Timeline V ε}

theorem takeTurn_line (turn : Turn V ε) (line : List (Turn V ε)) (timeline : Timeline V ε) :
    { timeline with line }.takeTurn turn = { timeline.takeTurn turn with line } := by
  cases turn with
  | finish timed => rfl
  | start index task =>
      simp only [takeTurn, start]
      split <;> rfl

/-- Whatever sleeps wakes by a time or sleeps on. -/
theorem filter_due_perm (time : Nat) (asleep : List (Timed V ε)) :
    ((asleep.filter fun timed => timed.finish ≤ time) ++
      asleep.filter fun timed => time < timed.finish).Perm asleep := by
  have later : (fun timed : Timed V ε => decide (time < timed.finish)) =
      fun timed => !decide (timed.finish ≤ time) := by
    funext timed
    rw [← decide_not]
    exact decide_eq_decide.mpr Nat.not_le.symm
  rw [later]
  exact List.filter_append_perm _ asleep

theorem takeTurns_succ (count : Nat) {turn : Turn V ε} {rest : List (Turn V ε)}
    (line : timeline.line = turn :: rest) :
    timeline.takeTurns (count + 1) =
      ({ timeline with line := rest }.takeTurn turn).takeTurns count := by
  simp only [takeTurns, line, List.take_succ_cons, List.drop_succ_cons, List.foldl_cons,
    takeTurn_line]

end Timeline

namespace Shown

variable {limit : Nat} {tasks : List (Task V ε)} {timeline : Timeline V ε} {moves : List Move}
  {run : BoundedRun V ε}

theorem takeTurns (shown : Shown limit tasks timeline moves run) (count : Nat) :
    ∃ moves next, Shown limit tasks (timeline.takeTurns count) moves next ∧
      next.pool = run.pool ∧ next.result = run.result := by
  induction count generalizing timeline moves run with
  | zero => exact ⟨moves, run, shown, rfl, rfl⟩
  | succ count ih =>
      cases line : timeline.line with
      | nil =>
          refine ⟨moves, run, ?_, rfl, rfl⟩
          have same : timeline.takeTurns (count + 1) = timeline := by
            obtain ⟨now, list, asleep, ended, log⟩ := timeline
            obtain rfl := line
            rfl
          rwa [same]
      | cons turn rest =>
          obtain ⟨_, next, taken, pool, result⟩ := shown.takeTurn line
          obtain ⟨moves, last, shown, pool', result'⟩ := ih taken
          rw [Timeline.takeTurns_succ count line]
          exact ⟨moves, last, shown, pool'.trans pool, result'.trans result⟩

/-- When the clock moves, tasks that were asleep get in line, and nothing else happens. -/
theorem advanceTo (shown : Shown limit tasks timeline moves run) (time : Nat) :
    Shown limit tasks (timeline.advanceTo time) moves run := by
  let due := timeline.asleep.filter fun timed => timed.finish ≤ time
  have woken : (timeline.line ++ due.map Turn.finish).filterMap Turn.finish? =
      timeline.line.filterMap Turn.finish? ++ due := by
    simp [List.filterMap_map, Function.comp_def, Turn.finish?]
  have starts : (timeline.line ++ due.map Turn.finish).filterMap Turn.start? =
      timeline.line.filterMap Turn.start? := by
    simp [List.filterMap_map, Function.comp_def, Turn.start?]
  have regrouped : (timeline.line.filterMap Turn.finish? ++ due ++
      timeline.asleep.filter fun timed => time < timed.finish).Perm
        (timeline.line.filterMap Turn.finish? ++ timeline.asleep) := by
    rw [List.append_assoc]
    exact (Timeline.filter_due_perm time timeline.asleep).append_left _
  exact {
    reached := shown.reached
    spawned := by
      rw [shown.spawned]
      exact starts.symm
    active := by
      rw [← woken] at regrouped
      exact shown.active.trans (regrouped.map Timed.index).symm
    ended := shown.ended
    pendingKnown := shown.pendingKnown
    lineKnown := fun index task member => by
      rcases List.mem_append.mp member with here | due
      · exact shown.lineKnown index task here
      · obtain ⟨_, _, other⟩ := List.mem_map.mp due
        cases other
    activeKnown := fun timed member => by
      rw [← woken] at regrouped
      exact shown.activeKnown timed (regrouped.subset member)
    endedKnown := shown.endedKnown
    notices := shown.notices
    seen := shown.seen }

end Shown

end Waypoint
