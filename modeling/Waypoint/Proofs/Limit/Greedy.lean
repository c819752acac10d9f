import Mathlib
import Waypoint.Proofs.Limit.Outcome
import Waypoint.Proofs.Limit.Steps
import Waypoint.Proofs.Limit.Timetable

/-!
# Bounded runs are greedy

A bounded run whose tasks all come to values keeps a greedy timetable. The invariant (`Clocked`)
says of a timeline between two steps what is on record so far, when the tasks in line start, and
when those that have started end; a join makes room for one task, which starts at the time of the
end that was joined.
-/

namespace Waypoint

/-! ## Starts and ends on record -/

/-- A task that starts, with the time. -/
def TaskEvent.start? : TaskEvent → Option (Nat × Nat)
  | started index time => some (index, time)
  | _ => none

/-- A task that ends, with the time. -/
def TaskEvent.end? : TaskEvent → Option (Nat × Nat)
  | ended index time => some (index, time)
  | _ => none

/-- The tasks on record that have started, in order, with their times. -/
def startsOn (log : List (Entry TaskEvent)) : List (Nat × Nat) :=
  (Entry.calls log).filterMap TaskEvent.start?

/-- The tasks on record that have ended, in order, with their times. -/
def endsOn (log : List (Entry TaskEvent)) : List (Nat × Nat) :=
  (Entry.calls log).filterMap TaskEvent.end?

@[simp] theorem startsOn_append (log more : List (Entry TaskEvent)) :
    startsOn (log ++ more) = startsOn log ++ startsOn more := by
  simp [startsOn, Entry.calls]

@[simp] theorem endsOn_append (log more : List (Entry TaskEvent)) :
    endsOn (log ++ more) = endsOn log ++ endsOn more := by
  simp [endsOn, Entry.calls]

@[simp] theorem startsOn_started (index time : Nat) :
    startsOn [.call (.started index time)] = [(index, time)] := rfl

@[simp] theorem startsOn_ended (index time : Nat) :
    startsOn [.call (.ended index time)] = [] := rfl

@[simp] theorem endsOn_started (index time : Nat) :
    endsOn [.call (.started index time)] = [] := rfl

@[simp] theorem endsOn_ended (index time : Nat) :
    endsOn [.call (.ended index time)] = [(index, time)] := rfl

@[simp] theorem startsOn_map_notice (notices : List Notice) :
    startsOn (notices.map .notice) = [] := by
  rw [startsOn, Entry.calls_map_notice, List.filterMap_nil]

@[simp] theorem endsOn_map_notice (notices : List Notice) : endsOn (notices.map .notice) = [] := by
  rw [endsOn, Entry.calls_map_notice, List.filterMap_nil]

theorem indices_ownMoves (phase : Phase) (own : ∀ index, (Move.task phase index).isPool = false)
    (moves : List Move) : indices phase (ownMoves moves) = indices phase moves := by
  rw [indices, ownMoves, List.filterMap_filter]
  refine List.filterMap_congr fun move _ => ?_
  cases move with
  | resolve => rfl
  | task other index =>
      by_cases same : other = phase
      · rw [same, own index]
        rfl
      · simp [Move.index?, same]

/-- The record of a run has the moves of its tasks. -/
theorem indices_start_eq {moves : List Move} {log : List (Entry TaskEvent)}
    (seen : ownMoves moves = seenMoves log) :
    indices .start moves = (startsOn log).map Prod.fst := by
  rw [← indices_ownMoves .start (fun _ => rfl), seen, indices, seenMoves, startsOn,
    List.filterMap_filterMap, List.map_filterMap]
  refine List.filterMap_congr fun event _ => ?_
  cases event <;> rfl

theorem indices_finish_eq {moves : List Move} {log : List (Entry TaskEvent)}
    (seen : ownMoves moves = seenMoves log) :
    indices .finish moves = (endsOn log).map Prod.fst := by
  rw [← indices_ownMoves .finish (fun _ => rfl), seen, indices, seenMoves, endsOn,
    List.filterMap_filterMap, List.map_filterMap]
  refine List.filterMap_congr fun event _ => ?_
  cases event <;> rfl

variable {V ε : Type}

/-! ## The invariant -/

/-- A task starts at a time that the ends so far allow: one of the first `limit` at once, and a
later one with the end that makes room for it. -/
structure Begins (limit : Nat) (ends : List (Nat × Nat)) (index time : Nat) : Prop where
  atOnce : index < limit → time = 0
  follows : limit ≤ index → ∃ earlier, ends[index - limit]? = some (earlier, time)

/-- A task has started and ends after its duration. -/
def Lasts (tasks : List (Task V ε)) (starts : List (Nat × Nat)) (index finish : Nat) : Prop :=
  ∃ begin task, (index, begin) ∈ starts ∧ tasks[index]? = some task ∧
    finish = begin + task.duration

theorem Begins.append {limit index time : Nat} {ends : List (Nat × Nat)}
    (begins : Begins limit ends index time) (more : List (Nat × Nat)) :
    Begins limit (ends ++ more) index time where
  atOnce := begins.atOnce
  follows late := by
    obtain ⟨earlier, found⟩ := begins.follows late
    exact ⟨earlier, List.getElem?_append_left (List.getElem?_eq_some_iff.mp found).1 ▸ found⟩

theorem Lasts.append {tasks : List (Task V ε)} {starts : List (Nat × Nat)} {index finish : Nat}
    (lasts : Lasts tasks starts index finish) (more : List (Nat × Nat)) :
    Lasts tasks (starts ++ more) index finish := by
  obtain ⟨begin, task, started, known, same⟩ := lasts
  exact ⟨begin, task, List.mem_append_left _ started, known, same⟩

/-- A timeline on which tasks start and end when they should. `joined` tasks were joined. -/
structure Clocked (limit : Nat) (tasks : List (Task V ε)) (joined : Nat)
    (timeline : Timeline V ε) : Prop where
  /-- Tasks start in the order of their launch. -/
  inOrder : ∃ launched, (startsOn timeline.log).map Prod.fst ++
    timeline.line.filterMap Turn.start? = List.range launched
  begins : ∀ index time, (index, time) ∈ startsOn timeline.log →
    Begins limit (endsOn timeline.log) index time
  /-- What stands in line starts at this time. -/
  beginsNow : ∀ index ∈ timeline.line.filterMap Turn.start?,
    Begins limit (endsOn timeline.log) index timeline.now
  lasts : ∀ timed ∈ timeline.line.filterMap Turn.finish? ++ timeline.asleep,
    Lasts tasks (startsOn timeline.log) timed.index timed.finish
  due : ∀ timed ∈ timeline.line.filterMap Turn.finish?, timed.finish = timeline.now
  sleeps : ∀ timed ∈ timeline.asleep, timeline.now ≤ timed.finish
  ended : ∀ index time, (index, time) ∈ endsOn timeline.log →
    Lasts tasks (startsOn timeline.log) index time ∧ time ≤ timeline.now
  sorted : (endsOn timeline.log).Pairwise fun first second => first.2 ≤ second.2
  /-- What is still to be joined has just ended. -/
  recent : ∃ earlier, earlier.length = joined ∧
    endsOn timeline.log = earlier ++ timeline.ended.map fun timed => (timed.index, timeline.now)
  /-- The clock has not moved yet, or it shows the end of a task. -/
  reached : timeline.now = 0 ∨ timeline.line.filterMap Turn.finish? ≠ [] ∨
    ∃ index, (index, timeline.now) ∈ endsOn timeline.log

namespace Clocked

theorem empty (limit : Nat) (tasks : List (Task V ε)) : Clocked limit tasks 0 Timeline.empty where
  inOrder := ⟨0, rfl⟩
  begins _ _ none := by cases none
  beginsNow _ none := by cases none
  lasts _ none := by cases none
  due _ none := by cases none
  sleeps _ none := by cases none
  ended _ _ none := by cases none
  sorted := .nil
  recent := ⟨[], rfl, rfl⟩
  reached := .inl rfl

variable {limit joined : Nat} {tasks : List (Task V ε)} {timeline : Timeline V ε}

theorem start (clocked : Clocked limit tasks joined timeline) {index : Nat} {task : Task V ε}
    {rest : List (Turn V ε)} (line : timeline.line = .start index task :: rest)
    (known : tasks[index]? = some task) :
    Clocked limit tasks joined
      { timeline with
        line := rest
        asleep := timeline.asleep ++ [⟨index, timeline.now + task.duration, task.completion⟩]
        log := timeline.log ++ [.call (.started index timeline.now)] } := by
  have starts : timeline.line.filterMap Turn.start? = index :: rest.filterMap Turn.start? := by
    rw [line]
    rfl
  have finishes : timeline.line.filterMap Turn.finish? = rest.filterMap Turn.finish? := by
    rw [line]
    rfl
  have beginsNow := clocked.beginsNow
  have lasts := clocked.lasts
  rw [starts] at beginsNow
  rw [finishes] at lasts
  exact {
    inOrder := by
      obtain ⟨launched, order⟩ := clocked.inOrder
      refine ⟨launched, ?_⟩
      rw [← order, starts]
      simp
    begins := by
      intro other time member
      simp only [startsOn_append, startsOn_started, endsOn_append, endsOn_started,
        List.append_nil, List.mem_append, List.mem_singleton] at member ⊢
      rcases member with earlier | last
      · exact clocked.begins other time earlier
      · obtain ⟨rfl, rfl⟩ := Prod.mk.inj last
        exact beginsNow _ (List.mem_cons_self ..)
    beginsNow := by
      intro other member
      simp only [endsOn_append, endsOn_started, List.append_nil]
      exact beginsNow other (List.mem_cons_of_mem _ member)
    lasts := by
      intro timed member
      rw [← List.append_assoc] at member
      simp only [startsOn_append, startsOn_started]
      rcases List.mem_append.mp member with earlier | last
      · exact (lasts timed earlier).append _
      · obtain rfl := List.mem_singleton.mp last
        exact ⟨timeline.now, task, by simp, known, rfl⟩
    due := finishes ▸ clocked.due
    sleeps := by
      intro timed member
      rcases List.mem_append.mp member with earlier | last
      · exact clocked.sleeps timed earlier
      · obtain rfl := List.mem_singleton.mp last
        exact Nat.le_add_right ..
    ended := by
      intro other time member
      simp only [endsOn_append, endsOn_started, List.append_nil] at member
      obtain ⟨lasts, past⟩ := clocked.ended other time member
      simp only [startsOn_append]
      exact ⟨lasts.append _, past⟩
    sorted := by simpa using clocked.sorted
    recent := by simpa using clocked.recent
    reached := by simpa [finishes] using clocked.reached }

/-- A task ends whose time is over, and is no longer in line or asleep. -/
theorem finish (clocked : Clocked limit tasks joined timeline) (timed : Timed V ε)
    (line : List (Turn V ε)) (asleep : List (Timed V ε)) (now : timed.finish = timeline.now)
    (member : timed ∈ timeline.line.filterMap Turn.finish? ++ timeline.asleep)
    (starts : line.filterMap Turn.start? = timeline.line.filterMap Turn.start?)
    (finishes : line.filterMap Turn.finish? ⊆ timeline.line.filterMap Turn.finish?)
    (sleepers : asleep ⊆ timeline.asleep) :
    Clocked limit tasks joined
      { timeline with
        line
        asleep
        ended := timeline.ended ++ [timed]
        log := timeline.log ++ [.call (.ended timed.index timeline.now)] } where
  inOrder := by simpa [starts] using clocked.inOrder
  begins := by
    intro index time here
    simp only [startsOn_append, startsOn_ended, List.append_nil] at here
    simp only [endsOn_append]
    exact (clocked.begins index time here).append _
  beginsNow := by
    intro index here
    simp only [endsOn_append]
    exact (clocked.beginsNow index (starts ▸ here)).append _
  lasts := by
    intro other here
    simp only [startsOn_append, startsOn_ended, List.append_nil]
    refine clocked.lasts other (List.mem_append.mpr ?_)
    exact (List.mem_append.mp here).imp (fun here => finishes here) fun here => sleepers here
  due := fun other here => clocked.due other (finishes here)
  sleeps := fun other here => clocked.sleeps other (sleepers here)
  ended := by
    intro index time here
    simp only [startsOn_append, startsOn_ended, List.append_nil, endsOn_append, endsOn_ended,
      List.mem_append, List.mem_singleton] at here ⊢
    rcases here with earlier | last
    · exact clocked.ended index time earlier
    · obtain ⟨rfl, rfl⟩ := Prod.mk.inj last
      exact ⟨now ▸ clocked.lasts timed member, Nat.le_refl _⟩
  sorted := by
    simp only [endsOn_append, endsOn_ended]
    refine List.pairwise_append.mpr ⟨clocked.sorted, List.pairwise_singleton _ _, ?_⟩
    intro earlier here last same
    obtain rfl := List.mem_singleton.mp same
    exact (clocked.ended earlier.1 earlier.2 here).2
  recent := by
    obtain ⟨earlier, length, ends⟩ := clocked.recent
    exact ⟨earlier, length, by simp [ends]⟩
  reached := .inr (.inr ⟨timed.index, by simp⟩)

/-- A turn is taken. -/
theorem takeTurn (clocked : Clocked limit tasks joined timeline)
    (known : ∀ index task, .start index task ∈ timeline.line → tasks[index]? = some task)
    {turn : Turn V ε} {rest : List (Turn V ε)} (line : timeline.line = turn :: rest) :
    Clocked limit tasks joined ({ timeline with line := rest }.takeTurn turn) := by
  cases turn with
  | finish timed =>
      have here : timed ∈ timeline.line.filterMap Turn.finish? := by
        rw [line]
        exact List.mem_cons_self ..
      refine clocked.finish timed rest timeline.asleep (clocked.due timed here)
        (List.mem_append_left _ here) (by rw [line]; rfl) ?_ (List.Subset.refl _)
      rw [line]
      exact List.subset_cons_self ..
  | start index task =>
      have begun := clocked.start line (known index task (line ▸ List.mem_cons_self ..))
      simp only [Timeline.takeTurn, Timeline.start]
      split
      · -- the task is asleep for no time
        rename_i instant
        have ended := begun.finish ⟨index, timeline.now + task.duration, task.completion⟩ rest
          timeline.asleep (by simp [instant]) (by simp) rfl (List.Subset.refl _)
          (List.subset_append_left ..)
        simpa [Timeline.finish, Timeline.record] using ended
      · exact begun

/-- The clock moves to the next end of a task. -/
theorem advanceTo (clocked : Clocked limit tasks joined timeline) (line : timeline.line = [])
    (ended : timeline.ended = []) {time : Nat} (next : timeline.nextEnd? = some time) :
    Clocked limit tasks joined (timeline.advanceTo time) := by
  obtain ⟨among, smallest⟩ := List.min?_eq_some_iff.mp next
  obtain ⟨first, member, time_eq⟩ := List.mem_map.mp among
  have least : ∀ timed ∈ timeline.asleep, time ≤ timed.finish := fun timed here =>
    smallest timed.finish (List.mem_map_of_mem here)
  have later : timeline.now ≤ time := time_eq ▸ clocked.sleeps first member
  let due := timeline.asleep.filter fun timed => timed.finish ≤ time
  have starts : (timeline.line ++ due.map Turn.finish).filterMap Turn.start? = [] := by
    simp [line, List.filterMap_map, Function.comp_def, Turn.start?]
  have finishes : (timeline.line ++ due.map Turn.finish).filterMap Turn.finish? = due := by
    simp [line, List.filterMap_map, Function.comp_def, Turn.finish?]
  exact {
    inOrder := by
      obtain ⟨launched, order⟩ := clocked.inOrder
      refine ⟨launched, ?_⟩
      rw [line] at order
      show _ ++ (timeline.line ++ due.map Turn.finish).filterMap Turn.start? = _
      rw [starts]
      exact order
    begins := clocked.begins
    beginsNow := by
      intro index here
      change index ∈ (timeline.line ++ due.map Turn.finish).filterMap Turn.start? at here
      rw [starts] at here
      cases here
    lasts := by
      intro timed here
      change timed ∈ (timeline.line ++ due.map Turn.finish).filterMap Turn.finish? ++ _ at here
      rw [finishes] at here
      refine clocked.lasts timed (List.mem_append_right _ ?_)
      rcases List.mem_append.mp here with here | here
      · exact (List.mem_filter.mp here).1
      · exact (List.mem_filter.mp here).1
    due := by
      intro timed here
      change timed ∈ (timeline.line ++ due.map Turn.finish).filterMap Turn.finish? at here
      rw [finishes] at here
      obtain ⟨asleep, past⟩ := List.mem_filter.mp here
      exact Nat.le_antisymm (of_decide_eq_true past) (least timed asleep)
    sleeps := by
      intro timed here
      exact least timed (List.mem_filter.mp here).1
    ended := by
      intro index ends here
      obtain ⟨lasts, past⟩ := clocked.ended index ends here
      exact ⟨lasts, past.trans later⟩
    sorted := clocked.sorted
    recent := by
      obtain ⟨earlier, length, ends⟩ := clocked.recent
      refine ⟨earlier, length, ?_⟩
      rw [ended] at ends
      show _ = earlier ++ timeline.ended.map _
      rw [ended]
      exact ends
    reached := by
      refine .inr (.inl ?_)
      show (timeline.line ++ due.map Turn.finish).filterMap Turn.finish? ≠ []
      rw [finishes]
      exact List.ne_nil_of_mem (List.mem_filter.mpr ⟨member, by simp [time_eq]⟩) }

/-- The pool takes a task that has just ended. -/
theorem join (clocked : Clocked limit tasks joined timeline) {task : Timed V ε}
    {rest : List (Timed V ε)} (ended : timeline.ended = task :: rest) :
    Clocked limit tasks (joined + 1) { timeline with ended := rest } ∧
      (endsOn timeline.log)[joined]? = some (task.index, timeline.now) := by
  obtain ⟨earlier, length, ends⟩ := clocked.recent
  rw [ended, List.map_cons] at ends
  refine ⟨{ clocked with recent := ⟨earlier ++ [(task.index, timeline.now)], ?_, ?_⟩ }, ?_⟩
  · simp [length]
  · rw [ends]
    simp
  · rw [ends, List.getElem?_append_right (by omega), length, Nat.sub_self]
    rfl

/-- The pool launches tasks that may begin at this time. -/
theorem refill (clocked : Clocked limit tasks joined timeline) {pool : Pool V ε}
    (order : ∃ launched, (startsOn timeline.log).map Prod.fst ++
      timeline.line.filterMap Turn.start? ++ pool.launchable.map Prod.fst = List.range launched)
    (begins : ∀ launched ∈ pool.launchable,
      Begins limit (endsOn timeline.log) launched.1 timeline.now) :
    Clocked limit tasks joined (Timeline.refill pool timeline).2 := by
  have starts : (pool.launchable.map fun first => Turn.start first.1 first.2).filterMap
      Turn.start? = pool.launchable.map Prod.fst := by
    simp [List.filterMap_map, Function.comp_def, Turn.start?, List.filterMap_eq_map']
  have finishes : (pool.launchable.map fun first => Turn.start first.1 first.2).filterMap
      Turn.finish? = [] := by
    simp [List.filterMap_map, Function.comp_def, Turn.finish?]
  exact {
    inOrder := by
      obtain ⟨launched, order⟩ := order
      exact ⟨launched, by simpa [Timeline.refill, starts] using order⟩
    begins := by simpa [Timeline.refill] using clocked.begins
    beginsNow := by
      intro index here
      simp only [Timeline.refill, List.filterMap_append, starts, List.mem_append, List.mem_map,
        endsOn_append, endsOn_map_notice, List.append_nil] at here ⊢
      rcases here with here | ⟨launched, here, rfl⟩
      · exact clocked.beginsNow index here
      · exact begins launched here
    lasts := by simpa [Timeline.refill, finishes] using clocked.lasts
    due := by simpa [Timeline.refill, finishes] using clocked.due
    sleeps := clocked.sleeps
    ended := by simpa [Timeline.refill] using clocked.ended
    sorted := by simpa [Timeline.refill] using clocked.sorted
    recent := by simpa [Timeline.refill] using clocked.recent
    reached := by simpa [Timeline.refill, finishes] using clocked.reached }

end Clocked

/-! ## Runs -/

/-- A pool that waits, with its timeline. -/
structure OnClock (limit : Nat) (tasks : List (Task V ε)) (state : Pool V ε × Timeline V ε) :
    Prop where
  shown : ∃ moves run, Shown limit tasks state.2 moves run ∧ run.pool = state.1 ∧ run.Waiting
  clocked : Clocked limit tasks state.1.joined.length state.2

section Runs

variable {limit : Nat} {tasks : List (Task V ε)} {moves : List Move} {run : BoundedRun V ε}

/-- A task that ends was launched, and no more than `limit` tasks are launched that have not
ended. -/
theorem Interleaved.finish_lt (reached : Interleaved limit tasks moves run) {position index : Nat}
    (found : (indices .finish moves)[position]? = some index) : index < limit + position := by
  induction reached with
  | nil => simp [indices] at found
  | @snoc moves move run next before made ih =>
      rw [indices_append] at found
      by_cases earlier : position < (indices .finish moves).length
      · rw [List.getElem?_append_left earlier] at found
        exact ih found
      have here : index ∈ indices .finish [move] := by
        rw [List.getElem?_append_right (by omega)] at found
        exact List.mem_of_getElem? found
      obtain rfl := List.mem_singleton.mp (mem_indices.mp here)
      cases made with
      | finish index member =>
          have consistent := before.consistent
          have launched : index ∈ indices .launch moves :=
            consistent.started.subset (List.mem_append_left _
              (consistent.finished.subset (List.mem_append_right _ member)))
          rw [consistent.launches_eq_range, List.mem_range] at launched
          have inFlight := consistent.joined.length_eq
          have taken := consistent.ended.length_eq
          have bound := consistent.bound
          simp only [List.length_append] at inFlight taken
          omega

namespace Shown

variable {timeline : Timeline V ε}

/-- The tasks that were launched have started or stand in line. -/
theorem launches_eq (shown : Shown limit tasks timeline moves run) {launched : Nat}
    (inOrder : (startsOn timeline.log).map Prod.fst ++
      timeline.line.filterMap Turn.start? = List.range launched) :
    indices .launch moves = List.range launched := by
  have consistent := shown.reached.consistent
  have started := consistent.started
  rw [indices_start_eq shown.seen, shown.spawned, inOrder] at started
  have length := started.length_eq
  rw [List.length_range] at length
  rw [consistent.launches_eq_range, ← length]

/-- What is launched after a join is the task for which the join makes room. -/
theorem launchable_of_join (shown : Shown limit tasks timeline moves run) (waiting : run.Waiting)
    (positive : 1 ≤ limit) {index : Nat} (member : index ∈ run.ended) {launched : Nat × Task V ε}
    (launches : launched ∈ (run.pool.leave index).launchable) :
    launched.1 = limit + run.pool.joined.length := by
  have consistent := shown.reached.consistent
  have limit_eq := consistent.limit_eq
  have inFlight := consistent.joined.length_eq
  have bound := consistent.bound
  have joined := congrArg List.length
    ((shown.reached.verdict positive).joined_of_undecided waiting.1)
  rw [List.length_append] at inFlight
  rw [List.length_map] at joined
  cases pending : run.pool.pending with
  | nil => simp [Pool.launchable, Pool.leave, pending] at launches
  | cons first rest =>
      have full : limit ≤ run.pool.running.length := by
        rcases Pool.launch?_eq_none_iff.mp waiting.2 with none | full
        · rw [pending] at none
          cases none
        · exact limit_eq ▸ full
      have free : (run.pool.leave index).free = 1 := by
        show run.pool.limit - (run.pool.running.erase index).length = 1
        rw [List.length_erase_of_mem (consistent.ended_inFlight member), limit_eq]
        omega
      have only : launched = first := by
        have among : launched ∈ run.pool.pending.take (run.pool.leave index).free := launches
        simpa [free, pending] using among
      -- the first pending task is the one that follows those launched
      have order := consistent.order
      have next : (indices .launch moves ++ run.pool.pending.map Prod.fst)[
          (indices .launch moves).length]? = some first.1 := by
        rw [List.getElem?_append_right (Nat.le_refl _), Nat.sub_self, pending]
        rfl
      rw [order] at next
      obtain ⟨_, same⟩ := List.getElem?_eq_some_iff.mp next
      rw [List.getElem_range] at same
      rw [only, ← same]
      omega

end Shown

namespace OnClock

variable {pool : Pool V ε} {timeline : Timeline V ε}

/-- A refill keeps the order in which tasks are launched. -/
theorem refill_inOrder {starts pending : List Nat} {count : Nat}
    (order : starts ++ pending = List.range count) (free : Nat) :
    ∃ launched, starts ++ pending.take free = List.range launched := by
  refine ⟨min (starts.length + free) count, ?_⟩
  rw [← List.take_length_add_append, order, List.take_range]

theorem step (positive : 1 ≤ limit) {state next : Pool V ε × Timeline V ε}
    (onClock : OnClock limit tasks state) (made : Timeline.Step state next) :
    OnClock limit tasks next := by
  obtain ⟨⟨moves, run, shown, same, waiting⟩, clocked⟩ := onClock
  cases made with
  | @turn pool timeline turn rest line =>
      obtain rfl : run.pool = pool := same
      obtain ⟨moves, left, taken, pool, result⟩ := shown.takeTurn line
      exact ⟨⟨moves, left, taken, pool, result.trans waiting.1, pool ▸ waiting.2⟩,
        clocked.takeTurn shown.lineKnown line⟩
  | @advance pool timeline time line ended next =>
      exact ⟨⟨moves, run, shown.advanceTo time, same, waiting⟩, clocked.advanceTo line ended next⟩
  | @join pool taken timeline task rest ended joined =>
      obtain rfl : run.pool = pool := same
      obtain ⟨left, rfl, undecided, after⟩ := shown.join waiting ended joined
      obtain ⟨moves, last, refilled, full, waits⟩ := after.refill undecided
      refine ⟨⟨moves, last, refilled, full, waits⟩, ?_⟩
      obtain ⟨launched, inOrder⟩ := clocked.inOrder
      obtain ⟨room, ends⟩ := clocked.join ended
      obtain ⟨value, -, same⟩ := Pool.join_eq_ok joined
      have member : task.index ∈ run.ended := by
        rw [shown.ended, ended]
        exact List.mem_cons_self ..
      have count : left.pool.joined.length = run.pool.joined.length + 1 := by
        rw [same]
        exact List.length_append
      have launchable : left.pool.launchable = (run.pool.leave task.index).launchable := by
        rw [same]
        rfl
      rw [← count] at room
      refine room.refill ?_ fun first here => ?_
      · have order := shown.reached.consistent.order
        rw [shown.launches_eq inOrder, ← inOrder] at order
        rw [launchable, Pool.launchable, List.map_take]
        exact refill_inOrder order _
      · rw [launchable] at here
        have follows := shown.launchable_of_join waiting positive member here
        constructor
        · intro early
          omega
        · intro late
          refine ⟨task.index, ?_⟩
          rw [follows, Nat.add_sub_cancel_left]
          exact ends

/-- Before the first step the first `limit` tasks are launched. -/
theorem initial (positive : 1 ≤ limit) (tasks : List (Task V ε)) :
    OnClock limit tasks (Timeline.refill (Pool.new limit tasks) Timeline.empty) := by
  have undecided : (BoundedRun.initial limit tasks).result = none := by
    simp [BoundedRun.initial, Nat.ne_of_gt positive]
  obtain ⟨moves, run, shown, pool, waiting⟩ := (Shown.initial limit tasks).refill undecided
  refine ⟨⟨moves, run, shown, pool, waiting⟩, ?_⟩
  have order : [] ++ (Pool.new limit tasks).pending.map Prod.fst = List.range tasks.length :=
    (Consistent.initial limit tasks).order
  refine (Clocked.empty limit tasks).refill ?_ fun first here => ⟨fun _ => rfl, fun late => ?_⟩
  · rw [Pool.launchable, List.map_take]
    exact refill_inOrder order _
  · -- no more tasks are launched than there are slots
    have among : first.1 ∈ (Pool.new limit tasks).launchable.map Prod.fst :=
      List.mem_map_of_mem here
    rw [List.nil_append] at order
    rw [Pool.launchable, List.map_take, order, List.take_range, List.mem_range] at among
    have free : (Pool.new limit tasks).free = limit := rfl
    omega

theorem steps (positive : 1 ≤ limit) {state next : Pool V ε × Timeline V ε}
    (onClock : OnClock limit tasks state) (made : Timeline.Steps state next) :
    OnClock limit tasks next := by
  induction made with
  | refl => exact onClock
  | tail _ made ih => exact ih.step positive made

end OnClock

/-! ## Timetables of runs -/

/-- How long a task takes. -/
def durationOf (tasks : List (Task V ε)) (index : Nat) : Nat :=
  (tasks[index]?.map Task.duration).getD 0

/-- The starts and the ends on record are those of a timetable. -/
structure Timetable.RecordedIn (table : Timetable) (tasks : List (Task V ε))
    (log : List (Entry TaskEvent)) : Prop where
  starts : startsOn log = (List.range tasks.length).map fun index => (index, table.start index)
  ends : endsOn log =
    table.order.map fun index => (index, table.finish (durationOf tasks) index)

/-- The timetable of a record. -/
def timetable (log : List (Entry TaskEvent)) (elapsed : Nat) : Timetable where
  start index := ((startsOn log)[index]?.map Prod.snd).getD 0
  order := (endsOn log).map Prod.fst
  elapsed := elapsed

variable {log : List (Entry TaskEvent)} {elapsed : Nat}

theorem startsOn_eq (all : (startsOn log).map Prod.fst = List.range tasks.length) :
    startsOn log =
      (List.range tasks.length).map fun index => (index, (timetable log elapsed).start index) := by
  have length : (startsOn log).length = tasks.length := by simpa using congrArg List.length all
  refine List.ext_getElem (by simp [length]) fun index here _ => ?_
  have key : (startsOn log)[index].1 = index := by
    have same := List.getElem_of_eq all (by simpa using here)
    simpa using same
  have start : (timetable log elapsed).start index = (startsOn log)[index].2 := by
    simp [timetable, List.getElem?_eq_getElem here]
  rw [List.getElem_map, List.getElem_range, start]
  exact Prod.ext key rfl

/-- A task on record ends at the time of the timetable. -/
theorem finish_eq (starts : startsOn log =
      (List.range tasks.length).map fun index => (index, (timetable log elapsed).start index))
    {index finish : Nat} (lasts : Lasts tasks (startsOn log) index finish) :
    (timetable log elapsed).finish (durationOf tasks) index = finish := by
  obtain ⟨begin, task, started, known, rfl⟩ := lasts
  rw [starts] at started
  obtain ⟨_, -, same⟩ := List.mem_map.mp started
  obtain ⟨rfl, rfl⟩ := Prod.mk.inj same
  simp [Timetable.finish, durationOf, known]

/-- A run without anything in flight has kept a greedy timetable. -/
theorem OnClock.greedy (positive : 1 ≤ limit) {pool : Pool V ε} {timeline : Timeline V ε}
    (onClock : OnClock limit tasks (pool, timeline)) (idle : pool.running = []) :
    (timetable timeline.log timeline.now).RecordedIn tasks timeline.log ∧
      (timetable timeline.log timeline.now).Greedy limit tasks.length (durationOf tasks) := by
  obtain ⟨⟨moves, run, shown, rfl, waiting⟩, clocked⟩ := onClock
  have consistent := shown.reached.consistent
  -- nothing is left to do, on the line or asleep
  have inFlight := consistent.inFlight
  rw [idle] at inFlight
  obtain ⟨ended, active, spawned⟩ : run.ended = [] ∧ run.active = [] ∧ run.spawned = [] := by
    simpa using inFlight.symm.eq_nil
  have launches : indices .launch moves = List.range tasks.length := by
    have order := consistent.order
    rcases Pool.launch?_eq_none_iff.mp waiting.2 with none | full
    · simpa [none] using order
    · rw [idle, consistent.limit_eq] at full
      cases positive.trans full
  have all : (startsOn timeline.log).map Prod.fst = List.range tasks.length := by
    obtain ⟨launched, inOrder⟩ := clocked.inOrder
    rw [← launches, shown.launches_eq inOrder, ← inOrder, ← shown.spawned, spawned,
      List.append_nil]
  have starts : startsOn timeline.log = (List.range tasks.length).map fun index =>
      (index, (timetable timeline.log timeline.now).start index) := startsOn_eq all
  have finishes (index time : Nat) (member : (index, time) ∈ endsOn timeline.log) :
      (timetable timeline.log timeline.now).finish (durationOf tasks) index = time :=
    finish_eq starts (clocked.ended index time member).1
  have ends : endsOn timeline.log = (timetable timeline.log timeline.now).order.map fun index =>
      (index, (timetable timeline.log timeline.now).finish (durationOf tasks) index) := by
    show _ = ((endsOn timeline.log).map Prod.fst).map _
    rw [List.map_map]
    refine ((List.map_congr_left fun entry member => ?_).trans (List.map_id _)).symm
    exact Prod.ext rfl (finishes entry.1 entry.2 member)
  have complete : ((endsOn timeline.log).map Prod.fst).Perm (List.range tasks.length) := by
    have finished := consistent.finished
    have started := consistent.started
    rw [active, List.append_nil] at finished
    rw [spawned, List.append_nil, launches] at started
    rw [← indices_finish_eq shown.seen]
    exact finished.trans started
  have begun (index : Nat) (inside : index < tasks.length) :
      Begins limit (endsOn timeline.log) index
        ((timetable timeline.log timeline.now).start index) := by
    refine clocked.begins index _ ?_
    rw [starts]
    exact List.mem_map_of_mem (List.mem_range.mpr inside)
  refine ⟨⟨starts, ends⟩, ?_⟩
  exact {
    all := complete
    sorted := by
      refine List.pairwise_map.mpr (clocked.sorted.imp_of_mem fun first second le => ?_)
      rwa [finishes _ _ first, finishes _ _ second]
    atOnce := fun index inside early => (begun index inside).atOnce early
    follows := by
      intro index inside late
      obtain ⟨earlier, found⟩ := (begun index inside).follows late
      refine ⟨earlier, by simp [timetable, found], ?_⟩
      exact (finishes earlier _ (List.mem_of_getElem? found)).symm
    launched := by
      intro position index found
      refine shown.reached.finish_lt ?_
      rw [indices_finish_eq shown.seen]
      exact found
    within := by
      intro index inside
      obtain ⟨⟨_, time⟩, member, rfl⟩ :=
        List.mem_map.mp (complete.mem_iff.mpr (List.mem_range.mpr inside))
      rw [finishes _ time member]
      exact (clocked.ended _ time member).2
    lasts := by
      have finished : timeline.line.filterMap Turn.finish? = [] := by
        have none := shown.active
        rw [active] at none
        have nothing := List.map_eq_nil_iff.mp none.symm.eq_nil
        exact (List.append_eq_nil_iff.mp nothing).1
      rcases clocked.reached with zero | due | ⟨index, member⟩
      · exact .inl zero
      · exact absurd finished due
      · refine .inr ⟨index, ?_, finishes index _ member⟩
        exact List.mem_range.mp (complete.subset (List.mem_map_of_mem member)) }

/-- A run that comes to values and keeps a timetable: its record shows the starts and the ends of
the timetable, and ends with the result. -/
structure LimitReport.Keeps (report : LimitReport V ε) (limit : Nat) (tasks : List (Task V ε))
    (table : Timetable) : Prop where
  succeeds : ∃ values, report.result = .ok values
  recorded : table.RecordedIn tasks report.log
  resolves : (Entry.calls report.log).getLast? = some (.resolved table.elapsed)
  greedy : table.Greedy limit tasks.length (durationOf tasks)

/-- A bounded run whose tasks all come to values keeps a greedy timetable. -/
theorem runLimited_keeps (positive : 1 ≤ limit)
    (values : ∀ task ∈ tasks, ∃ value, task.completion = .value value) (drain : Nat) :
    ∃ table, (runLimited limit tasks drain).Keeps limit tasks table := by
  have onClock := OnClock.initial positive tasks
  obtain ⟨led, empty⟩ := settle_led (Nat.ne_of_gt positive) tasks
  have report : runLimited limit tasks drain = .ofRounds tasks.length drain
      (Timeline.settle (3 * tasks.length) (Timeline.refill (Pool.new limit tasks) Timeline.empty).1
        (Timeline.refill (Pool.new limit tasks) Timeline.empty).2) :=
    if_neg (Nat.ne_of_gt positive)
  rw [report]
  generalize settled : Timeline.settle (3 * tasks.length) _ _ = outcome at led empty ⊢
  obtain ⟨error | pool, timeline⟩ := outcome
  · -- a failure would be that of a task without a value
    obtain ⟨moves, run, shown, failed⟩ := led
    rcases (shown.reached.verdict positive).outcome shown.reached.faithful failed with
      ⟨_, same, -⟩ | ⟨-, missing⟩
    · cases same
    · exact absurd values missing
  · have reached := onClock.steps positive (Timeline.settle_steps _ rfl settled)
    obtain ⟨⟨starts, ends⟩, greedy⟩ := reached.greedy positive (empty pool rfl)
    refine ⟨_, ⟨_, rfl⟩, ⟨?_, ?_⟩, ?_, greedy⟩
    · simp only [LimitReport.ofRounds, Timeline.record, startsOn_append]
      rw [← starts]
      exact (List.append_nil _).trans (List.append_nil _)
    · simp only [LimitReport.ofRounds, Timeline.record, endsOn_append]
      rw [← ends]
      exact (List.append_nil _).trans (List.append_nil _)
    · simp only [LimitReport.ofRounds, Timeline.record, Entry.calls_append]
      exact List.getLast?_concat

theorem map_durationOf (tasks : List (Task V ε)) :
    (List.range tasks.length).map (durationOf tasks) = tasks.map Task.duration := by
  refine List.ext_getElem (by simp) fun index here _ => ?_
  simp only [List.length_map, List.length_range] at here
  simp [durationOf, here]

end Runs

/-- Raising the limit never slows a bounded run down. With any limit a run whose tasks all come to
values keeps a timetable: its first `limit` tasks start at once, and the task at a later `index`
starts with the end at the position `index - limit`, counted from zero. Under a greater limit no
task starts or ends later, and the run does not take longer. With a slot for every task it takes the
longest of their times, and with one slot the sum. -/
theorem raising_the_limit_never_slows {V ε : Type} (tasks : List (Task V ε))
    (values : ∀ task ∈ tasks, ∃ value, task.completion = .value value) {limit more : Nat}
    (positive : 1 ≤ limit) (le : limit ≤ more) (drain drain' : Nat) :
    ∃ table other : Timetable,
      (runLimited limit tasks drain).Keeps limit tasks table ∧
      (runLimited more tasks drain').Keeps more tasks other ∧
      (∀ index < tasks.length, other.start index ≤ table.start index ∧
        other.finish (durationOf tasks) index ≤ table.finish (durationOf tasks) index) ∧
      other.elapsed ≤ table.elapsed ∧
      (tasks.length ≤ limit → table.elapsed = (tasks.map Task.duration).foldr max 0) ∧
      (limit = 1 → table.elapsed = (tasks.map Task.duration).sum) := by
  obtain ⟨table, keeps⟩ := runLimited_keeps positive values drain
  obtain ⟨other, relaxed⟩ := runLimited_keeps (positive.trans le) values drain'
  refine ⟨table, other, keeps, relaxed, fun index inside => ?_,
    keeps.greedy.elapsed_le relaxed.greedy le, fun room => ?_, ?_⟩
  · have sooner := keeps.greedy.start_le relaxed.greedy le inside
    exact ⟨sooner, Nat.add_le_add_right sooner _⟩
  · rw [keeps.greedy.elapsed_of_room room, map_durationOf]
  · rintro rfl
    rw [keeps.greedy.elapsed_of_one, map_durationOf]

/-- With three slots four tasks end in another order than with two, and the last one starts
earlier. -/
theorem third_slot_speeds_up_four_tasks :
    let tasks : List (Task Nat Unit) :=
      [⟨3, .value 5⟩, ⟨6, .value 6⟩, ⟨1, .value 7⟩, ⟨4, .value 8⟩]
    (∀ task ∈ tasks, ∃ value, task.completion = .value value) ∧ 1 ≤ 2 ∧ 2 ≤ 3 ∧
      endsOn (runLimited 2 tasks 0).log = [(0, 3), (2, 4), (1, 6), (3, 8)] ∧
      endsOn (runLimited 3 tasks 0).log = [(2, 1), (0, 3), (3, 5), (1, 6)] ∧
      ∃ table other : Timetable,
        (runLimited 2 tasks 0).Keeps 2 tasks table ∧ (runLimited 3 tasks 0).Keeps 3 tasks other ∧
        other.start 3 ≤ table.start 3 ∧ other.elapsed ≤ table.elapsed := by
  intro tasks
  have values : ∀ task ∈ tasks, ∃ value, task.completion = .value value := by simp [tasks]
  obtain ⟨table, other, keeps, relaxed, sooner, shorter, -⟩ :=
    raising_the_limit_never_slows tasks values (show 1 ≤ 2 by decide) (show 2 ≤ 3 by decide) 0 0
  exact ⟨values, by decide, by decide, by decide, by decide, table, other, keeps, relaxed,
    (sooner 3 (by decide)).1, shorter⟩

end Waypoint
