import Mathlib
import Waypoint.Fold.Course
import Waypoint.Fold.Sequence
import Waypoint.Proofs.Fold.Visits
import Waypoint.Proofs.Future.Starts

/-!
# Steps one after another

Whatever its callbacks answer, a fold has at most one step pending. What is on record of its steps
is the record of steps back to back, without the end of the one that is pending
(`Fold.Progress.Sequential`): a start is followed by the end of the same step, and an end by the
start of the next one at the same time (`Fold.TakesTurns`). The folds that are run, and the two uses
of a fold over a whole list, are courses of this kind.
-/

namespace Waypoint

namespace Fold

variable {α β ε : Type}

/-! ## Records of steps -/

/-- What may come after an event: after a start the end of the same step, and after an end the
start of the next one, at the same time. -/
inductive Follows : CallEvent α → CallEvent α → Prop
  | ends (element : α) {start finish : Nat} (later : start ≤ finish) :
      Follows (.started element start) (.ended element finish)
  | handsOver (element next : α) (time : Nat) :
      Follows (.ended element time) (.started next time)

/-- Steps begin at the time `begin` and take turns from then on. -/
structure TakesTurns (begin : Nat) (events : List (CallEvent α)) : Prop where
  begins : ∀ first, events.head? = some first → ∃ element, first = .started element begin
  chain : events.IsChain Follows

/-- The record of steps from a time on, each of them with its waiting time. -/
def backToBack : (now : Nat) → List (α × Nat) → List (CallEvent α)
  | _, [] => []
  | now, (element, wait) :: rest =>
    .started element now :: .ended element (now + wait) :: backToBack (now + wait) rest

/-- The time that steps take together. -/
def total (steps : List (α × Nat)) : Nat :=
  (steps.map Prod.snd).sum

theorem total_append (steps more : List (α × Nat)) :
    total (steps ++ more) = total steps + total more := by
  simp [total]

theorem begun_append (moves more : List (Move α β ε)) :
    begun (moves ++ more) = begun moves ++ begun more :=
  List.filterMap_append

theorem begun_concat_of_none {moves : List (Move α β ε)} {move : Move α β ε}
    (none : move.begun? = none) : begun (moves ++ [move]) = begun moves := by
  rw [begun_append, begun, begun, List.filterMap_cons_none none]
  exact List.append_nil _

theorem backToBack_append (now : Nat) (steps more : List (α × Nat)) :
    backToBack now (steps ++ more) =
      backToBack now steps ++ backToBack (now + total steps) more := by
  induction steps generalizing now with
  | nil => rfl
  | cons step rest ih =>
      obtain ⟨element, wait⟩ := step
      simp only [List.cons_append, backToBack, ih, total, List.map_cons, List.sum_cons,
        Nat.add_assoc]

theorem starts_backToBack (now : Nat) (steps : List (α × Nat)) :
    (backToBack now steps).filterMap CallEvent.started? = steps.map Prod.fst := by
  induction steps generalizing now with
  | nil => rfl
  | cons step rest ih => exact congrArg (step.1 :: ·) (ih (now + step.2))

theorem takesTurns_backToBack (now : Nat) (steps : List (α × Nat)) :
    TakesTurns now (backToBack now steps) := by
  induction steps generalizing now with
  | nil => exact ⟨fun _ head => (by cases head), .nil⟩
  | cons step rest ih =>
      obtain ⟨element, wait⟩ := step
      obtain ⟨begins, chain⟩ := ih (now + wait)
      refine ⟨fun first head => ⟨element, (Option.some.inj head).symm⟩, ?_⟩
      refine .cons_cons (.ends element (Nat.le_add_right now wait)) (.cons chain ?_)
      intro next head
      obtain ⟨other, rfl⟩ := begins next head
      exact .handsOver element other (now + wait)

/-- Steps have taken turns at any time before. -/
theorem TakesTurns.of_append {begin : Nat} {events later : List (CallEvent α)}
    (turns : TakesTurns begin (events ++ later)) : TakesTurns begin events where
  begins := by
    intro first head
    refine turns.begins first ?_
    rw [List.head?_append, head, Option.some_or]
  chain := turns.chain.left_of_append

/-! ## Courses -/

namespace Progress

variable {sequence : List α} {moves : List (Move α β ε)} {move : Move α β ε}
  {progress next : Progress α β ε}

/-- The end of the pending step. -/
def due (progress : Progress α β ε) : List (CallEvent α) :=
  match progress.state with
  | .stepping _ element deadline => [.ended element deadline]
  | _ => []

/-- The time until which the clock may move. -/
def limit (progress : Progress α β ε) : Nat :=
  match progress.state with
  | .stepping _ _ deadline => deadline
  | _ => progress.now

/-- The steps have been taken one after another: with the end of the pending one their record is
that of steps back to back. -/
structure Sequential (moves : List (Move α β ε)) (progress : Progress α β ε) : Prop where
  record : progress.steps ++ progress.due = backToBack 0 (begun moves)
  time : progress.limit = total (begun moves)

theorem steps_append (state : State α β ε) (now : Nat) (log more : List (Entry (Event α β))) :
    steps ⟨state, now, log ++ more⟩ =
      steps ⟨state, now, log⟩ ++ (Entry.calls more).filterMap Event.step? := by
  simp [steps, Entry.calls]

theorem due_afterStep (index now : Nat) (result : Except ε β)
    (log : List (Entry (Event α β))) :
    due ⟨.afterStep index result, now, log⟩ = [] ∧
      limit ⟨.afterStep index result, now, log⟩ = now := by
  cases result <;> exact ⟨rfl, rfl⟩

/-- A move that begins no step changes neither the record with the pending end nor the time until
which the clock may move. -/
theorem Sequential.idle (sequential : progress.Sequential moves) (none : move.begun? = none)
    (record : next.steps ++ next.due = progress.steps ++ progress.due)
    (time : next.limit = progress.limit) : next.Sequential (moves ++ [move]) := by
  constructor
  · rw [record, begun_concat_of_none none, sequential.record]
  · rw [time, begun_concat_of_none none, sequential.time]

/-- No move takes a step while another one is pending. -/
theorem Sequential.step (sequential : progress.Sequential moves)
    (made : progress.Step sequence move next) : next.Sequential (moves ++ [move]) := by
  cases made with
  | @begin index element accumulator now log inside wait =>
      -- nothing is pending, and the clock stands where the steps so far have ended
      have ended : now = total (begun moves) := sequential.time
      have same : steps ⟨.ready index accumulator, now, log⟩ = backToBack 0 (begun moves) :=
        (List.append_nil _).symm.trans sequential.record
      have all : begun (moves ++ [.begin element wait]) = begun moves ++ [(element, wait)] :=
        begun_append moves [.begin element wait]
      constructor
      · rw [all, backToBack_append, ← ended, ← same, Nat.zero_add, steps_append, List.append_assoc]
        rfl
      · rw [all, total_append, ← ended]
        rfl
  | pass time later inTime => exact sequential.idle rfl rfl rfl
  | @finish index element now log outcome =>
      obtain ⟨none, still⟩ := due_afterStep index now outcome.result
        (log ++ .call (.step (.ended element now)) :: outcome.log.map .notice)
      refine sequential.idle rfl ?_ still
      rw [none, List.append_nil, steps_append]
      show _ ++ CallEvent.ended element now ::
        (Entry.calls (outcome.log.map Entry.notice)).filterMap _ = _
      rw [Entry.calls_map_notice]
      rfl
  | goOn | stop | goTo _ =>
      refine sequential.idle rfl ?_ rfl
      rw [steps_append]
      exact congrArg (· ++ _) (List.append_nil _)
  | leave outside => exact sequential.idle rfl rfl rfl

end Progress

namespace Course

variable {sequence : List α} {start : Nat} {initial accumulator : β} {moves : List (Move α β ε)}
  {move : Move α β ε} {progress : Progress α β ε} {index now : Nat} {log : List (Entry (Event α β))}

theorem sequential (course : Course sequence start initial moves progress) :
    progress.Sequential moves := by
  induction course with
  | nil => exact ⟨rfl, rfl⟩
  | snoc before made ih => exact ih.step made

/-- The last move was possible where the moves before it led. -/
theorem last (course : Course sequence start initial (moves ++ [move]) progress) :
    ∃ earlier, Course sequence start initial moves earlier ∧
      earlier.Step sequence move progress := by
  generalize whole : moves ++ [move] = all at course
  cases course with
  | nil => simp at whole
  | snoc before made =>
      obtain ⟨rfl, rfl⟩ := List.append_singleton_inj.mp whole
      exact ⟨_, before, made⟩

/-- Nothing happens after a step that fails. -/
theorem eq_nil_of_failure {before after : List (Move α β ε)} {outcome : Recorded ε Notice β}
    {error : ε} (fails : outcome.result = .error error)
    (course : Course sequence start initial (before ++ .finish outcome :: after) progress) :
    after = [] := by
  generalize whole : before ++ .finish outcome :: after = all at course
  induction course generalizing after with
  | nil => simp at whole
  | @snoc moves move progress next reached made ih =>
      rcases List.eq_nil_or_concat after with rfl | ⟨front, last, rfl⟩
      · rfl
      · rw [List.concat_eq_append, ← List.cons_append, ← List.append_assoc] at whole
        obtain ⟨rfl, -⟩ := List.append_inj' whole rfl
        obtain rfl : front = [] := ih rfl
        -- the fold was over with the failure, and no move is possible from there
        obtain ⟨earlier, -, finished⟩ := reached.last
        cases finished with
        | finish outcome =>
            rw [fails] at made
            cases made

end Course

/-! ## Runs -/

/-- Some course leads to `progress` on which `steps` steps have begun, and each of them waits as its
number says. -/
def Reaches (waits : Nat → Nat) (sequence : List α) (start : Nat) (initial : β) (steps : Nat)
    (progress : Progress α β ε) : Prop :=
  ∃ moves, Course sequence start initial moves progress ∧
    (begun moves).map Prod.snd = (List.range steps).map waits

namespace Reaches

variable {fold : Fold α β ε} {waits : Nat → Nat} {sequence : List α} {start steps : Nat}
  {initial : β} {progress next : Progress α β ε} {index now : Nat} {accumulator left : β}
  {log : List (Entry (Event α β))} {visit : Visit α β} {run : Run α β ε}

theorem nil (waits : Nat → Nat) (sequence : List α) (start : Nat) (initial : β) :
    Reaches (ε := ε) waits sequence start initial 0 ⟨.ready start initial, 0, []⟩ :=
  ⟨[], .nil, rfl⟩

theorem idle (reaches : Reaches waits sequence start initial steps progress) {move : Move α β ε}
    (made : progress.Step sequence move next) (none : move.begun? = none) :
    Reaches waits sequence start initial steps next := by
  obtain ⟨moves, course, waited⟩ := reaches
  refine ⟨_, course.snoc made, ?_⟩
  rw [begun_concat_of_none none]
  exact waited

/-- A step is taken, whatever it comes to and however long it waits. -/
theorem step
    (reaches : Reaches (ε := ε) waits sequence start initial steps
      ⟨.ready index accumulator, now, log⟩)
    {element : α} (inside : sequence[index]? = some element) (outcome : Recorded ε Notice β) :
    Reaches waits sequence start initial (steps + 1)
      ⟨.afterStep index outcome.result, now + waits steps,
        log ++ stepRecord index element now (now + waits steps) outcome.log⟩ := by
  obtain ⟨moves, course, waited⟩ := reaches
  have begins : Reaches (ε := ε) waits sequence start initial (steps + 1)
      ⟨.stepping index element (now + waits steps), now,
        log ++ [.notice (.foldStep index), .call (.step (.started element now))]⟩ := by
    refine ⟨_, course.snoc (.begin inside (waits steps)), ?_⟩
    rw [begun_append, List.map_append, List.range_succ, List.map_append]
    exact congrArg (· ++ [waits steps]) waited
  have record : log ++ stepRecord index element now (now + waits steps) outcome.log =
      log ++ [.notice (.foldStep index), .call (.step (.started element now))] ++
        .call (.step (.ended element (now + waits steps))) :: outcome.log.map .notice := by
    simp [stepRecord]
  have waited : Reaches (ε := ε) waits sequence start initial (steps + 1)
      ⟨.stepping index element (now + waits steps), now + waits steps,
        log ++ [.notice (.foldStep index), .call (.step (.started element now))]⟩ := by
    by_cases instant : waits steps = 0
    · simpa only [instant, Nat.add_zero] using begins
    · exact begins.idle (.pass (now + waits steps) (by omega) (Nat.le_refl _)) rfl
  rw [record]
  exact waited.idle (.finish outcome) rfl

/-- After a visit on which the fold was told to go on it comes to the next index. -/
theorem leads (reaches : Reaches (ε := ε) waits sequence start initial visit.round
      ⟨.ready visit.index visit.accumulator, visit.time, log⟩)
    (inside : sequence[visit.index]? = some visit.element)
    (passed : (visit.step fold).result = .ok left)
    (told : fold.goesOn visit.round visit.index left = true) :
    Reaches (ε := ε) waits sequence start initial (visit.round + 1)
      ⟨.ready (fold.next visit.index) left, visit.finish waits,
        log ++ visit.record fold waits⟩ := by
  have visited := reaches.step inside (visit.step fold)
  rw [passed] at visited
  have moved := (visited.idle .goOn rfl).idle (.goTo (fold.next visit.index)) rfl
  simpa [Visit.record, Visit.finish, passed, told] using moved

/-- A visit with which a run ends is the end of a course. -/
theorem ends (reaches : Reaches (ε := ε) waits sequence start initial visit.round
      ⟨.ready visit.index visit.accumulator, visit.time, log⟩)
    (inside : sequence[visit.index]? = some visit.element)
    (ends : visit.Ends fold waits sequence run) (record : run.log = visit.record fold waits) :
    Reaches waits sequence start initial (visit.round + 1)
      ⟨.finished run.result, run.elapsed, log ++ run.log⟩ := by
  have visited := reaches.step inside (visit.step fold)
  obtain ⟨elapsed, result, stops⟩ := ends
  rw [elapsed, record]
  cases comes : (visit.step fold).result with
  | error error =>
      rw [comes] at result visited
      rw [result]
      simpa [Visit.record, Visit.finish, State.afterStep, comes] using visited
  | ok left =>
      rw [comes] at result
      rw [result]
      cases told : fold.goesOn visit.round visit.index left with
      | false =>
          rw [comes] at visited
          simpa [Visit.record, Visit.finish, comes, told] using visited.idle .stop rfl
      | true =>
          -- the fold was told to go on, so it is the following index that is outside
          have outside : sequence[fold.next visit.index]? = none := by
            rcases stops left result with refused | outside
            · cases refused.symm.trans told
            · exact List.getElem?_eq_none outside
          exact (reaches.leads inside comes told).idle (.leave outside) rfl

end Reaches

variable {fold : Fold α β ε} {waits : Nat → Nat} {sequence : List α} {start : Nat} {initial : β}

/-- From where a course has led, a fold that is run goes on as a course. -/
theorem runFrom_reaches {rounds round index now : Nat} {accumulator : β} {run : Run α β ε}
    {log : List (Entry (Event α β))}
    (ended : fold.runFrom waits sequence rounds round index now accumulator = some run)
    (reaches : Reaches (ε := ε) waits sequence start initial round
      ⟨.ready index accumulator, now, log⟩) :
    ∃ steps, Reaches waits sequence start initial steps
      ⟨.finished run.result, run.elapsed, log ++ run.log⟩ := by
  induction rounds using Nat.strong_induction_on generalizing round index now accumulator run log
    with | _ rounds ih => ?_
  rcases runFrom_eq_some ended with
    ⟨outside, rfl⟩ |
    ⟨element, inside, ⟨ends, record⟩ | ⟨fewer, left, later, rfl, passed, told, next, rfl⟩⟩
  · refine ⟨round, ?_⟩
    rw [List.append_nil]
    exact reaches.idle (.leave (List.getElem?_eq_none outside)) rfl
  · exact ⟨_, reaches.ends inside ends record⟩
  · obtain ⟨steps, whole⟩ := ih fewer (Nat.lt_succ_self fewer) next
      (reaches.leads inside passed told)
    rw [List.append_assoc] at whole
    exact ⟨steps, whole⟩

/-- A fold that is run goes through a course. -/
theorem run_reaches {rounds : Nat} {run : Run α β ε}
    (ended : fold.run waits sequence rounds start initial = some run) :
    ∃ steps, Reaches waits sequence start initial steps
      ⟨.finished run.result, run.elapsed, run.log⟩ :=
  runFrom_reaches ended (.nil waits sequence start initial)

/-- A run whose steps take turns from the beginning on, the `n`-th of them for the time `waits n`,
and that takes no longer than they do. -/
structure Run.InTurn (waits : Nat → Nat) (run : Run α β ε) : Prop where
  turns : TakesTurns 0 run.steps
  elapsed : run.elapsed =
    ((List.range (run.steps.filterMap CallEvent.started?).length).map waits).sum

theorem Course.takesTurns {moves : List (Move α β ε)} {progress : Progress α β ε}
    (course : Course sequence start initial moves progress) : TakesTurns 0 progress.steps := by
  have turns := takesTurns_backToBack 0 (begun moves)
  rw [← course.sequential.record] at turns
  exact turns.of_append

/-- A course that is over has the record of its steps back to back, and takes as long as they do. -/
theorem Course.whole {moves : List (Move α β ε)} {result : Except ε β} {now : Nat}
    {log : List (Entry (Event α β))}
    (course : Course sequence start initial moves ⟨.finished result, now, log⟩) :
    Progress.steps ⟨.finished result, now, log⟩ = backToBack 0 (begun moves) ∧
      now = total (begun moves) :=
  ⟨(List.append_nil _).symm.trans course.sequential.record, course.sequential.time⟩

theorem Reaches.inTurn {steps : Nat} {run : Run α β ε}
    (reaches : Reaches waits sequence start initial steps
      ⟨.finished run.result, run.elapsed, run.log⟩) : run.InTurn waits := by
  obtain ⟨moves, course, waited⟩ := reaches
  obtain ⟨record, elapsed⟩ := course.whole
  refine ⟨course.takesTurns, ?_⟩
  have count : (begun moves).length = steps := by simpa using congrArg List.length waited
  have starts : run.steps.filterMap CallEvent.started? = (begun moves).map Prod.fst := by
    rw [← starts_backToBack 0, ← record]
    rfl
  rw [starts, List.length_map, count, ← waited, elapsed, total]

/-! ## Folds over a whole list -/

/-- A fold ends whose index comes nearer to the end of the sequence with every move. -/
theorem exists_runFrom (distance : Nat → Nat)
    (inside : ∀ index < sequence.length, 0 < distance index)
    (nearer : ∀ asked index accumulator, fold.goesOn asked index accumulator = true →
      distance (fold.next index) < distance index)
    {rounds index : Nat} (enough : distance index ≤ rounds) (round now : Nat) (accumulator : β) :
    ∃ run, fold.runFrom waits sequence rounds round index now accumulator = some run := by
  induction rounds generalizing round index now accumulator with
  | zero =>
      have outside : sequence[index]? = none := by
        refine List.getElem?_eq_none (Nat.le_of_not_lt fun bound => ?_)
        have := inside index bound
        omega
      exact ⟨_, by rw [runFrom, outside]⟩
  | succ rounds ih =>
      cases here : sequence[index]? with
      | none => exact ⟨_, by rw [runFrom, here]⟩
      | some element =>
          rcases comes : fold.step accumulator element with ⟨notices, error | left⟩
          · exact ⟨_, runFrom_of_error here comes rounds round now⟩
          cases told : fold.goesOn round index left with
          | false => exact ⟨_, runFrom_of_stop here comes rounds round now told⟩
          | true =>
              have less := nearer round index left told
              have fits : distance (fold.next index) ≤ rounds := by omega
              obtain ⟨run, ended⟩ := ih fits (round + 1) (now + waits round) left
              exact ⟨_, (runFrom_of_goesOn here comes rounds round now told).trans
                (congrArg (Option.map _) ended)⟩

end Fold

section WholeList

variable {α β ε : Type} (waits : Nat → Nat) (list : List α)

theorem exists_flow (f : α → Recorded ε Notice β) : ∃ run, flow f waits list = some run := by
  refine Fold.exists_runFrom (fun index => list.length - index) (fun index bound => by omega)
    (fun asked index accumulator told => ?_) (Nat.sub_le _ _) 0 0 []
  have below : index < list.length - 1 := of_decide_eq_true told
  show list.length - (index + 1) < list.length - index
  omega

theorem exists_collectBack (judge : α → Recorded ε Notice Bool) :
    ∃ run, (collectBack judge).run waits list list.length (list.length - 1) (true, []) =
      some run := by
  cases list with
  | nil => exact ⟨_, rfl⟩
  | cons first rest =>
      refine Fold.exists_runFrom (fun index => index + 1) (fun index bound => Nat.succ_pos index)
        (fun asked index accumulator told => ?_) (Nat.le_refl _) 0 0 (true, [])
      have positive : 0 < index := of_decide_eq_true (Bool.and_eq_true_iff.mp told).1
      show index - 1 + 1 < index + 1
      omega

/-- A change of the result leaves the steps on record alone. -/
theorem Fold.Run.steps_map {β γ : Type} (f : β → γ) (run : Fold.Run α β ε) :
    (run.map f).steps = run.steps := by
  obtain ⟨result, log, elapsed⟩ := run
  induction log with
  | nil => rfl
  | cons line rest ih =>
      match line with
      | .call (.step event) => exact congrArg (event :: ·) ih
      | .call (.checked _ _ _) => exact ih
      | .call (.moved _ _) => exact ih
      | .notice _ => exact ih

/-- The scan from the end of a list is a fold that collects backwards from the last index, also
where the list is empty. -/
theorem takeWhileRight_eq_map (judge : α → Recorded ε Notice Bool) :
    takeWhileRight judge waits list =
      ((collectBack judge).run waits list list.length (list.length - 1) (true, [])).map
        (Fold.Run.map Prod.snd) := by
  cases list with
  | nil => rfl
  | cons first rest => rfl

theorem takeWhileRight_of_collectBack (judge : α → Recorded ε Notice Bool)
    {inner : Fold.Run α (Bool × List α) ε}
    (ended : (collectBack judge).run waits list list.length (list.length - 1) (true, []) =
      some inner) :
    ∃ run, takeWhileRight judge waits list = some run ∧
      run.result = inner.result.map Prod.snd ∧ run.steps = inner.steps ∧
      run.elapsed = inner.elapsed := by
  refine ⟨inner.map Prod.snd, ?_, rfl, inner.steps_map Prod.snd, rfl⟩
  rw [takeWhileRight_eq_map, ended]
  rfl

end WholeList

/-- Steps never overlap. On whatever course callbacks lead a fold, and up to whichever of its moves,
the steps that have begun take turns: what is on record of them is a beginning of the record of
steps back to back, and nothing happens after a step that fails. A course that is over has all of
that record, and takes as long as its steps wait. A fold that is run goes through a course on which
the `n`-th step waits `waits n`. The two folds over a whole list always end, and their runs are of
this kind. -/
theorem steps_never_overlap {α β ε : Type} :
    (∀ (sequence : List α) (start : Nat) (initial : β) (moves : List (Fold.Move α β ε))
      (progress : Fold.Progress α β ε), Fold.Course sequence start initial moves progress →
      Fold.TakesTurns 0 progress.steps ∧
      progress.steps <+: Fold.backToBack 0 (Fold.begun moves) ∧
      (∀ before outcome after error, moves = before ++ .finish outcome :: after →
        outcome.result = .error error → after = []) ∧
      ∀ result, progress.state = .finished result →
        progress.steps = Fold.backToBack 0 (Fold.begun moves) ∧
          progress.now = Fold.total (Fold.begun moves)) ∧
    (∀ (fold : Fold α β ε) (waits : Nat → Nat) (sequence : List α) (rounds start : Nat)
      (initial : β) (run : Fold.Run α β ε),
      fold.run waits sequence rounds start initial = some run → run.InTurn waits ∧
        ∃ steps, Fold.Reaches waits sequence start initial steps
          ⟨.finished run.result, run.elapsed, run.log⟩) ∧
    (∀ (f : α → Recorded ε Notice β) (waits : Nat → Nat) (list : List α),
      ∃ run, flow f waits list = some run ∧ run.InTurn waits ∧
        ∃ steps, Fold.Reaches waits list 0 [] steps ⟨.finished run.result, run.elapsed, run.log⟩) ∧
    ∀ (judge : α → Recorded ε Notice Bool) (waits : Nat → Nat) (list : List α),
      ∃ run, takeWhileRight judge waits list = some run ∧ run.InTurn waits ∧
        ∃ result log steps, run.result = result.map Prod.snd ∧
          run.steps = Fold.Progress.steps ⟨.finished result, run.elapsed, log⟩ ∧
          Fold.Reaches waits list (list.length - 1) (true, []) steps
            ⟨.finished result, run.elapsed, log⟩ := by
  refine ⟨?_, ?_, ?_, ?_⟩
  · intro sequence start initial moves progress course
    refine ⟨course.takesTurns, ⟨progress.due, course.sequential.record⟩, ?_, ?_⟩
    · rintro before outcome after error rfl fails
      exact course.eq_nil_of_failure fails
    · obtain ⟨state, now, log⟩ := progress
      rintro result rfl
      exact course.whole
  · intro fold waits sequence rounds start initial run ended
    obtain ⟨steps, reaches⟩ := Fold.run_reaches ended
    exact ⟨reaches.inTurn, steps, reaches⟩
  · intro f waits list
    obtain ⟨run, ended⟩ := exists_flow waits list f
    obtain ⟨steps, reaches⟩ := Fold.run_reaches ended
    exact ⟨run, ended, reaches.inTurn, steps, reaches⟩
  · intro judge waits list
    obtain ⟨inner, ended⟩ := exists_collectBack waits list judge
    obtain ⟨steps, reaches⟩ := Fold.run_reaches ended
    obtain ⟨run, whole, result, same, elapsed⟩ :=
      takeWhileRight_of_collectBack waits list judge ended
    obtain ⟨turns, time⟩ := reaches.inTurn
    refine ⟨run, whole, ⟨same ▸ turns, ?_⟩, inner.result, inner.log, steps, result, ?_, ?_⟩
    · rw [same, elapsed, time]
    · rw [same]
      rfl
    · rw [elapsed]
      exact reaches

/-- A fold that never leaves the first index is followed into its third step. -/
theorem steps_of_endless_fold_take_turns :
    let moves : List (Fold.Move Nat Nat PathError) :=
      [.begin 7 5, .pass 3, .pass 5, .finish (pure 1), .answer true, .goTo 0,
        .begin 7 0, .finish (pure 2), .answer true, .goTo 0, .begin 7 4]
    ∃ progress, Fold.Course [7] 0 0 moves progress ∧
      progress.steps =
        [.started 7 0, .ended 7 5, .started 7 5, .ended 7 5, .started 7 5] ∧
      Fold.TakesTurns 0 progress.steps := by
  intro moves
  have course : Fold.Course [7] 0 0 moves _ :=
    ((((((((((Fold.Course.nil.snoc (.begin rfl 5)).snoc (.pass 3 (by decide) (by decide))).snoc
      (.pass 5 (by decide) (by decide))).snoc (.finish (pure 1))).snoc .goOn).snoc (.goTo 0)).snoc
      (.begin rfl 0)).snoc (.finish (pure 2))).snoc .goOn).snoc (.goTo 0)).snoc (.begin rfl 4)
  exact ⟨_, course, rfl, (steps_never_overlap.1 [7] 0 0 moves _ course).1⟩

end Waypoint
