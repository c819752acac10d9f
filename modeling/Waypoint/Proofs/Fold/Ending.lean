import Mathlib
import Waypoint.Proofs.Fold.Succession
import Waypoint.Proofs.Fold.Visits

/-!
# When a fold ends

The index of a fold goes along the iterates of `Fold.next`. If these leave the sequence
(`Fold.LeavesAfter`), the fold ends there at the latest, whatever is decided otherwise: no two
iterates before that are the same, so there are no more of them than the sequence has elements. If
they never leave it, the fold ends only with a step that fails or with the answer to stop.

Both are said of folds that are run (`Fold.run`), where the decisions are functions, and of courses
(`Fold.Course`), where every call may answer differently, as long as the index moves by `Fold.next`
(`Fold.Progress.MovesBy`).
-/

namespace Waypoint

namespace Fold

variable {α β ε : Type}

/-- The index is inside a sequence of some length until it has moved `k` times, and outside then. -/
structure LeavesAfter (next : Nat → Nat) (length start k : Nat) : Prop where
  inside : ∀ i < k, next^[i] start < length
  outside : length ≤ next^[k] start

/-- The visits that a fold comes to if it is given enough rounds. -/
inductive Visited (fold : Fold α β ε) (waits : Nat → Nat) (sequence : List α) (start : Nat)
    (initial : β) : Visit α β → Prop
  | first {element : α} (inside : sequence[start]? = some element) :
      Visited fold waits sequence start initial ⟨0, 0, start, element, initial⟩
  | following {visit following : Visit α β}
      (before : Visited fold waits sequence start initial visit)
      (leads : visit.Leads fold waits following)
      (inside : sequence[following.index]? = some following.element) :
      Visited fold waits sequence start initial following

/-- The step of a visit fails, or the answer after it is to stop. -/
def Visit.Stops (fold : Fold α β ε) (visit : Visit α β) : Prop :=
  (∃ error, (visit.step fold).result = .error error) ∨
    ∃ left, (visit.step fold).result = .ok left ∧
      fold.goesOn visit.round visit.index left = false

/-- A step fails, or the answer is to stop. -/
def Move.Stops : Move α β ε → Prop
  | finish outcome => ∃ error, outcome.result = .error error
  | answer goesOn => goesOn = false
  | _ => False

/-- Every move of the index on record is by `next`. -/
def Progress.MovesBy (next : Nat → Nat) (progress : Progress α β ε) : Prop :=
  ∀ index target, .call (.moved index target) ∈ progress.log → target = next index

/-- A fold ends after `k` steps at most: it is enough to give it `k` rounds, and no course on which
the index moves by `next` begins more steps or is longer than these take. -/
structure EndsWithin (fold : Fold α β ε) (sequence : List α) (start k : Nat) : Prop where
  runs : ∀ waits initial, ∃ run,
    (∀ rounds, k ≤ rounds → fold.run waits sequence rounds start initial = some run) ∧
      (run.steps.filterMap CallEvent.started?).length ≤ k
  courses : ∀ (initial : β) (moves : List (Move α β ε)) progress,
    Course sequence start initial moves progress → progress.MovesBy fold.next →
      (begun moves).length ≤ k ∧ moves.length ≤ 4 * k + total (begun moves) + 1

/-! ## Iterates -/

section Iterates

variable {next : Nat → Nat} {length start k : Nat}

theorem leavesAfter_zero : LeavesAfter next length start 0 ↔ length ≤ start := by
  constructor
  · intro leaves
    exact leaves.outside
  · intro outside
    exact ⟨fun i less => absurd less (Nat.not_lt_zero i), outside⟩

theorem leavesAfter_succ :
    LeavesAfter next length start (k + 1) ↔
      start < length ∧ LeavesAfter next length (next start) k := by
  constructor
  · rintro ⟨inside, outside⟩
    exact ⟨inside 0 (Nat.succ_pos k), fun i less => inside (i + 1) (Nat.succ_lt_succ less), outside⟩
  · rintro ⟨here, inside, outside⟩
    refine ⟨fun i less => ?_, outside⟩
    cases i with
    | zero => exact here
    | succ i => exact inside i (Nat.lt_of_succ_lt_succ less)

/-- The index leaves once. -/
theorem LeavesAfter.unique {k' : Nat} (leaves : LeavesAfter next length start k)
    (leaves' : LeavesAfter next length start k') : k = k' := by
  rcases Nat.lt_trichotomy k k' with less | same | more
  · exact absurd (leaves'.inside k less) (Nat.not_lt.mpr leaves.outside)
  · exact same
  · exact absurd (leaves.inside k' more) (Nat.not_lt.mpr leaves'.outside)

theorem LeavesAfter.iterate {i : Nat} (leaves : LeavesAfter next length start k) (le : i ≤ k) :
    LeavesAfter next length (next^[i] start) (k - i) := by
  constructor
  · intro j less
    rw [← Function.iterate_add_apply]
    exact leaves.inside (j + i) (by omega)
  · rw [← Function.iterate_add_apply, Nat.sub_add_cancel le]
    exact leaves.outside

/-- The same index would be as far from leaving, so no index comes twice before. -/
theorem LeavesAfter.injOn (leaves : LeavesAfter next length start k) :
    Set.InjOn (fun i => next^[i] start) (Finset.range k) := by
  intro i here j there same
  have less := Finset.mem_range.mp here
  have less' := Finset.mem_range.mp there
  have first := leaves.iterate less.le
  have second := leaves.iterate less'.le
  rw [show next^[i] start = next^[j] start from same] at first
  have := first.unique second
  omega

theorem LeavesAfter.le_length (leaves : LeavesAfter next length start k) : k ≤ length := by
  have inside : ∀ i ∈ Finset.range k, next^[i] start ∈ Finset.range length := by
    intro i member
    exact Finset.mem_range.mpr (leaves.inside i (Finset.mem_range.mp member))
  simpa using Finset.card_le_card_of_injOn _ inside leaves.injOn

/-- Of the iterates outside there is a first one. -/
theorem exists_leavesAfter (outside : length ≤ next^[k] start) :
    ∃ first ≤ k, LeavesAfter next length start first := by
  have some : ∃ k, length ≤ next^[k] start := ⟨k, outside⟩
  refine ⟨Nat.find some, Nat.find_min' some outside, ?_, Nat.find_spec some⟩
  intro i less
  exact Nat.lt_of_not_le (Nat.find_min some less)

/-- Indices that do not come twice run out. -/
theorem exists_leavesAfter_of_fresh
    (fresh : ∀ i j, i < j → next^[i] start < length → next^[j] start ≠ next^[i] start) :
    ∃ k ≤ length, LeavesAfter next length start k := by
  by_cases leaves : ∃ k ≤ length, length ≤ next^[k] start
  · obtain ⟨k, le, outside⟩ := leaves
    obtain ⟨first, less, leaves⟩ := exists_leavesAfter outside
    exact ⟨first, less.trans le, leaves⟩
  · -- one index more than there are indices
    have inside : ∀ i ∈ Finset.range (length + 1), next^[i] start ∈ Finset.range length := by
      intro i member
      rw [Finset.mem_range]
      by_contra outside
      exact leaves ⟨i, Nat.lt_succ_iff.mp (Finset.mem_range.mp member), Nat.le_of_not_lt outside⟩
    have apart : Set.InjOn (fun i => next^[i] start) (Finset.range (length + 1)) := by
      intro i here j there same
      rcases Nat.lt_trichotomy i j with less | equal | more
      · exact absurd same.symm (fresh i j less (Finset.mem_range.mp (inside i here)))
      · exact equal
      · exact absurd same (fresh j i more (Finset.mem_range.mp (inside j there)))
    have crowded := Finset.card_le_card_of_injOn _ inside apart
    rw [Finset.card_range, Finset.card_range] at crowded
    omega

end Iterates

/-! ## Runs -/

section Runs

variable {fold : Fold α β ε} {waits : Nat → Nat} {sequence : List α} {start index k : Nat}
  {initial left : β} {visit : Visit α β}

/-- A visit stops the fold, or leaves it with an accumulator to go on with. -/
theorem Visit.stops_or_goesOn (fold : Fold α β ε) (visit : Visit α β) :
    visit.Stops fold ∨ ∃ left, (visit.step fold).result = .ok left ∧
      fold.goesOn visit.round visit.index left = true := by
  cases comes : (visit.step fold).result with
  | error error => exact .inl (.inl ⟨error, comes⟩)
  | ok left =>
      cases told : fold.goesOn visit.round visit.index left with
      | false => exact .inl (.inr ⟨left, comes, told⟩)
      | true => exact .inr ⟨left, rfl, told⟩

/-- On record of a visit the index moves as the fold says, and only where the answer was yes. -/
theorem Visit.moved_of_mem_record {target : Nat} (visit : Visit α β)
    (line : .call (.moved index target) ∈ visit.record fold waits) :
    index = visit.index ∧ target = fold.next index ∧
      ∃ left, fold.goesOn visit.round index left = true := by
  rcases visit.stops_or_goesOn fold with (⟨error, fails⟩ | ⟨left, passed, told⟩) |
    ⟨left, passed, told⟩
  · simp [record, stepRecord, fails] at line
  · simp [record, stepRecord, passed, told] at line
  · obtain ⟨rfl, rfl⟩ : index = visit.index ∧ target = fold.next visit.index := by
      simpa [record, stepRecord, passed, told] using line
    exact ⟨rfl, rfl, left, told⟩

/-- A fold that is at a visit which stops it needs one round. -/
theorem exists_runFrom_of_stops (inside : sequence[visit.index]? = some visit.element)
    (stops : visit.Stops fold) :
    ∃ run, ∀ rounds, fold.runFrom waits sequence (rounds + 1) visit.round visit.index visit.time
      visit.accumulator = some run := by
  rcases stops with ⟨error, fails⟩ | ⟨left, passed, told⟩
  · exact ⟨_, fun rounds =>
      runFrom_of_error inside (congrArg (Recorded.mk _) fails) rounds visit.round visit.time⟩
  · exact ⟨_, fun rounds =>
      runFrom_of_stop inside (congrArg (Recorded.mk _) passed) rounds visit.round visit.time told⟩

/-- From a visit after which it is told to go on a fold is run as from the next index. -/
theorem runFrom_succ_of_goesOn (waits : Nat → Nat)
    (inside : sequence[visit.index]? = some visit.element)
    (passed : (visit.step fold).result = .ok left)
    (told : fold.goesOn visit.round visit.index left = true) (rounds : Nat) :
    fold.runFrom waits sequence (rounds + 1) visit.round visit.index visit.time
        visit.accumulator =
      (fold.runFrom waits sequence rounds (visit.round + 1) (fold.next visit.index)
        (visit.finish waits) left).map (Run.after (visit.record fold waits)) := by
  rw [runFrom_of_goesOn inside (congrArg (Recorded.mk _) passed) rounds visit.round visit.time told]
  simp only [Visit.record, passed, told, if_true]
  rfl

theorem exists_runFrom_of_leavesAfter (leaves : LeavesAfter fold.next sequence.length index k)
    (round now : Nat) (accumulator : β) :
    ∃ run, ∀ rounds, k ≤ rounds →
      fold.runFrom waits sequence rounds round index now accumulator = some run := by
  induction k generalizing round index now accumulator with
  | zero =>
      have outside := List.getElem?_eq_none (leavesAfter_zero.mp leaves)
      refine ⟨⟨.ok accumulator, [], now⟩, fun rounds _ => ?_⟩
      rw [runFrom, outside]
  | succ k ih =>
      obtain ⟨inside, later⟩ := leavesAfter_succ.mp leaves
      let visit : Visit α β := ⟨round, now, index, sequence[index], accumulator⟩
      have here : sequence[visit.index]? = some visit.element := List.getElem?_eq_getElem inside
      rcases visit.stops_or_goesOn fold with stops | ⟨left, passed, told⟩
      · obtain ⟨run, ended⟩ := exists_runFrom_of_stops here stops
        refine ⟨run, fun rounds enough => ?_⟩
        obtain ⟨fewer, rfl⟩ := Nat.exists_eq_add_of_le' enough
        exact ended (fewer + k)
      · obtain ⟨run, ended⟩ := ih later (round + 1) (visit.finish waits) left
        refine ⟨run.after (visit.record fold waits), fun rounds enough => ?_⟩
        obtain ⟨fewer, rfl⟩ := Nat.exists_eq_add_of_le' enough
        have rest := ended (fewer + k) (Nat.le_add_left k fewer)
        exact (runFrom_succ_of_goesOn waits here passed told (fewer + k)).trans (by rw [rest]; rfl)

namespace Visited

theorem inside (visited : Visited fold waits sequence start initial visit) :
    sequence[visit.index]? = some visit.element := by
  cases visited with
  | first inside => exact inside
  | following _ _ inside => exact inside

/-- A fold that ends from one of its visits on ends from the beginning on. -/
theorem exists_run (visited : Visited fold waits sequence start initial visit) {rounds : Nat}
    {run : Run α β ε}
    (ended : fold.runFrom waits sequence rounds visit.round visit.index visit.time
      visit.accumulator = some run) :
    ∃ rounds run, fold.run waits sequence rounds start initial = some run := by
  induction visited generalizing rounds run with
  | first inside => exact ⟨rounds, run, ended⟩
  | following before leads _ ih =>
      have whole := runFrom_succ_of_goesOn waits before.inside leads.accumulator leads.goesOn rounds
      rw [← leads.round, ← leads.index, ← leads.time, ended] at whole
      exact ih whole

end Visited

/-- Where the index never leaves the sequence, a fold that ends has been stopped. -/
theorem exists_stop_of_runFrom {rounds round now : Nat} {accumulator : β} {run : Run α β ε}
    (never : ∀ i, fold.next^[i] index < sequence.length)
    (visited : ∀ element, sequence[index]? = some element →
      Visited fold waits sequence start initial ⟨round, now, index, element, accumulator⟩)
    (ended : fold.runFrom waits sequence rounds round index now accumulator = some run) :
    ∃ visit, Visited fold waits sequence start initial visit ∧ visit.Stops fold := by
  induction rounds using Nat.strong_induction_on generalizing round index now accumulator run
    with | _ rounds ih => ?_
  rcases runFrom_eq_some ended with
    ⟨outside, -⟩ | ⟨element, inside, ⟨ends, -⟩ | ⟨fewer, left, later, rfl, passed, told, next, -⟩⟩
  -- the index is outside neither here nor after this visit, if it is the last one
  · exact absurd (never 0) (Nat.not_lt.mpr outside)
  · refine ⟨_, visited element inside, ?_⟩
    rcases Visit.stops_or_goesOn fold ⟨round, now, index, element, accumulator⟩ with
      stops | ⟨left, passed, told⟩
    · exact stops
    · rcases ends.stops left (ends.result.trans passed) with refused | outside
      · exact absurd (told.symm.trans refused) Bool.noConfusion
      · exact absurd (never 1) (Nat.not_lt.mpr outside)
  · refine ih fewer (Nat.lt_succ_self fewer) (fun i => never (i + 1)) ?_ next
    intro other inside'
    exact .following (visited element inside) ⟨rfl, rfl, rfl, passed, told⟩ inside'

end Runs

/-! ## Courses -/

/-- The index at which the next step would begin. -/
def State.upcoming (next : Nat → Nat) : State α β ε → Option Nat
  | ready index _ => some index
  | stepping index _ _ => some (next index)
  | asking index _ => some (next index)
  | moving index _ => some (next index)
  | finished _ => none

/-- How many moves may come before another step begins, those of the clock aside; the last one may
leave the sequence. -/
def State.movesLeft : State α β ε → Nat
  | ready _ _ => 1
  | stepping _ _ _ => 4
  | asking _ _ => 3
  | moving _ _ => 2
  | finished _ => 0

namespace Progress

variable {sequence : List α} {move : Move α β ε} {progress following : Progress α β ε}
  {next : Nat → Nat}

theorem Step.log_prefix (made : progress.Step sequence move following) :
    progress.log <+: following.log := by
  cases made with
  | begin | finish | goOn | stop | goTo => exact List.prefix_append _ _
  | pass | leave => exact List.prefix_rfl

theorem Step.movesBy (made : progress.Step sequence move following)
    (moved : following.MovesBy next) : progress.MovesBy next :=
  fun index target member => moved index target (made.log_prefix.subset member)

/-- Nothing comes after the end. -/
theorem Step.unfinished (made : progress.Step sequence move following) :
    ¬ ∃ result, progress.state = .finished result := by
  rintro ⟨result, finished⟩
  cases made <;> cases finished

theorem Step.finished_iff (made : progress.Step sequence move following) :
    (∃ result, following.state = .finished result) ↔ move = .leave ∨ move.Stops := by
  cases made with
  | finish outcome =>
      cases comes : outcome.result <;> simp [State.afterStep, Move.Stops, comes]
  | begin | pass | goOn | stop | goTo | leave => simp [Move.Stops]

/-- A round has four moves, and with each of the others the clock moves on. -/
theorem Step.movesLeft_le (made : progress.Step sequence move following) :
    following.state.movesLeft + progress.now + 1 ≤
      progress.state.movesLeft + following.now + 4 * (begun [move]).length := by
  cases made with
  | @begin index element accumulator now log inside wait =>
      show 4 + now + 1 ≤ 1 + now + 4 * 1
      omega
  | pass time later inTime =>
      simp only [State.movesLeft]
      omega
  | finish outcome =>
      cases outcome.result <;> simp only [State.afterStep, State.movesLeft] <;> omega
  | goOn | stop | goTo | leave =>
      simp only [State.movesLeft]
      omega

end Progress

section Courses

variable {sequence : List α} {start : Nat} {initial : β} {moves : List (Move α β ε)}
  {move : Move α β ε} {progress following : Progress α β ε} {next : Nat → Nat}

/-- A course along the iterates of `next`: it has come as far as it has begun steps. -/
structure Along (next : Nat → Nat) (sequence : List α) (start : Nat) (moves : List (Move α β ε))
    (progress : Progress α β ε) : Prop where
  upcoming : ∀ index, progress.state.upcoming next = some index →
    index = next^[(begun moves).length] start
  inside : ∀ i < (begun moves).length, next^[i] start < sequence.length
  outside : .leave ∈ moves → ∃ i, sequence.length ≤ next^[i] start

/-- A move that begins no step leads on along the iterates. -/
theorem Along.idle (along : Along next sequence start moves progress) (none : move.begun? = none)
    (stays : ∀ index, following.state.upcoming next = some index →
      progress.state.upcoming next = some index)
    (outside : move = .leave → ∃ i, sequence.length ≤ next^[i] start) :
    Along next sequence start (moves ++ [move]) following := by
  constructor
  · intro index upcoming
    rw [begun_concat_of_none none]
    exact along.upcoming index (stays index upcoming)
  · rw [begun_concat_of_none none]
    exact along.inside
  · intro left
    rcases List.mem_append.mp left with before | now
    · exact along.outside before
    · exact outside (List.mem_singleton.mp now).symm

theorem Along.step (along : Along next sequence start moves progress)
    (made : progress.Step sequence move following) (moved : following.MovesBy next) :
    Along next sequence start (moves ++ [move]) following := by
  cases made with
  | @begin index element accumulator now log here wait =>
      have at_index := along.upcoming index rfl
      have count : (begun (moves ++ [Move.begin (β := β) element wait])).length =
          (begun moves).length + 1 := by
        rw [begun_append, List.length_append]
        rfl
      constructor
      · intro other upcoming
        rw [count, Function.iterate_succ_apply', ← at_index]
        exact (Option.some.inj upcoming).symm
      · intro i less
        rw [count] at less
        rcases Nat.lt_succ_iff_lt_or_eq.mp less with before | rfl
        · exact along.inside i before
        · rw [← at_index]
          exact (List.getElem?_eq_some_iff.mp here).1
      · intro left
        simpa using along.outside (by simpa using left)
  | pass => exact along.idle rfl (fun _ same => same) nofun
  | finish outcome =>
      refine along.idle rfl (fun index upcoming => ?_) nofun
      cases comes : outcome.result with
      | ok left =>
          rw [comes] at upcoming
          exact upcoming
      | error error =>
          rw [comes] at upcoming
          cases upcoming
  | goOn => exact along.idle rfl (fun _ same => same) nofun
  | stop => exact along.idle rfl (fun _ same => by cases same) nofun
  | @goTo index accumulator now log target =>
      refine along.idle rfl (fun other upcoming => ?_) nofun
      have by_next : target = next index := moved index target (by simp)
      rw [State.upcoming, ← by_next]
      exact upcoming
  | @leave index accumulator now log outside =>
      refine along.idle rfl (fun _ same => by cases same) fun _ => ⟨(begun moves).length, ?_⟩
      rw [← along.upcoming index rfl]
      exact List.getElem?_eq_none_iff.mp outside

namespace Course

theorem along (course : Course sequence start initial moves progress)
    (moved : progress.MovesBy next) : Along next sequence start moves progress := by
  induction course with
  | nil =>
      refine ⟨fun index upcoming => (Option.some.inj upcoming).symm, ?_, nofun⟩
      intro i less
      cases less
  | snoc before made ih => exact (ih (made.movesBy moved)).step made moved

/-- Before the index leaves there is a step for each of its moves. -/
theorem begun_le {k : Nat} (course : Course sequence start initial moves progress)
    (moved : progress.MovesBy next) (leaves : LeavesAfter next sequence.length start k) :
    (begun moves).length ≤ k := by
  by_contra more
  have inside := (course.along moved).inside k (Nat.lt_of_not_le more)
  exact absurd inside (Nat.not_lt.mpr leaves.outside)

theorem now_le (course : Course sequence start initial moves progress) :
    progress.now ≤ progress.limit := by
  induction course with
  | nil => exact Nat.le_refl 0
  | snoc before made ih =>
      cases made with
      | begin inside wait => exact Nat.le_add_right _ wait
      | pass time later inTime => exact inTime
      | finish outcome => exact (Progress.due_afterStep _ _ _ _).2.ge
      | goOn | stop | goTo | leave => exact Nat.le_refl _

theorem length_add_le (course : Course sequence start initial moves progress) :
    moves.length + progress.state.movesLeft ≤ 4 * (begun moves).length + progress.now + 1 := by
  induction course with
  | nil => exact Nat.le_refl 1
  | snoc before made ih =>
      have spent := made.movesLeft_le
      rw [begun_append, List.length_append, List.length_append, List.length_singleton]
      omega

/-- A course is no longer than its steps take. -/
theorem length_le (course : Course sequence start initial moves progress) :
    moves.length ≤ 4 * (begun moves).length + total (begun moves) + 1 := by
  have whole := course.length_add_le
  have inTime := course.now_le
  rw [course.sequential.time] at inTime
  omega

/-- A course has ended where the index has left the sequence or the callbacks have stopped it. -/
theorem finished_iff (course : Course sequence start initial moves progress) :
    (∃ result, progress.state = .finished result) ↔
      .leave ∈ moves ∨ ∃ move ∈ moves, move.Stops := by
  induction course with
  | nil => simp
  | @snoc moves move progress following before made ih =>
      -- it went on until the last move
      have earlier := not_or.mp (mt ih.mpr made.unfinished)
      rw [made.finished_iff]
      constructor
      · rintro (rfl | stops)
        · exact .inl List.mem_concat_self
        · exact .inr ⟨move, List.mem_concat_self, stops⟩
      · rintro (left | ⟨other, member, stops⟩)
        · rcases List.mem_append.mp left with before | now
          · exact absurd before earlier.1
          · exact .inl (List.mem_singleton.mp now).symm
        · rcases List.mem_append.mp member with before | now
          · exact absurd ⟨other, before, stops⟩ earlier.2
          · obtain rfl := List.mem_singleton.mp now
            exact .inr stops

/-- Where nothing has stopped a course it can go on without a stop. -/
theorem goes_on (course : Course sequence start initial moves progress)
    (moved : progress.MovesBy next) :
    (∃ result, progress.state = .finished result) ∨
      ∃ move following, progress.Step sequence move following ∧ following.MovesBy next ∧
        ¬ move.Stops := by
  obtain ⟨state, now, log⟩ := progress
  cases state with
  | ready index accumulator =>
      refine .inr ?_
      cases here : sequence[index]? with
      | none => exact ⟨_, _, .leave here, moved, nofun⟩
      | some element =>
          refine ⟨_, _, .begin here 0, ?_, nofun⟩
          simpa [Progress.MovesBy] using moved
  | stepping index element deadline =>
      have inTime : now ≤ deadline := course.now_le
      refine .inr ?_
      rcases Nat.lt_or_eq_of_le inTime with early | rfl
      · exact ⟨_, _, .pass deadline early (Nat.le_refl _), moved, nofun⟩
      · refine ⟨_, _, .finish (pure initial), ?_, nofun⟩
        simpa [Progress.MovesBy] using moved
  | asking index accumulator =>
      refine .inr ⟨_, _, .goOn, ?_, nofun⟩
      simpa [Progress.MovesBy] using moved
  | moving index accumulator =>
      refine .inr ⟨_, _, .goTo (next index), ?_, nofun⟩
      intro other target member
      rcases List.mem_append.mp member with before | last
      · exact moved other target before
      · cases List.mem_singleton.mp last
        rfl
  | finished result => exact .inl ⟨result, rfl⟩

end Course

/-- A fold that is run goes through a course on which the index moves as it says. -/
theorem run_course {fold : Fold α β ε} {waits : Nat → Nat} {rounds : Nat} {run : Run α β ε}
    (ended : fold.run waits sequence rounds start initial = some run) :
    ∃ moves, Course sequence start initial moves ⟨.finished run.result, run.elapsed, run.log⟩ ∧
      Progress.MovesBy fold.next ⟨.finished run.result, run.elapsed, run.log⟩ ∧
      (run.steps.filterMap CallEvent.started?).length = (begun moves).length := by
  obtain ⟨steps, moves, course, -⟩ := run_reaches ended
  obtain ⟨visits, account⟩ := runFrom_account ended
  refine ⟨moves, course, ?_, ?_⟩
  · intro index target member
    have recorded : .call (.moved index target) ∈ run.log := member
    rw [account.record] at recorded
    obtain ⟨visit, -, line⟩ := List.mem_flatMap.mp recorded
    exact (visit.moved_of_mem_record line).2.1
  · have record : run.steps = backToBack 0 (begun moves) := course.whole.1
    rw [record, starts_backToBack, List.length_map]

end Courses

/-- Where the index leaves the sequence with its `k`-th move, `k` rounds are enough. -/
theorem LeavesAfter.endsWithin {fold : Fold α β ε} {sequence : List α} {start k : Nat}
    (leaves : LeavesAfter fold.next sequence.length start k) :
    fold.EndsWithin sequence start k where
  runs := by
    intro waits initial
    obtain ⟨run, ended⟩ := exists_runFrom_of_leavesAfter leaves 0 0 initial
    obtain ⟨moves, course, moved, count⟩ := run_course (ended k (Nat.le_refl k))
    exact ⟨run, ended, count.trans_le (course.begun_le moved leaves)⟩
  courses := by
    intro initial moves progress course moved
    have steps := course.begun_le moved leaves
    have whole := course.length_le
    exact ⟨steps, by omega⟩

theorem EndsWithin.mono {fold : Fold α β ε} {sequence : List α} {start k more : Nat}
    (ends : fold.EndsWithin sequence start k) (le : k ≤ more) :
    fold.EndsWithin sequence start more where
  runs := by
    intro waits initial
    obtain ⟨run, ended, steps⟩ := ends.runs waits initial
    exact ⟨run, fun rounds enough => ended rounds (le.trans enough), steps.trans le⟩
  courses := by
    intro initial moves progress course moved
    obtain ⟨steps, whole⟩ := ends.courses initial moves progress course moved
    exact ⟨steps.trans le, by omega⟩

end Fold

/-- When a fold ends. If the index leaves the sequence with its `k`-th move, there are no more moves
than elements, and the fold ends after `k` steps at most, whatever its steps come to and whatever it
is told. If the index never leaves the sequence, a fold that is run ends exactly where it comes to a
visit whose step fails or after which it is told to stop, and a course has ended exactly where a
step has failed or the answer was to stop. If no index inside the sequence comes twice, the fold
ends after as many steps as there are elements. A course that has not ended can always go on. -/
theorem fold_ends_where_it_leaves_or_is_stopped {α β ε : Type} (fold : Fold α β ε)
    (sequence : List α) (start : Nat) :
    (∀ k, Fold.LeavesAfter fold.next sequence.length start k →
      k ≤ sequence.length ∧ fold.EndsWithin sequence start k) ∧
    ((∀ i, fold.next^[i] start < sequence.length) →
      (∀ waits initial,
        (∃ rounds run, fold.run waits sequence rounds start initial = some run) ↔
          ∃ visit, Fold.Visited fold waits sequence start initial visit ∧ visit.Stops fold) ∧
      ∀ (initial : β) (moves : List (Fold.Move α β ε)) progress,
        Fold.Course sequence start initial moves progress → progress.MovesBy fold.next →
          ((∃ result, progress.state = .finished result) ↔ ∃ move ∈ moves, move.Stops)) ∧
    ((∀ i j, i < j → fold.next^[i] start < sequence.length →
        fold.next^[j] start ≠ fold.next^[i] start) →
      fold.EndsWithin sequence start sequence.length) ∧
    ∀ (initial : β) (moves : List (Fold.Move α β ε)) progress,
      Fold.Course sequence start initial moves progress → progress.MovesBy fold.next →
        (∃ result, progress.state = .finished result) ∨
          ∃ move following, progress.Step sequence move following ∧
            following.MovesBy fold.next ∧ ¬ move.Stops := by
  refine ⟨?_, ?_, ?_, ?_⟩
  · intro k leaves
    exact ⟨leaves.le_length, leaves.endsWithin⟩
  · intro never
    refine ⟨fun waits initial => ⟨?_, ?_⟩, ?_⟩
    · rintro ⟨rounds, run, ended⟩
      exact Fold.exists_stop_of_runFrom never (fun element inside => .first inside) ended
    · rintro ⟨visit, visited, stops⟩
      obtain ⟨run, ended⟩ := Fold.exists_runFrom_of_stops visited.inside stops
      exact visited.exists_run (ended 0)
    · intro initial moves progress course moved
      have stays : .leave ∉ moves := by
        intro left
        obtain ⟨i, outside⟩ := (course.along moved).outside left
        exact absurd (never i) (Nat.not_lt.mpr outside)
      rw [course.finished_iff]
      exact ⟨fun ends => ends.resolve_left stays, .inr⟩
  · intro fresh
    obtain ⟨k, le, leaves⟩ := Fold.exists_leavesAfter_of_fresh fresh
    exact leaves.endsWithin.mono le
  · intro initial moves progress course moved
    exact course.goes_on moved

/-- An index that goes once through three elements ends the fold, although it is always told to go
on; one that goes around in them does so only where it is told to stop. -/
theorem fold_around_ends_where_it_is_stopped :
    let through := Fold.ofRules 3 .always (.add 1) .sum
    let around := Fold.ofRules 3 (.asksBelow 5) (.table [1, 2, 0]) .sum
    let sequence : List Doc := [.int 10, .int 20, .int 30]
    Fold.LeavesAfter through.next 3 0 3 ∧ through.EndsWithin sequence 0 3 ∧
      (∀ i, around.next^[i] 0 < 3) ∧
      ∃ visit, Fold.Visited around (waitOf []) sequence 0 (.int 0) visit ∧ visit.Stops around := by
  intro through around sequence
  have leaves : Fold.LeavesAfter through.next 3 0 3 := ⟨by decide +kernel, by decide +kernel⟩
  have inside : ∀ index < 3, around.next index < 3 := by decide +kernel
  have never : ∀ i, around.next^[i] 0 < 3 := by
    intro i
    induction i with
    | zero => exact Nat.succ_pos 2
    | succ i ih =>
        rw [Function.iterate_succ_apply']
        exact inside _ ih
  have ended : ((around.run (waitOf []) sequence 5 0 (.int 0)).isSome) = true := by
    decide +kernel
  obtain ⟨run, ended⟩ := Option.isSome_iff_exists.mp ended
  obtain ⟨leaving, -, -, -⟩ := fold_ends_where_it_leaves_or_is_stopped through sequence 0
  obtain ⟨-, stopped, -, -⟩ := fold_ends_where_it_leaves_or_is_stopped around sequence 0
  exact ⟨leaves, (leaving 3 leaves).2, never,
    ((stopped never).1 (waitOf []) (.int 0)).mp ⟨5, run, ended⟩⟩

end Waypoint
