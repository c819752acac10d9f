import Mathlib
import Waypoint.Fold.Sequence
import Waypoint.Proofs.Fold.Ending

/-!
# Folds that sweep over a list

A fold over a whole list calls a function on one element after another, in an order that is known
beforehand: its `Fold.Route`. What the function gives is put into the accumulator, and the sweep
ends early where a call fails or where the accumulator says so (`Fold.Swept`). What is on record of
it are the calls on the places that it has come to, back to back (`Fold.callsRecord`).
-/

namespace Waypoint

namespace Fold

variable {α β γ ε : Type}

/-- The record of calls of a function on elements with their indices, one after another, from a
round and a time on. The `n`-th call waits `waits n`. -/
def callsRecord (f : α → Recorded ε Notice γ) (waits : Nat → Nat) :
    (round now : Nat) → List (α × Nat) → List (Entry (Event α β))
  | _, _, [] => []
  | round, now, (element, index) :: places =>
    stepRecord index element now (now + waits round) (f element).log ++
      callsRecord f waits (round + 1) (now + waits round) places

/-- How long the calls of some rounds take. -/
def waited (waits : Nat → Nat) (round calls : Nat) : Nat :=
  ((List.range' round calls).map waits).sum

theorem waited_succ (waits : Nat → Nat) (round calls : Nat) :
    waited waits round (calls + 1) = waits round + waited waits (round + 1) calls := rfl

/-- `Route fold proceeds sequence places index`: from `index` on the fold goes from place to place,
as long as its accumulator satisfies `proceeds`. At the last place it stops in any case. -/
inductive Route (fold : Fold α β ε) (proceeds : β → Bool) (sequence : List α) :
    List (α × Nat) → Nat → Prop
  | nil {index} (outside : sequence[index]? = none) : Route fold proceeds sequence [] index
  | last {index element} (inside : sequence[index]? = some element)
      (stops : ∀ asked accumulator, fold.goesOn asked index accumulator = false) :
      Route fold proceeds sequence [(element, index)] index
  | cons {index element places} (inside : sequence[index]? = some element)
      (told : ∀ asked accumulator, fold.goesOn asked index accumulator = proceeds accumulator)
      (rest : Route fold proceeds sequence places (fold.next index)) :
      Route fold proceeds sequence ((element, index) :: places) index

/-- `Swept f put proceeds places accumulator visited result`: calls of `f` along the places come as
far as `visited` and to `result`, if `put` puts what they give into the accumulator. -/
inductive Swept (f : α → Recorded ε Notice γ) (put : β → α → γ → β) (proceeds : β → Bool) :
    List (α × Nat) → β → List (α × Nat) → Except ε β → Prop
  | nil {accumulator} : Swept f put proceeds [] accumulator [] (.ok accumulator)
  | failed {element index places accumulator error} (fails : (f element).result = .error error) :
      Swept f put proceeds ((element, index) :: places) accumulator [(element, index)]
        (.error error)
  | stopped {element index places accumulator value} (gives : (f element).result = .ok value)
      (stops : proceeds (put accumulator element value) = false) :
      Swept f put proceeds ((element, index) :: places) accumulator [(element, index)]
        (.ok (put accumulator element value))
  | cons {element index places accumulator value visited result}
      (gives : (f element).result = .ok value)
      (goesOn : proceeds (put accumulator element value) = true)
      (rest : Swept f put proceeds places (put accumulator element value) visited result) :
      Swept f put proceeds ((element, index) :: places) accumulator ((element, index) :: visited)
        result

section Records

variable {δ : Type}

/-- The steps and the notices on record, without what is asked between the steps. This is what stays
on record when the result of a run is changed. -/
def stepsOnly (log : List (Entry (Event α β))) : List (Entry (Event α δ)) :=
  log.filterMap fun
    | .call (.step event) => some (.call (.step event))
    | .call _ => none
    | .notice notice => some (.notice notice)

theorem Run.log_map (g : β → δ) (run : Run α β ε) : (run.map g).log = stepsOnly run.log := rfl

theorem stepsOnly_append (log more : List (Entry (Event α β))) :
    (stepsOnly (log ++ more) : List (Entry (Event α δ))) = stepsOnly log ++ stepsOnly more :=
  List.filterMap_append

theorem stepsOnly_stepRecord (index : Nat) (element : α) (start finish : Nat)
    (notices : List Notice) :
    (stepsOnly (stepRecord index element start finish notices : List (Entry (Event α β))) :
      List (Entry (Event α δ))) = stepRecord index element start finish notices := by
  have kept : (stepsOnly (notices.map .notice : List (Entry (Event α β))) :
      List (Entry (Event α δ))) = notices.map .notice := by
    induction notices with
    | nil => rfl
    | cons notice rest ih => exact congrArg (.notice notice :: ·) ih
  exact congrArg (fun rest => .notice (.foldStep index) :: .call (.step (.started element start)) ::
    .call (.step (.ended element finish)) :: rest) kept

end Records

section Sweep

variable {fold : Fold α β ε} {f : α → Recorded ε Notice γ} {put : β → α → γ → β}
  {proceeds : β → Bool} {sequence : List α} {places visited : List (α × Nat)} {index : Nat}
  {accumulator : β} {result : Except ε β} {waits : Nat → Nat}

/-- A sweep visits the first of the places. -/
theorem Swept.isPrefix (swept : Swept f put proceeds places accumulator visited result) :
    visited <+: places := by
  induction swept with
  | nil => exact List.prefix_refl []
  | failed fails | stopped gives stops =>
      exact (List.prefix_cons_inj _).mpr List.nil_prefix
  | cons gives goesOn rest ih => exact (List.prefix_cons_inj _).mpr ih

/-- A run that sweeps along places from a round and a time on. -/
structure Run.Sweeps (f : α → Recorded ε Notice γ) (put : β → α → γ → β) (proceeds : β → Bool)
    (waits : Nat → Nat) (places : List (α × Nat)) (round now : Nat) (accumulator : β)
    (visited : List (α × Nat)) (run : Run α β ε) : Prop where
  swept : Swept f put proceeds places accumulator visited run.result
  record : ∀ {δ : Type}, (stepsOnly run.log : List (Entry (Event α δ))) =
    callsRecord f waits round now visited
  elapsed : run.elapsed = now + waited waits round visited.length

namespace Run.Sweeps

variable {run later : Run α β ε} {round now : Nat} {element : α} {value : γ}

/-- A sweep that comes to an end at the first place. What is asked there is no call. -/
theorem only {more : List (Entry (Event α β))}
    (swept : Swept f put proceeds places accumulator [(element, index)] run.result)
    (log : run.log =
      stepRecord index element now (now + waits round) (f element).log ++ more)
    (others : ∀ {δ : Type}, (stepsOnly more : List (Entry (Event α δ))) = [])
    (elapsed : run.elapsed = now + waits round) :
    run.Sweeps f put proceeds waits places round now accumulator [(element, index)] where
  swept := swept
  record := by
    intro δ
    rw [log, stepsOnly_append, stepsOnly_stepRecord, others]
    rfl
  elapsed := elapsed

/-- A sweep that goes on from the first place. -/
theorem cons (gives : (f element).result = .ok value)
    (goesOn : proceeds (put accumulator element value) = true) (target : Nat)
    (sweeps : later.Sweeps f put proceeds waits places (round + 1) (now + waits round)
      (put accumulator element value) visited) :
    (later.after (stepRecord index element now (now + waits round) (f element).log ++
        [.call (.checked index (put accumulator element value) true),
          .call (.moved index target)])).Sweeps
      f put proceeds waits ((element, index) :: places) round now accumulator
      ((element, index) :: visited) where
  swept := .cons gives goesOn sweeps.swept
  record := by
    intro δ
    rw [Run.after, stepsOnly_append, stepsOnly_append, stepsOnly_stepRecord, sweeps.record]
    simp [stepsOnly, callsRecord]
  elapsed := by
    rw [Run.after, sweeps.elapsed, List.length_cons, waited_succ, Nat.add_assoc]

end Run.Sweeps

/-- A fold with a route comes along it as far as the calls of its function let it. -/
theorem Route.exists_run (route : Route fold proceeds sequence places index)
    (steps : ∀ accumulator element, fold.step accumulator element =
      (f element).andThen fun value => pure (put accumulator element value))
    {rounds : Nat} (enough : places.length ≤ rounds) (round now : Nat) (accumulator : β) :
    ∃ run visited, fold.runFrom waits sequence rounds round index now accumulator = some run ∧
      run.Sweeps f put proceeds waits places round now accumulator visited := by
  have fails : ∀ {accumulator element error}, (f element).result = .error error →
      fold.step accumulator element = ⟨(f element).log, .error error⟩ :=
    fun comes => (steps _ _).trans (Recorded.andThen_of_error comes)
  have gives : ∀ {accumulator element value}, (f element).result = .ok value →
      fold.step accumulator element = ⟨(f element).log, .ok (put accumulator element value)⟩ := by
    intro accumulator element value comes
    rw [steps, Recorded.andThen_of_ok comes, Recorded.log_pure, List.append_nil]
    rfl
  induction route generalizing rounds round now accumulator with
  | nil outside =>
      refine ⟨⟨.ok accumulator, [], now⟩, [], ?_, .nil, rfl, rfl⟩
      rw [runFrom, outside]
  | @last index element inside stops =>
      obtain ⟨fewer, rfl⟩ := Nat.exists_eq_add_of_le' enough
      cases comes : (f element).result with
      | error error =>
          exact ⟨_, _, runFrom_of_error inside (fails comes) fewer round now,
            .only (.failed comes) (List.append_nil _).symm rfl rfl⟩
      | ok value =>
          have whole : Swept f put proceeds [(element, index)] accumulator [(element, index)]
              (.ok (put accumulator element value)) := by
            cases goesOn : proceeds (put accumulator element value) with
            | false => exact .stopped comes goesOn
            | true => exact .cons comes goesOn .nil
          exact ⟨_, _, runFrom_of_stop inside (gives comes) fewer round now (stops round _),
            .only whole rfl rfl rfl⟩
  | @cons index element places inside told rest ih =>
      obtain ⟨fewer, rfl⟩ := Nat.exists_eq_add_of_le' enough
      cases comes : (f element).result with
      | error error =>
          exact ⟨_, _, runFrom_of_error inside (fails comes) _ round now,
            .only (.failed comes) (List.append_nil _).symm rfl rfl⟩
      | ok value =>
          have answer := told round (put accumulator element value)
          cases goesOn : proceeds (put accumulator element value) with
          | false =>
              exact ⟨_, _, runFrom_of_stop inside (gives comes) _ round now (answer.trans goesOn),
                .only (.stopped comes goesOn) rfl rfl rfl⟩
          | true =>
              obtain ⟨later, visited, ended, sweeps⟩ := ih (Nat.le_add_left _ fewer) (round + 1)
                (now + waits round) (put accumulator element value)
              refine ⟨_, _, ?_, sweeps.cons comes goesOn (fold.next index)⟩
              exact (runFrom_of_goesOn inside (gives comes) (fewer + places.length) round
                now (answer.trans goesOn)).trans (by rw [ended]; rfl)

/-- Where the index of a fold moves it was inside, and the fold was told to go on from there. -/
theorem moved_of_ended {rounds round start now target : Nat} {run : Run α β ε}
    (ended : fold.runFrom waits sequence rounds round start now accumulator = some run)
    (line : .call (.moved index target) ∈ run.log) :
    index < sequence.length ∧ target = fold.next index ∧
      ∃ asked left, fold.goesOn asked index left = true := by
  obtain ⟨visits, account⟩ := runFrom_account ended
  rw [account.record] at line
  obtain ⟨visit, member, line⟩ := List.mem_flatMap.mp line
  obtain ⟨rfl, next, left, told⟩ := visit.moved_of_mem_record line
  exact ⟨(List.getElem?_eq_some_iff.mp (account.inside visit member)).1, next, visit.round, left,
    told⟩

end Sweep

end Fold

end Waypoint
