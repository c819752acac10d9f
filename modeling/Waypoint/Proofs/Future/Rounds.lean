import Waypoint.Future.Run
import Waypoint.Proofs.Future.Polling

/-!
# Runs come to their ends

Every round of a run leaves less of its budget (`Roster.next?_eq_some`), so a run with enough rounds
goes on until all its futures have finished (`Roster.settle_finishes`). What each of them then came
to is what it comes to without time, up to the choice among its failures
(`Future.runTogether_comesTo`).
-/

namespace Waypoint

variable {L : Type}

open Running

theorem World.newRound_credit (world : World L) : world.newRound.credit ≠ 0 := by
  show allowance ≠ 0
  decide

namespace Roster

variable {depth : Nat} {roster roster' : Roster L} {world world' : World L}

/-- A roster at the beginning of a round. -/
structure Open (depth : Nat) (roster : Roster L) (world : World L) : Prop where
  standing : Standing false world roster.agenda roster.running
  bound : sizes world.now roster.running ≤ depth
  putOff : world.putOff = []

def places (roster : Roster L) : Nat :=
  roster.agenda.length + allPlaces roster.running

/-- A bound on the rounds that are left. Where the allowance is used up before the round begins, the
round may do nothing but restore it. -/
def budget (depth : Nat) (roster : Roster L) (world : World L) : Nat :=
  if world.credit = 0 then (sizes world.now roster.running + 1) * (depth + 1)
  else sizes world.now roster.running * (depth + 1) + roster.places

namespace Open

theorem places_le (opened : Open depth roster world) :
    roster.places ≤ sizes world.now roster.running :=
  opened.standing.attended.places_le opened.standing.ready world.now

theorem budget_le (opened : Open depth roster world) :
    roster.budget depth world ≤ (depth + 1) * (depth + 1) := by
  have bound := opened.bound
  have places := opened.places_le
  have most : (sizes world.now roster.running + 1) * (depth + 1) ≤ (depth + 1) * (depth + 1) :=
    Nat.mul_le_mul_right _ (Nat.succ_le_succ bound)
  have spread := Nat.add_mul (sizes world.now roster.running) 1 (depth + 1)
  unfold budget
  split
  · exact most
  · omega

/-- A round leaves less of the budget if it takes a step or leaves fewer places, or if it had no
allowance. -/
theorem budget_lt (opened : Open depth roster' world') (credit : world'.credit ≠ 0)
    (less : sizes world'.now roster'.running < sizes world.now roster.running ∨
      sizes world'.now roster'.running = sizes world.now roster.running ∧
        (world.credit = 0 ∨ roster'.places < roster.places)) :
    roster'.budget depth world' < roster.budget depth world := by
  have places := opened.places_le
  have bound := opened.bound
  have spread := Nat.add_mul (sizes world.now roster.running) 1 (depth + 1)
  have spread' := Nat.add_mul (sizes world'.now roster'.running) 1 (depth + 1)
  rw [budget, if_neg credit]
  rcases less with step | ⟨same, reason⟩
  · have more : (sizes world'.now roster'.running + 1) * (depth + 1) ≤
        sizes world.now roster.running * (depth + 1) := Nat.mul_le_mul_right _ step
    unfold budget
    split <;> omega
  · rw [same] at spread' bound places ⊢
    unfold budget
    rcases reason with none | fewer
    · rw [if_pos none]
      omega
    · split <;> omega

end Open

/-! ## The next round -/

/-- No failure ends a run. -/
theorem Open.passes (opened : Open depth roster world) :
    (inquire (poll depth) false roster.running roster.agenda world).failure = none := by
  have inquired := inquire_inquired (poll_sound depth) opened.standing opened.bound
  cases failure : (inquire (poll depth) false roster.running roster.agenda world).failure with
  | none => rfl
  | some error => cases (inquired.failed error failure).1

/-- What an inquiry leaves of a roster. -/
theorem Open.inquired (opened : Open depth roster world) :
    let inquiry := inquire (poll depth) false roster.running roster.agenda world
    world.Later inquiry.world ∧
      Kept false inquiry.restless world roster.agenda roster.running inquiry := by
  have inquired := inquire_inquired (poll_sound depth) opened.standing opened.bound
  exact ⟨inquired.after, inquired.kept opened.passes⟩

/-- Callbacks call for their joins at the beginning of another round. -/
theorem standing_arouse {rank : PendingCall L → Option Nat}
    (standing : Standing false world roster.agenda roster.running)
    (timely : ∀ call ∈ allCalls roster.running, call.Timely world → call.Timely world')
    (settled : ∀ call ∈ allCalls roster.running, call.Settled world →
      (rank call).isSome ∨ call.Settled world') :
    Standing false world' (roster.arouse rank).agenda (roster.arouse rank).running where
  ready := by
    intro child member
    rw [arouse, arouseAll_eq_map] at member
    obtain ⟨child, present, rfl⟩ := List.mem_map.mp member
    exact (standing.ready child present).arouse
      (fun call own => timely call (mem_allCalls.mpr ⟨child, present, own⟩))
      (fun call own => settled call (mem_allCalls.mpr ⟨child, present, own⟩))
  attended := standing.attended.arouse settled
  clear := fun is_strict => nomatch is_strict

/-- Those that were put off go on in a round at the same time. -/
theorem standing_newRound (standing : Standing false world roster.agenda roster.running) :
    Standing false world.newRound (roster.arouse (putOffRank world.putOff)).agenda
      (roster.arouse (putOffRank world.putOff)).running := by
  refine standing_arouse standing (fun _ _ timely => timely) fun call _ settled => ?_
  obtain ⟨timely, postponed | ⟨turn, before⟩⟩ := settled
  · left
    rw [putOffRank, List.isSome_idxOf?]
    exact postponed
  · exact .inr (.of_turn turn before)

/-- Where all that is left waits on the clock, those whose wait ends first go on at that time. -/
theorem standing_advanceTo {time : Nat}
    (standing : Standing false world roster.agenda roster.running)
    (quiet : ∀ child ∈ roster.running, Quiet world child) (none : world.putOff = [])
    (now : (world.advanceTo time).now = time) :
    Standing false (world.advanceTo time) (roster.arouse (dueRank time)).agenda
      (roster.arouse (dueRank time)).running := by
  have on_clock (call : PendingCall L) (member : call ∈ allCalls roster.running) :
      call.turn ≠ .none := by
    obtain ⟨child, present, own⟩ := mem_allCalls.mp member
    obtain ⟨-, postponed | ⟨turn, -⟩⟩ := (quiet child present).settled call own
    · rw [none] at postponed
      cases postponed
    · exact turn
  refine standing_arouse standing (fun call member _ off => absurd off (on_clock call member))
    fun call member _ => ?_
  have turn := on_clock call member
  by_cases due : call.deadline ≤ time
  · left
    rw [dueRank, if_pos due]
    exact Option.isSome_iff_ne_none.mpr turn
  · right
    refine .of_turn turn ?_
    rw [now]
    omega

/-- A round leads to another one. -/
structure LeadsTo (depth : Nat) (roster : Roster L) (world : World L) (next : Roster L)
    (world' : World L) : Prop where
  opened : Open depth next world'
  refines : RefinesAll roster.running next.running
  less : next.budget depth world' < roster.budget depth world

def ofInquiry (inquiry : Inquiry L) : Roster L :=
  ⟨inquiry.children, inquiry.agenda⟩

section Round

variable {inquiry : Inquiry L} {busy : Bool}

/-- Nothing is put off unless the allowance was used up: either a wait has ended, or there was no
allowance. -/
theorem leadsTo_of_putOff (opened : Open depth roster world) (after : world.Later inquiry.world)
    (kept : Kept false busy world roster.agenda roster.running inquiry)
    (some : inquiry.world.putOff ≠ []) :
    LeadsTo depth roster world ((ofInquiry inquiry).arouse (putOffRank inquiry.world.putOff))
      inquiry.world.newRound := by
  have steps := kept.falls.steps_le
  simp only [backlogAll, after.now] at steps
  have same_steps : sizes inquiry.world.newRound.now
      ((ofInquiry inquiry).arouse (putOffRank inquiry.world.putOff)).running =
        sizes world.now inquiry.children := by
    show sizes inquiry.world.now (arouseAll _ inquiry.children) = _
    rw [sizes_arouse, after.now]
  have next : Open depth ((ofInquiry inquiry).arouse (putOffRank inquiry.world.putOff))
      inquiry.world.newRound :=
    ⟨standing_newRound kept.standing, by rw [same_steps]; exact steps.trans opened.bound, rfl⟩
  refine ⟨next, kept.refines.trans (arouseAll_refines _ _),
    next.budget_lt inquiry.world.newRound_credit ?_⟩
  rw [same_steps]
  -- the allowance is used up at the end, so if no step was taken there was none at the beginning
  have used : inquiry.world.credit = 0 := by
    rcases after.used with same | used
    · exact absurd (same.trans opened.putOff) some
    · exact used
  rcases kept.falls with less | ⟨same, credit, -⟩
  · simp only [backlogAll, after.now] at less
    exact .inl less
  · simp only [backlogAll, after.now] at same credit
    exact .inr ⟨same, .inl (credit.symm.trans used)⟩

/-- What is restless is asked again, and something has been done before. -/
theorem leadsTo_of_restless (opened : Open depth roster world) (after : world.Later inquiry.world)
    (kept : Kept false true world roster.agenda roster.running inquiry)
    (none : inquiry.world.putOff = []) :
    LeadsTo depth roster world (ofInquiry inquiry) inquiry.world.newRound := by
  have steps := kept.falls.steps_le
  simp only [backlogAll, after.now] at steps
  have lasts : inquiry.world.Lasts inquiry.world.newRound :=
    ⟨rfl, fun _ member => absurd member (none ▸ List.not_mem_nil)⟩
  have next : Open depth (ofInquiry inquiry) inquiry.world.newRound :=
    ⟨kept.standing.later lasts, by
      show sizes inquiry.world.now inquiry.children ≤ depth
      rw [after.now]
      exact steps.trans opened.bound, rfl⟩
  refine ⟨next, kept.refines, next.budget_lt inquiry.world.newRound_credit ?_⟩
  show sizes inquiry.world.now inquiry.children < _ ∨ _
  rcases kept.falls with less | ⟨same, -, -, fewer⟩
  · exact .inl less
  · exact .inr ⟨same, .inr (fewer rfl)⟩

/-- Where all that is left waits on the clock a jump to the next deadline is a step. -/
theorem leadsTo_of_quiet (opened : Open depth roster world) (after : world.Later inquiry.world)
    (kept : Kept false busy world roster.agenda roster.running inquiry)
    (none : inquiry.world.putOff = []) (calm : inquiry.restless = false) {time : Nat}
    (next : deadlines? inquiry.children = some time) :
    LeadsTo depth roster world ((ofInquiry inquiry).arouse (dueRank time))
      (inquiry.world.advanceTo time) := by
  have quiet := kept.quiet calm
  obtain ⟨⟨call, member, deadline⟩, -⟩ := deadlines?_eq_some next
  obtain ⟨child, present, own⟩ := mem_allCalls.mp member
  obtain ⟨-, postponed | ⟨turn, before⟩⟩ := (quiet child present).settled call own
  · rw [none] at postponed
    cases postponed
  -- the callback with the next deadline waits on the clock, so its wait ends with the jump
  · have now : (inquiry.world.advanceTo time).now = time := by
      show max inquiry.world.now time = time
      omega
    have ends : call.EndsBetween inquiry.world.now time :=
      ⟨turn, before, Nat.le_of_eq deadline⟩
    have step := sizes_lt_of_ends ends inquiry.children member
    have steps := kept.falls.steps_le
    simp only [backlogAll, after.now] at steps step
    have less : sizes (inquiry.world.advanceTo time).now
        ((ofInquiry inquiry).arouse (dueRank time)).running < sizes world.now roster.running := by
      rw [now]
      show sizes time (arouseAll _ inquiry.children) < _
      rw [sizes_arouse]
      omega
    have opened' : Open depth ((ofInquiry inquiry).arouse (dueRank time))
        (inquiry.world.advanceTo time) :=
      ⟨standing_advanceTo kept.standing quiet none now, (Nat.le_of_lt less).trans opened.bound, rfl⟩
    exact ⟨opened', kept.refines.trans (arouseAll_refines _ _),
      opened'.budget_lt inquiry.world.newRound_credit (.inl less)⟩

/-- Somebody waits where all is quiet and not all have finished. -/
theorem deadlines?_of_quiet (standing : Standing false world roster.agenda roster.running)
    (quiet : ∀ child ∈ roster.running, Quiet world child)
    (unfinished : roster.running.all isFinished = false) :
    ∃ time, deadlines? roster.running = some time := by
  obtain ⟨child, member, open_child⟩ := List.all_eq_false.mp unfinished
  obtain ⟨call, own⟩ := (standing.ready child member).exists_call (quiet child member)
    (Bool.eq_false_iff.mpr open_child)
  exact Option.ne_none_iff_exists'.mp
    (deadlines?_ne_none (mem_allCalls.mpr ⟨child, member, own⟩))

/-- A run has a next round unless all its futures have finished. -/
theorem next?_spec (opened : Open depth roster world) (after : world.Later inquiry.world)
    (kept : Kept false inquiry.restless world roster.agenda roster.running inquiry) :
    match (ofInquiry inquiry).next? inquiry.restless inquiry.world with
    | none => ∀ child ∈ inquiry.children, child.isFinished = true
    | some (next, world') => LeadsTo depth roster world next world' := by
  unfold next?
  by_cases finished : (ofInquiry inquiry).running.all isFinished = true
  · rw [if_pos finished]
    exact List.all_eq_true.mp finished
  · rw [if_neg finished]
    by_cases none : inquiry.world.putOff = []
    · rw [if_neg (by simp [none])]
      cases restless : inquiry.restless with
      | true =>
          rw [restless] at kept
          exact leadsTo_of_restless opened after kept none
      | false =>
          obtain ⟨time, next⟩ := deadlines?_of_quiet kept.standing (kept.quiet restless)
            (Bool.eq_false_iff.mpr finished)
          rw [if_neg Bool.false_ne_true, next]
          exact leadsTo_of_quiet opened after kept none restless next
    · rw [if_pos (by simp [none])]
      exact leadsTo_of_putOff opened after kept none

end Round

/-! ## All rounds -/

/-- With enough rounds all futures finish. -/
theorem settle_finishes (rounds : Nat) (opened : Open depth roster world)
    (enough : roster.budget depth world < rounds) :
    RefinesAll roster.running (settle depth rounds roster world).1.running ∧
      ∀ child ∈ (settle depth rounds roster world).1.running, child.isFinished = true := by
  induction rounds generalizing roster world with
  | zero => cases enough
  | succ rounds ih =>
      obtain ⟨after, kept⟩ := opened.inquired
      have spec := next?_spec opened after kept
      unfold ofInquiry at spec
      simp only [settle]
      split
      · rename_i last
        rw [last] at spec
        exact ⟨kept.refines, spec⟩
      · rename_i next world' goes_on
        rw [goes_on] at spec
        have less := spec.less
        obtain ⟨refines, finished⟩ := ih spec.opened (by omega)
        exact ⟨spec.refines.trans refines, finished⟩

theorem open_ofFutures (futures : List (Future L)) (none : world.putOff = []) :
    Open (Future.sizes futures) (ofFutures futures) world where
  standing := .of_fresh false world futures
  bound := Nat.le_of_eq (sizes_map_fresh world.now futures)
  putOff := none

end Roster

namespace Future

/-- What a future may come to: its value if it has one, or one of its failures. -/
structure ComesTo (future : Future L) (answer : Except PathError Doc) : Prop where
  value : answer.toOption = future.outcome.toOption
  failure : ∀ error, answer = .error error → error ∈ future.failures

theorem ComesTo.of_refines {future : Future L} {running : Running L}
    (refines : Refines (.fresh future) running) (finished : running.isFinished = true) :
    ∃ answer, running.result? = some answer ∧ future.ComesTo answer := by
  cases running with
  | finished answer =>
      refine ⟨answer, rfl, refines.expected, fun error fails => refines.failures ?_⟩
      subst fails
      exact List.mem_singleton.mpr rfl
  | fresh _ | waiting _ _ | joining _ _ _ => cases finished

theorem comesTo_of_refinesAll {futures : List (Future L)} {running : List (Running L)}
    (refines : RefinesAll (futures.map .fresh) running)
    (finished : ∀ child ∈ running, child.isFinished = true) :
    List.Forall₂ (fun future result => ∃ answer, result = some answer ∧ future.ComesTo answer)
      futures (running.map result?) := by
  induction futures generalizing running with
  | nil =>
      cases refines
      exact .nil
  | cons future rest ih =>
      cases refines with
      | cons head tail =>
          exact .cons (ComesTo.of_refines head (finished _ List.mem_cons_self))
            (ih tail fun child member => finished child (List.mem_cons_of_mem _ member))

/-- All futures that run together come to their ends, whatever the waiting times. -/
theorem runTogether_comesTo (futures : List (Future L)) (world : World L)
    (none : world.putOff = []) :
    List.Forall₂ (fun future result => ∃ answer, result = some answer ∧ future.ComesTo answer)
      futures (runTogether futures world).1 := by
  have opened := Roster.open_ofFutures futures none
  have enough : (Roster.ofFutures futures).budget (sizes futures) world <
      enoughRounds (sizes futures) := Nat.lt_succ_of_le opened.budget_le
  obtain ⟨refines, finished⟩ := Roster.settle_finishes _ opened enough
  exact comesTo_of_refinesAll refines finished

theorem run_comesTo (future : Future L) (world : World L) (none : world.putOff = []) :
    ∃ answer, (future.run world).1 = some answer ∧ future.ComesTo answer := by
  have together := runTogether_comesTo [future] world none
  unfold run
  generalize runTogether [future] world = ended at together
  obtain ⟨results, world'⟩ := ended
  cases together with
  | cons head tail =>
      cases tail
      exact head

end Future

end Waypoint
