import Mathlib
import Waypoint.Fold.Rule

/-!
# The visits of a fold

A fold that has ended has visited finitely many indices, one in each round (`Fold.Visit`). Each
visit takes one step on the element at its index and asks once whether to go on; where the answer is
yes the index moves, and the next visit begins with the accumulator that the step has left
(`Fold.Visit.Leads`). What is on record of the fold is what is on record of its visits, one after
another (`Fold.Account`).
-/

namespace Waypoint

namespace Fold

variable {α β ε : Type}

/-- A round of a fold: when it begins, at which index, and with what. -/
structure Visit (α β : Type) where
  round : Nat
  time : Nat
  index : Nat
  element : α
  accumulator : β

namespace Visit

variable (fold : Fold α β ε) (waits : Nat → Nat)

/-- The step that is taken. -/
def step (visit : Visit α β) : Recorded ε Notice β :=
  fold.step visit.accumulator visit.element

/-- The time at which the step has ended. -/
def finish (visit : Visit α β) : Nat :=
  visit.time + waits visit.round

/-- The record of a visit. After a step that fails nothing is asked, and the index only moves after
the answer was yes. -/
def record (visit : Visit α β) : List (Entry (Event α β)) :=
  stepRecord visit.index visit.element visit.time (visit.finish waits) (visit.step fold).log ++
    match (visit.step fold).result with
    | .error _ => []
    | .ok accumulator =>
      if fold.goesOn visit.round visit.index accumulator then
        [.call (.checked visit.index accumulator true),
          .call (.moved visit.index (fold.next visit.index))]
      else [.call (.checked visit.index accumulator false)]

/-- One visit follows another: the step has left the accumulator, and the fold was told to go on. -/
structure Leads (visit following : Visit α β) : Prop where
  round : following.round = visit.round + 1
  time : following.time = visit.finish waits
  index : following.index = fold.next visit.index
  accumulator : (visit.step fold).result = .ok following.accumulator
  goesOn : fold.goesOn visit.round visit.index following.accumulator = true

/-- The fold ends with a visit: its step has failed, it is told to stop, or the following index is
outside the sequence. -/
structure Ends (sequence : List α) (visit : Visit α β) (run : Run α β ε) : Prop where
  elapsed : run.elapsed = visit.finish waits
  result : run.result = (visit.step fold).result
  stops : ∀ accumulator, run.result = .ok accumulator →
    fold.goesOn visit.round visit.index accumulator = false ∨
      sequence.length ≤ fold.next visit.index

end Visit

/-- The visits of a fold that has ended, given how it began. -/
structure Account (fold : Fold α β ε) (waits : Nat → Nat) (sequence : List α)
    (round time index : Nat) (accumulator : β) (visits : List (Visit α β)) (run : Run α β ε) :
    Prop where
  inside : ∀ visit ∈ visits, sequence[visit.index]? = some visit.element
  begins : ∀ first, visits.head? = some first →
    first.round = round ∧ first.time = time ∧ first.index = index ∧
      first.accumulator = accumulator
  chain : visits.IsChain (Visit.Leads fold waits)
  record : run.log = visits.flatMap (Visit.record fold waits)
  ends : ∀ last, visits.getLast? = some last → last.Ends fold waits sequence run
  none : visits = [] → sequence.length ≤ index ∧ run.result = .ok accumulator ∧ run.elapsed = time

variable {fold : Fold α β ε} {waits : Nat → Nat} {sequence : List α} {visits : List (Visit α β)}
  {visit : Visit α β} {run : Run α β ε} {round time index : Nat} {accumulator left : β}

namespace Account

/-- Outside the sequence nothing is visited. -/
theorem nil (outside : sequence.length ≤ index) :
    Account fold waits sequence round time index accumulator [] ⟨.ok accumulator, [], time⟩ where
  inside := List.forall_mem_nil _
  begins := fun _ head => by cases head
  chain := .nil
  record := rfl
  ends := fun _ last => by cases last
  none := fun _ => ⟨outside, rfl, rfl⟩

/-- A visit is the only one. -/
theorem last (inside : sequence[visit.index]? = some visit.element)
    (ends : visit.Ends fold waits sequence run) (record : run.log = visit.record fold waits) :
    Account fold waits sequence visit.round visit.time visit.index visit.accumulator [visit]
      run where
  inside := List.forall_mem_singleton.mpr inside
  begins := by
    intro first head
    obtain rfl := Option.some.inj head
    exact ⟨rfl, rfl, rfl, rfl⟩
  chain := List.isChain_singleton visit
  record := by rw [List.flatMap_singleton, record]
  ends := by
    intro last same
    obtain rfl := Option.some.inj same
    exact ends
  none := fun none => by cases none

/-- A visit comes before those of the following rounds. -/
theorem cons (inside : sequence[visit.index]? = some visit.element)
    (passed : (visit.step fold).result = .ok left)
    (goes_on : fold.goesOn visit.round visit.index left = true)
    (account : Account fold waits sequence (visit.round + 1) (visit.finish waits)
      (fold.next visit.index) left visits run) :
    Account fold waits sequence visit.round visit.time visit.index visit.accumulator
      (visit :: visits) (run.after (visit.record fold waits)) where
  inside := List.forall_mem_cons.mpr ⟨inside, account.inside⟩
  begins := by
    intro first head
    obtain rfl := Option.some.inj head
    exact ⟨rfl, rfl, rfl, rfl⟩
  chain := by
    cases visits with
    | nil => exact List.isChain_singleton visit
    | cons following rest =>
        obtain ⟨round, time, index, accumulator⟩ := account.begins following rfl
        refine List.isChain_cons_cons.mpr ⟨⟨round, time, index, ?_, ?_⟩, account.chain⟩
        · rw [accumulator, passed]
        · rw [accumulator, goes_on]
  record := by
    rw [List.flatMap_cons, ← account.record]
    rfl
  ends := by
    intro last same
    cases visits with
    | nil =>
        -- the index is outside where another visit would begin
        obtain rfl := Option.some.inj same
        obtain ⟨outside, result, elapsed⟩ := account.none rfl
        exact ⟨elapsed, result.trans passed.symm, fun _ _ => .inr outside⟩
    | cons following rest =>
        rw [List.getLast?_cons_cons] at same
        obtain ⟨elapsed, result, stops⟩ := account.ends last same
        exact ⟨elapsed, result, stops⟩
  none := fun none => by cases none

/-- Nothing is visited only where the first index is outside. -/
theorem eq_nil_iff
    (account : Account fold waits sequence round time index accumulator visits run) :
    visits = [] ↔ sequence.length ≤ index := by
  constructor
  · intro none
    exact (account.none none).1
  · intro outside
    cases visits with
    | nil => rfl
    | cons first rest =>
        have inside := account.inside first List.mem_cons_self
        rw [(account.begins first rfl).2.2.1] at inside
        have := (List.getElem?_eq_some_iff.mp inside).1
        omega

/-- The indices are those that the index moves to, one after another. -/
theorem indices (account : Account fold waits sequence round time index accumulator visits run) :
    visits.map Visit.index = List.iterate fold.next index visits.length := by
  have begins : ∀ first, visits.head? = some first → first.index = index :=
    fun first head => (account.begins first head).2.2.1
  have chain := account.chain
  clear account
  induction visits generalizing index with
  | nil => rfl
  | cons visit rest ih =>
      have here : visit.index = index := begins visit rfl
      have later : rest.map Visit.index = List.iterate fold.next (fold.next index) rest.length := by
        refine ih (fun following head => ?_) chain.tail
        obtain ⟨others, rfl⟩ := List.head?_eq_some_iff.mp head
        rw [(List.isChain_cons_cons.mp chain).1.index, here]
      rw [List.map_cons, later, here]
      rfl

end Account

section Round

variable {fold : Fold α β ε} {waits : Nat → Nat} {sequence : List α} {index : Nat} {element : α}
  {accumulator left : β} {notices : List Notice} {error : ε}

/-- A step that fails ends the fold. -/
theorem runFrom_of_error (inside : sequence[index]? = some element)
    (fails : fold.step accumulator element = ⟨notices, .error error⟩) (rounds round now : Nat) :
    fold.runFrom waits sequence (rounds + 1) round index now accumulator =
      some ⟨.error error, stepRecord index element now (now + waits round) notices,
        now + waits round⟩ := by
  rw [runFrom]
  simp only [inside, fails]

/-- A fold that is not told to go on ends. -/
theorem runFrom_of_stop (inside : sequence[index]? = some element)
    (gives : fold.step accumulator element = ⟨notices, .ok left⟩) (rounds round now : Nat)
    (stops : fold.goesOn round index left = false) :
    fold.runFrom waits sequence (rounds + 1) round index now accumulator =
      some ⟨.ok left, stepRecord index element now (now + waits round) notices ++
        [.call (.checked index left false)], now + waits round⟩ := by
  rw [runFrom]
  simp only [inside, gives, stops, Bool.false_eq_true, if_false]

/-- A fold that is told to go on continues at the next index. -/
theorem runFrom_of_goesOn (inside : sequence[index]? = some element)
    (gives : fold.step accumulator element = ⟨notices, .ok left⟩) (rounds round now : Nat)
    (told : fold.goesOn round index left = true) :
    fold.runFrom waits sequence (rounds + 1) round index now accumulator =
      (fold.runFrom waits sequence rounds (round + 1) (fold.next index) (now + waits round)
        left).map (Run.after (stepRecord index element now (now + waits round) notices ++
          [.call (.checked index left true), .call (.moved index (fold.next index))])) := by
  rw [runFrom]
  simp only [inside, gives, told, if_true]

end Round

/-- What the first of the rounds does from which on a fold has ended: the index is outside, the
visit is the last one, or another one follows in the rounds that are left. -/
theorem runFrom_eq_some {rounds round index now : Nat}
    (ended : fold.runFrom waits sequence rounds round index now accumulator = some run) :
    (sequence.length ≤ index ∧ run = ⟨.ok accumulator, [], now⟩) ∨
    ∃ element, sequence[index]? = some element ∧
      let visit : Visit α β := ⟨round, now, index, element, accumulator⟩
      (visit.Ends fold waits sequence run ∧ run.log = visit.record fold waits) ∨
      ∃ fewer left later, rounds = fewer + 1 ∧ (visit.step fold).result = .ok left ∧
        fold.goesOn round index left = true ∧
        fold.runFrom waits sequence fewer (round + 1) (fold.next index) (visit.finish waits) left =
          some later ∧
        run = later.after (visit.record fold waits) := by
  cases at_index : sequence[index]? with
  | none =>
      rw [runFrom, at_index] at ended
      exact .inl ⟨List.getElem?_eq_none_iff.mp at_index, (Option.some.inj ended).symm⟩
  | some element =>
      refine .inr ⟨element, rfl, ?_⟩
      intro visit
      cases rounds with
      | zero =>
          rw [runFrom, at_index] at ended
          cases ended
      | succ fewer =>
          rcases comes : fold.step accumulator element with ⟨notices, error | left⟩
          · rw [runFrom_of_error at_index comes] at ended
            obtain rfl := Option.some.inj ended
            have step : visit.step fold = ⟨notices, .error error⟩ := comes
            refine .inl ⟨⟨rfl, by rw [step], fun _ same => by cases same⟩, ?_⟩
            rw [Visit.record, step, List.append_nil]
            rfl
          have step : visit.step fold = ⟨notices, .ok left⟩ := comes
          cases told : fold.goesOn round index left with
          | true =>
              -- the record of this visit stands before that of the following ones
              rw [runFrom_of_goesOn at_index comes fewer round now told] at ended
              obtain ⟨later, rest, rfl⟩ := Option.map_eq_some_iff.mp ended
              refine .inr ⟨fewer, left, later, rfl, by rw [step], told, rest, ?_⟩
              simp only [Visit.record, step, visit, told, if_true]
              rfl
          | false =>
              rw [runFrom_of_stop at_index comes fewer round now told] at ended
              obtain rfl := Option.some.inj ended
              refine .inl ⟨⟨rfl, by rw [step], ?_⟩, ?_⟩
              · intro accumulator same
                obtain rfl := Except.ok.inj same
                exact .inl told
              · simp only [Visit.record, step, visit, told, Bool.false_eq_true, if_false]
                rfl

/-- The visits of a fold that has ended from a round on. -/
theorem runFrom_account {rounds now : Nat}
    (ended : fold.runFrom waits sequence rounds round index now accumulator = some run) :
    ∃ visits, Account fold waits sequence round now index accumulator visits run := by
  induction rounds generalizing round index now accumulator run with
  | zero =>
      rcases runFrom_eq_some ended with
        ⟨outside, rfl⟩ | ⟨element, inside, ⟨ends, record⟩ | ⟨fewer, _, _, more, _⟩⟩
      · exact ⟨[], .nil outside⟩
      · exact ⟨_, .last inside ends record⟩
      · cases more
  | succ rounds ih =>
      rcases runFrom_eq_some ended with
        ⟨outside, rfl⟩ |
        ⟨element, inside, ⟨ends, record⟩ | ⟨fewer, left, later, same, passed, goes_on, rest, rfl⟩⟩
      · exact ⟨[], .nil outside⟩
      · exact ⟨_, .last inside ends record⟩
      · obtain rfl := Nat.succ.inj same
        obtain ⟨visits, account⟩ := ih rest
        exact ⟨_, .cons inside passed goes_on account⟩

end Fold

/-- A fold that has ended has visited finitely many indices: the first one, the one that the index
moves to from there, and so on, all of them inside the sequence. Its record is that of the visits in
this order. At each index one step is taken, on the element there and the accumulator that the step
before has left. After a step that succeeds it is asked once whether to go on, and the index moves
only after the answer was yes. The result is that of the last step; if it has not failed, the fold
was told to stop or the following index is outside. Where the first index is outside nothing is
called, and the result is the accumulator from the beginning. -/
theorem fold_visits_indices_in_order {α β ε : Type} (fold : Fold α β ε) (waits : Nat → Nat)
    (sequence : List α) (rounds start : Nat) (initial : β) (run : Fold.Run α β ε)
    (ended : fold.run waits sequence rounds start initial = some run) :
    ∃ visits : List (Fold.Visit α β),
      visits.map Fold.Visit.index = List.iterate fold.next start visits.length ∧
      (∀ visit ∈ visits, sequence[visit.index]? = some visit.element) ∧
      (∀ first, visits.head? = some first →
        first.round = 0 ∧ first.time = 0 ∧ first.accumulator = initial) ∧
      visits.IsChain (Fold.Visit.Leads fold waits) ∧
      run.log = visits.flatMap (Fold.Visit.record fold waits) ∧
      (∀ last, visits.getLast? = some last → last.Ends fold waits sequence run) ∧
      (visits = [] ↔ sequence.length ≤ start) ∧
      (visits = [] → run = ⟨.ok initial, [], 0⟩) := by
  obtain ⟨visits, account⟩ := Fold.runFrom_account ended
  refine ⟨visits, account.indices, account.inside, fun first head => ?_, account.chain,
    account.record, account.ends, account.eq_nil_iff, fun none => ?_⟩
  · obtain ⟨round, time, -, accumulator⟩ := account.begins first head
    exact ⟨round, time, accumulator⟩
  · subst none
    obtain ⟨-, result, elapsed⟩ := account.none rfl
    have record : run.log = [] := account.record
    obtain ⟨_, _, _⟩ := run
    simp only at result elapsed record
    rw [result, elapsed, record]

/-- The index goes back and forth and comes to the first place again, where the fold is told to
stop. -/
theorem fold_visits_one_index_twice :
    let fold := Fold.ofRules 3 (.asksBelow 4) (.table [2, 0, 1]) .sum
    let sequence : List Doc := [.int 10, .int 20, .int 30]
    ∃ run, fold.run (waitOf [5, 0]) sequence 10 1 (.int 0) = some run ∧
      run.result = .ok (.int 80) ∧ run.elapsed = 10 ∧
      run.steps = [.started (.int 20) 0, .ended (.int 20) 5, .started (.int 10) 5,
        .ended (.int 10) 5, .started (.int 30) 5, .ended (.int 30) 10, .started (.int 20) 10,
        .ended (.int 20) 10] ∧
      ∃ visits : List (Fold.Visit Doc Doc),
        visits.map Fold.Visit.index = List.iterate fold.next 1 visits.length ∧
        visits.IsChain (Fold.Visit.Leads fold (waitOf [5, 0])) ∧
        run.log = visits.flatMap (Fold.Visit.record fold (waitOf [5, 0])) ∧
        ∀ last, visits.getLast? = some last → last.Ends fold (waitOf [5, 0]) sequence run := by
  intro fold sequence
  have shown : (fold.run (waitOf [5, 0]) sequence 10 1 (.int 0)).map
      (fun run => (run.result, run.elapsed, run.steps)) =
        some (.ok (.int 80), 10, [.started (.int 20) 0, .ended (.int 20) 5, .started (.int 10) 5,
          .ended (.int 10) 5, .started (.int 30) 5, .ended (.int 30) 10, .started (.int 20) 10,
          .ended (.int 20) 10]) := by decide +kernel
  obtain ⟨run, ended, parts⟩ := Option.map_eq_some_iff.mp shown
  simp only [Prod.mk.injEq] at parts
  obtain ⟨result, elapsed, steps⟩ := parts
  obtain ⟨visits, indices, -, -, chain, record, last, -, -⟩ :=
    fold_visits_indices_in_order fold (waitOf [5, 0]) sequence 10 1 (.int 0) run ended
  exact ⟨run, ended, result, elapsed, steps, visits, indices, chain, record, last⟩

end Waypoint
