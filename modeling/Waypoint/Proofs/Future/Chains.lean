import Waypoint.Proofs.Future.InTurn
import Waypoint.Proofs.Future.Shares

/-!
# Chains

A chain is a future that calls back some number of times, one callback after the other, and comes
to a value (`Future.IsChain`). Chains that run side by side do not get in one another's way: between
any two moves each of them stands somewhere in the record of its own callbacks back to back
(`Running.Stands`), and none is behind that record when the clock moves on. So each callback starts
at the instant at which the one before it in its chain ends.
-/

namespace Waypoint

open Fold (backToBack total backToBack_append total_append)

variable {L : Type}

/-- A future that calls back with some labels one after another and comes to a value. -/
inductive Future.IsChain : List L → Doc → Future L → Prop
  | done (value : Doc) : IsChain [] value (.done value)
  | call (label : L) (notices : List Notice) {rest : List L} {value : Doc} {next : Future L}
      (tail : IsChain rest value next) : IsChain (label :: rest) value (.call label notices next)

namespace Running

/-- Where the chain with the tag `k` stands that began at some time and is to come to a value after
callbacks with the labels of a plan: what is on record of it, with what it waits for, is a record of
callbacks back to back, and the others of the plan are still to come. -/
inductive Stands (k begin now : Nat) (plan : List L) (value : Doc) (share : Share L) :
    Running (Nat × L) → Prop
  | fresh {future : Future (Nat × L)} {rest : List L}
      (chain : future.IsChain (rest.map (Prod.mk k)) value)
      (left : plan = share.waited.map Prod.fst ++ rest)
      (record : share.events = backToBack begin share.waited)
      (time : begin + total share.waited = now) :
      Stands k begin now plan value share (.fresh future)
  | waiting {call : PendingCall (Nat × L)} {next : Future (Nat × L)} {label : L} {rest : List L}
      (own : call.label = (k, label)) (chain : next.IsChain (rest.map (Prod.mk k)) value)
      (left : plan = share.waited.map Prod.fst ++ rest)
      (record : share.events ++ [.ended label call.deadline] = backToBack begin share.waited)
      (time : begin + total share.waited = call.deadline) (inTime : now ≤ call.deadline) :
      Stands k begin now plan value share (.waiting call next)
  | finished (all : plan = share.waited.map Prod.fst)
      (record : share.events = backToBack begin share.waited)
      (time : begin + total share.waited ≤ now) :
      Stands k begin now plan value share (.finished (.ok value))

/-- A visit of a chain takes it further, and no other one. -/
structure Advanced (first k begin : Nat) (plan : List L) (value : Doc) (world : World (Nat × L))
    (visit : Visit (Nat × L)) : Prop where
  stands : visit.running.Stands k begin visit.world.now plan value (visit.world.share first k)
  keeps : world.Keeps first k visit.world

section Poll

variable {first k begin : Nat} {plan : List L} {value : Doc} {world world' : World (Nat × L)}
  {visit : Visit (Nat × L)}

/-- What comes after something that takes a chain further. -/
theorem Advanced.after (advanced : Advanced first k begin plan value world' visit)
    (keeps : world.Keeps first k world') : Advanced first k begin plan value world visit :=
  ⟨advanced.stands, keeps.trans advanced.keeps⟩

/-- The next callback of a chain starts, and the chain waits for it. -/
theorem Stands.started {label : L} {next : Future (Nat × L)} {rest : List L}
    (counts : world.Counts first) (number : Nat) (notices : List Notice)
    (chain : next.IsChain (rest.map (Prod.mk k)) value)
    (left : plan = (world.share first k).waited.map Prod.fst ++ label :: rest)
    (record : (world.share first k).events = backToBack begin (world.share first k).waited)
    (time : begin + total (world.share first k).waited = world.now) :
    (Running.waiting ⟨number, none, world.now + world.nextWait, (k, label), notices⟩ next).Stands
      k begin (world.recordStart (k, label)).now plan value
      ((world.recordStart (k, label)).share first k) := by
  rw [World.share_recordStart counts]
  refine .waiting rfl chain ?_ ?_ ?_ (Nat.le_add_right _ _)
  · simp [Share.start, left]
  · simp [Share.start, record, backToBack_append, backToBack, time]
  · rw [Share.start, total_append, ← Nat.add_assoc, time]
    rfl

/-- The callback that a chain waits for ends at its deadline. -/
theorem Stands.ended {call : PendingCall (Nat × L)} {next : Future (Nat × L)}
    (counts : world.Counts first)
    (stands : (Running.waiting call next).Stands k begin world.now plan value
      (world.share first k))
    (due : call.deadline ≤ world.now) :
    (Running.fresh next).Stands k begin world.now plan value
        ((world.recordEnd call.label call.notices).share first k) ∧
      world.Keeps first k (world.recordEnd call.label call.notices) := by
  cases stands with
  | waiting own chain left record time inTime =>
      have now : call.deadline = world.now := Nat.le_antisymm due inTime
      rw [own, World.share_recordEnd]
      rw [now] at record
      exact ⟨.fresh chain left record (time.trans now), .recordEnd counts _ call.notices⟩

theorem pollCall_advanced {proceed : World (Nat × L) → Visit (Nat × L)}
    {call : PendingCall (Nat × L)} {next : Future (Nat × L)}
    (goesOn : ∀ world : World (Nat × L), world.Counts first →
      (fresh next).Stands k begin world.now plan value (world.share first k) →
      Advanced first k begin plan value world (proceed world))
    (counts : world.Counts first)
    (stands : (waiting call next).Stands k begin world.now plan value (world.share first k)) :
    Advanced first k begin plan value world (pollCall proceed call next world) := by
  unfold pollCall
  split
  · exact ⟨stands, .of_eq counts rfl rfl rfl rfl⟩
  · split
    · refine ⟨?_, .of_eq counts rfl rfl rfl rfl⟩
      cases stands with
      | waiting own chain left record time inTime =>
          exact .waiting own chain left record time inTime
    · split
      · rename_i due
        have spent : world.Keeps first k world.spend := .of_eq counts rfl rfl rfl rfl
        obtain ⟨stands, keeps⟩ := Stands.ended spent.counts stands due
        exact (goesOn _ keeps.counts stands).after (spent.trans keeps)
      · exact ⟨stands, .refl counts⟩

theorem poll_advanced (depth : Nat) (running : Running (Nat × L)) (world : World (Nat × L))
    (counts : world.Counts first)
    (stands : running.Stands k begin world.now plan value (world.share first k)) :
    Advanced first k begin plan value world (poll depth running world) := by
  induction depth generalizing running world with
  | zero => exact ⟨stands, .refl counts⟩
  | succ depth ih =>
      cases stands with
      | finished all record time => exact ⟨.finished all record time, .refl counts⟩
      | waiting own chain left record time inTime =>
          exact pollCall_advanced (fun world counts stands => ih (fresh _) world counts stands)
            counts (.waiting own chain left record time inTime)
      | @fresh future rest chain left record time =>
          cases rest with
          | nil =>
              cases chain
              rw [List.append_nil] at left
              exact ⟨.finished left record (Nat.le_of_eq time), .refl counts⟩
          | cons label rest =>
              cases chain with
              | @call _ notices _ _ next tail =>
                  have begun : world.Keeps first k (world.recordStart (k, label)) :=
                    .recordStart counts label
                  have stands := Stands.started counts world.started notices tail left record
                    time
                  rw [poll]
                  split
                  · rename_i immediate
                    have due : world.now + world.nextWait ≤ world.now := by omega
                    obtain ⟨stands, keeps⟩ := stands.ended begun.counts due
                    exact (ih (fresh next) _ keeps.counts stands).after (begun.trans keeps)
                  · have advanced := pollCall_advanced (fun world counts stands =>
                      ih (fresh next) world counts stands) begun.counts stands
                    exact advanced.after begun

end Poll

/-! ## Chains side by side -/

/-- Chains that began together, each with the tag of its position, and where they stand. One of them
has come as far as the clock. -/
structure Abreast (first begin : Nat) (plans : List (List L × Doc))
    (children : List (Running (Nat × L))) (world : World (Nat × L)) : Prop where
  counts : world.Counts first
  length : children.length = plans.length
  stands : ∀ (k : Nat) (child : Running (Nat × L)), children[k]? = some child →
    ∃ plan value, plans[k]? = some (plan, value) ∧
      child.Stands k begin world.now plan value (world.share first k)
  reached : world.now = begin ∨
    ∃ k < plans.length, world.now ≤ begin + total (world.share first k).waited

section Abreast

variable {first begin depth : Nat} {plans : List (List L × Doc)}
  {children children' : List (Running (Nat × L))} {world world' : World (Nat × L)}

theorem Turns.abreast (turns : Turns (poll depth) depth children world children' world')
    (abreast : Abreast first begin plans children world) :
    Abreast first begin plans children' world' := by
  induction turns with
  | none children world => exact abreast
  | @next children children' world world' index child at_index ready bound begun rest ih =>
      obtain ⟨plan, value, planned, stands⟩ := abreast.stands index child at_index
      obtain ⟨stands', keeps⟩ := poll_advanced depth child world abreast.counts stands
      refine ih ⟨keeps.counts, ?_, ?_, ?_⟩
      · rw [List.length_set, abreast.length]
      · intro k other at_k
        rw [getElem?_set_of_at at_index] at at_k
        split at at_k
        · rename_i same
          obtain rfl := Option.some.inj at_k
          subst same
          exact ⟨plan, value, planned, stands'⟩
        · rename_i differs
          rw [keeps.now, keeps.others k differs]
          exact abreast.stands k other at_k
      · rw [keeps.now]
        refine abreast.reached.imp_right fun ⟨k, inside, le⟩ => ⟨k, inside, ?_⟩
        by_cases same : k = index
        · subst same
          have grows := keeps.grows
          omega
        · rwa [keeps.others k same]

/-- No chain is called for in a join of its own. -/
theorem Abreast.arouseAll (abreast : Abreast first begin plans children world)
    (rank : PendingCall (Nat × L) → Option Nat) : arouseAll rank children = children := by
  rw [arouseAll_eq_map]
  refine (List.map_congr_left fun child member => ?_).trans (List.map_id children)
  obtain ⟨k, at_k⟩ := List.mem_iff_getElem?.mp member
  obtain ⟨plan, value, -, stands⟩ := abreast.stands k child at_k
  cases stands <;> rfl

/-- A new round makes no difference. -/
theorem Abreast.newRound (abreast : Abreast first begin plans children world) :
    Abreast first begin plans children world.newRound :=
  ⟨abreast.counts, abreast.length, abreast.stands, abreast.reached⟩

/-- The clock moves to the deadline of the callback that ends next, so it passes none. -/
theorem Abreast.advanceTo (abreast : Abreast first begin plans children world)
    (begun : ∀ child ∈ children, child.isFresh = false) {time : Nat}
    (next : deadlines? children = some time) :
    Abreast first begin plans children (world.advanceTo time) := by
  obtain ⟨⟨call, member, deadline⟩, least⟩ := deadlines?_eq_some next
  refine ⟨abreast.counts, abreast.length, ?_, .inr ?_⟩
  · intro k child at_k
    obtain ⟨plan, value, planned, stands⟩ := abreast.stands k child at_k
    refine ⟨plan, value, planned, ?_⟩
    cases stands with
    | fresh => cases begun _ (List.mem_of_getElem? at_k)
    | @waiting call next label rest own chain left record time inTime =>
        have soonest := least call (mem_allCalls.mpr
          ⟨_, List.mem_of_getElem? at_k, List.mem_singleton_self call⟩)
        exact .waiting own chain left record time (Nat.max_le.mpr ⟨inTime, soonest⟩)
    | finished all record time => exact .finished all record (time.trans (Nat.le_max_left _ _))
  · obtain ⟨child, present, own⟩ := mem_allCalls.mp member
    obtain ⟨k, at_k⟩ := List.mem_iff_getElem?.mp present
    obtain ⟨plan, value, planned, stands⟩ := abreast.stands k child at_k
    refine ⟨k, (List.getElem?_eq_some_iff.mp planned).1, ?_⟩
    cases stands with
    | fresh | finished => cases own
    | waiting _ chain left record ends inTime =>
        obtain rfl := List.mem_singleton.mp own
        show max world.now time ≤ begin + total (world.share first k).waited
        rw [ends]
        exact Nat.max_le.mpr ⟨inTime, Nat.le_of_eq deadline.symm⟩

/-- A chain that has finished has come to its value, with all its callbacks on record. -/
theorem Stands.of_finished {k now : Nat} {plan : List L} {value : Doc} {share : Share L}
    {running : Running (Nat × L)} (stands : running.Stands k begin now plan value share)
    (finished : running.isFinished = true) :
    running.result? = some (.ok value) ∧ share.waited.map Prod.fst = plan ∧
      share.events = backToBack begin share.waited ∧ begin + total share.waited ≤ now := by
  cases stands with
  | fresh | waiting => cases finished
  | finished all record time => exact ⟨rfl, all.symm, record, time⟩

/-- When all chains have finished they have come to their values, and the clock stands at the end of
the longest one. -/
theorem Abreast.of_finished (abreast : Abreast first begin plans children world)
    (finished : ∀ child ∈ children, child.isFinished = true) :
    children.map result? = plans.map (fun plan => some (.ok plan.2)) ∧
      (∀ k plan value, plans[k]? = some (plan, value) →
        (world.share first k).waited.map Prod.fst = plan ∧
          (world.share first k).events = backToBack begin (world.share first k).waited) ∧
      world.now = begin +
        ((List.range plans.length).map fun k =>
          total (world.share first k).waited).max?.getD 0 := by
  have each : ∀ k plan value, plans[k]? = some (plan, value) → ∃ child, children[k]? = some child ∧
      child.result? = some (.ok value) ∧ (world.share first k).waited.map Prod.fst = plan ∧
      (world.share first k).events = backToBack begin (world.share first k).waited ∧
      begin + total (world.share first k).waited ≤ world.now := by
    intro k plan value planned
    have inside : k < children.length := abreast.length ▸ (List.getElem?_eq_some_iff.mp planned).1
    obtain ⟨plan', value', planned', stands⟩ :=
      abreast.stands k _ (List.getElem?_eq_getElem inside)
    obtain ⟨rfl, rfl⟩ := Prod.mk.inj (Option.some.inj (planned'.symm.trans planned))
    exact ⟨_, List.getElem?_eq_getElem inside,
      stands.of_finished (finished _ (List.getElem_mem inside))⟩
  refine ⟨List.ext_getElem? fun k => ?_, fun k plan value planned => ?_, ?_⟩
  · rw [List.getElem?_map, List.getElem?_map]
    cases planned : plans[k]? with
    | none =>
        have outside := abreast.length ▸ List.getElem?_eq_none_iff.mp planned
        rw [List.getElem?_eq_none outside]
        rfl
    | some plan =>
        obtain ⟨child, at_k, result, -⟩ := each k plan.1 plan.2 planned
        rw [at_k, Option.map_some, Option.map_some, result]
  · obtain ⟨child, -, -, all, record, -⟩ := each k plan value planned
    exact ⟨all, record⟩
  · have passed : ∀ k ∈ List.range plans.length,
        begin + total (world.share first k).waited ≤ world.now := by
      intro k member
      obtain ⟨child, -, -, -, -, time⟩ :=
        each k _ _ (List.getElem?_eq_getElem (List.mem_range.mp member))
      exact time
    refine Future.now_of_ended passed (abreast.reached.imp_right fun ⟨k, inside, le⟩ => ?_)
    exact ⟨k, List.mem_range.mpr inside,
      Nat.le_antisymm le (passed k (List.mem_range.mpr inside))⟩

end Abreast

end Running

namespace Roster

open Running

variable {first begin depth : Nat} {plans : List (List L × Doc)} {roster roster' : Roster (Nat × L)}
  {world world' : World (Nat × L)} {restless : Bool}

/-- Between two rounds chains stay abreast. The clock only moves on when all of them have begun to
wait. -/
theorem next?_abreast (next : roster.next? restless world = some (roster', world'))
    (ordered : roster.agenda.InOrder roster.running)
    (abreast : Abreast first begin plans roster.running world)
    (quiet : restless = false → ∀ child ∈ roster.running, Quiet world child) :
    roster'.agenda.InOrder roster'.running ∧
      Abreast first begin plans roster'.running world' := by
  rcases next?_eq_some next with ⟨rfl, rfl⟩ | ⟨rfl, rfl⟩ | ⟨-, calm, time, deadline, rfl, rfl⟩
  · refine ⟨inOrder_summon _ ordered, ?_⟩
    rw [Roster.arouse, abreast.arouseAll]
    exact abreast.newRound
  · exact ⟨ordered, abreast.newRound⟩
  · refine ⟨inOrder_summon _ ordered, ?_⟩
    rw [Roster.arouse, abreast.arouseAll]
    exact abreast.advanceTo (fun child member => (quiet calm child member).begun) deadline

/-- Chains stay abreast in a run. -/
theorem settle_abreast (rounds : Nat) (opened : Open depth roster world)
    (ordered : roster.agenda.InOrder roster.running)
    (abreast : Abreast first begin plans roster.running world) :
    Abreast first begin plans (settle depth rounds roster world).1.running
      (settle depth rounds roster world).2 := by
  induction rounds generalizing roster world with
  | zero => exact abreast
  | succ rounds ih =>
      obtain ⟨after, kept⟩ := opened.inquired
      obtain ⟨⟨children', turns, same⟩, ordered'⟩ := inquire_asked (poll_sound depth)
        (poll_begins depth) opened.standing opened.bound ordered
      have abreast' := turns.abreast abreast
      obtain rfl := same opened.passes
      have spec := next?_spec opened after kept
      unfold ofInquiry at spec
      simp only [settle]
      split
      · exact abreast'
      · rename_i next world' goes_on
        rw [goes_on] at spec
        obtain ⟨ordered'', later⟩ := next?_abreast goes_on (ordered' opened.passes) abreast'
          kept.quiet
        exact ih spec.opened ordered'' later

end Roster

namespace Future

variable {plans : List (List L × Doc)} {futures : List (Future (Nat × L))}

/-- The futures are chains with plans, each with the tag of its position. -/
def AreChains (plans : List (List L × Doc)) (futures : List (Future (Nat × L))) : Prop :=
  futures.length = plans.length ∧ ∀ (k : Nat) (future : Future (Nat × L)),
    futures[k]? = some future → ∃ plan value, plans[k]? = some (plan, value) ∧
      future.IsChain (plan.map (Prod.mk k)) value

theorem AreChains.abreast (chains : AreChains plans futures) {world : World (Nat × L)}
    (empty : world.log = []) :
    Running.Abreast world.started world.now plans (futures.map .fresh) world where
  counts := by rw [World.Counts, empty]; rfl
  length := by rw [List.length_map, chains.1]
  stands := by
    intro k child at_k
    rw [List.getElem?_map] at at_k
    obtain ⟨future, given, rfl⟩ := Option.map_eq_some_iff.mp at_k
    obtain ⟨plan, value, planned, chain⟩ := chains.2 k future given
    refine ⟨plan, value, planned, ?_⟩
    rw [World.share, empty]
    exact .fresh chain rfl rfl rfl
  reached := .inl rfl

/-- Chains that run together come to their values. What is on record of each of them are its
callbacks in order, back to back, each with the waiting time that it takes by its place among all
that start. The run takes as long as the longest of the chains. -/
theorem runTogether_chains (chains : AreChains plans futures) {world : World (Nat × L)}
    (none : world.putOff = []) (empty : world.log = []) :
    let ended := runTogether futures world
    let waits (k : Nat) := Entry.waitsOf world.delays world.started k ended.2.log
    ended.1 = plans.map (fun plan => some (.ok plan.2)) ∧
      (∀ k plan value, plans[k]? = some (plan, value) → (waits k).map Prod.fst = plan ∧
        Entry.eventsOf k ended.2.log = backToBack world.now (waits k)) ∧
      ended.2.now =
        world.now + ((List.range plans.length).map fun k => total (waits k)).max?.getD 0 := by
  intro ended waits
  have opened := Roster.open_ofFutures futures none
  have enough : (Roster.ofFutures futures).budget (sizes futures) world <
      enoughRounds (sizes futures) := Nat.lt_succ_of_le opened.budget_le
  obtain ⟨-, finished⟩ := Roster.settle_finishes _ opened enough
  have abreast : Running.Abreast world.started world.now plans _ ended.2 :=
    Roster.settle_abreast (enoughRounds (sizes futures)) opened (Agenda.inOrder_ofCount _ _)
      (chains.abreast empty)
  have delays : ended.2.delays = world.delays :=
    (Roster.settle_precedes (sizes futures) (enoughRounds (sizes futures))
      (Roster.ofFutures futures) world).delays
  have share (k : Nat) : ended.2.share world.started k =
      ⟨Entry.eventsOf k ended.2.log, waits k⟩ := by
    rw [World.share, delays]
  obtain ⟨results, records, now⟩ := abreast.of_finished finished
  simp only [share] at records now
  exact ⟨results, records, now⟩

/-! ## One chain -/

/-- One chain after another is a chain. -/
theorem IsChain.andThen {first : Future L} {next : Doc → Future L} {labels more : List L}
    {value result : Doc} (chain : first.IsChain labels value)
    (later : (next value).IsChain more result) :
    (first.andThen next).IsChain (labels ++ more) result := by
  induction chain with
  | done value =>
      rw [Future.andThen]
      exact later
  | call label notices tail ih =>
      rw [Future.andThen]
      exact .call label notices (ih later)

theorem IsChain.relabel {M : Type} {labels : List L} {value : Doc} {future : Future L}
    (chain : future.IsChain labels value) (f : L → M) :
    (future.relabel f).IsChain (labels.map f) value := by
  induction chain with
  | done value =>
      rw [Future.relabel]
      exact .done value
  | call label notices tail ih =>
      rw [Future.relabel]
      exact .call (f label) notices ih

/-- A chain runs its callbacks one after another, and takes as long as they do together. -/
theorem run_chain {future : Future L} {labels : List L} {value : Doc}
    (chain : future.IsChain labels value) {world : World L} (none : world.putOff = [])
    (empty : world.log = []) :
    (future.run world).1 = some (.ok value) ∧
      Entry.calls (future.run world).2.log =
        backToBack world.now (withWaits world.delays world.started labels) ∧
      (future.run world).2.now =
        world.now + total (withWaits world.delays world.started labels) := by
  -- the only chain of a run, with the tag of its position
  have chains : AreChains [(labels, value)] [future.relabel (Prod.mk 0)] := by
    refine ⟨rfl, fun k other at_k => ?_⟩
    obtain ⟨rfl, rfl⟩ : k = 0 ∧ future.relabel (Prod.mk 0) = other := by
      cases k with
      | zero => exact ⟨rfl, Option.some.inj at_k⟩
      | succ k => cases at_k
    exact ⟨labels, value, rfl, chain.relabel _⟩
  have tagged := runTogether_relabel (f := Prod.mk 0) [future] world
  have empty' : (world.relabel (Prod.mk 0)).log = [] := by rw [World.relabel, empty]; rfl
  obtain ⟨results, records, now⟩ := runTogether_chains chains
    (show (world.relabel (Prod.mk 0)).putOff = [] from none) empty'
  obtain ⟨all, record⟩ := records 0 labels value rfl
  rw [List.map_singleton] at tagged
  rw [tagged] at results now all record
  have waits : Entry.waitsOf world.delays world.started 0
      ((runTogether [future] world).2.relabel (Prod.mk 0)).log =
        withWaits world.delays world.started
          (Entry.starts (runTogether [future] world).2.log) :=
    Entry.waitsOf_relabel _ _ 0 _
  have starts : Entry.starts (runTogether [future] world).2.log = labels := by
    rw [← all]
    exact (map_fst_withWaits _ _ _).symm.trans (congrArg _ waits.symm)
  rw [starts] at waits
  refine ⟨?_, ?_, ?_⟩
  · show (runTogether [future] world).1.head?.join = _
    rw [results]
    rfl
  · refine (Entry.eventsOf_relabel 0 _).symm.trans (record.trans ?_)
    exact congrArg _ waits
  · exact now.trans (congrArg (fun steps => world.now + total steps) waits)

end Future

end Waypoint
