import Mathlib
import Waypoint.Proofs.Future.Order

/-!
# The first round of a join of callbacks

A join of callbacks starts them in index order, and all in its first round, unless it has failed
before it comes to the last one. So the callbacks that start in a run are the first ones, in index
order, and the `n`-th of them waits for the `n`-th time (`Future.starts_of_callbacks`).
-/

namespace Waypoint

variable {L : Type}

namespace Running

/-! ## Asking callbacks that have not begun -/

/-- A future starts one callback when it is first asked, and is not restless after that. -/
def Starts (ask : Running L → World L → Visit L) (child : Future L) (label : L) : Prop :=
  ∀ world : World L, (ask (fresh child) world).restless = false ∧
    Entry.starts (ask (fresh child) world).world.log = Entry.starts world.log ++ [label]

theorem poll_callback (depth : Nat) (label : L) (trace : Trace Notice Doc) :
    Starts (poll (depth + 2)) (.callback label trace) label := by
  intro world
  obtain ⟨notices, result⟩ := trace
  rw [Future.callback, poll]
  by_cases instant : world.nextWait = 0
  · simp only [instant, if_true]
    cases result <;>
      simp [Future.ofResult, poll, World.recordStart, World.recordEnd, Entry.starts_append]
  · simp only [instant, if_false, pollCall]
    split <;> simp [World.recordStart, World.postpone, World.putOnClock, Entry.starts_append]

/-- The callbacks of some labels were asked in turn, up to a failure. -/
def AskedInTurn (labels : List L) (world : World L) (inquiry : Inquiry L) : Prop :=
  ∃ asked, asked <+: labels ∧
    Entry.starts inquiry.world.log = Entry.starts world.log ++ asked ∧
    (inquiry.failure = none → asked = labels)

variable {ask : Running L → World L → Visit L}

namespace AskedInTurn

variable {label : L} {labels : List L} {world world' : World L} {inquiry : Inquiry L}

theorem nil (world : World L) (same : inquiry.world = world) : AskedInTurn [] world inquiry :=
  ⟨[], List.prefix_refl _, by rw [same, List.append_nil], fun _ => rfl⟩

/-- A child fails, and those after it are not asked. -/
theorem of_failure (starts : Entry.starts inquiry.world.log = Entry.starts world.log ++ [label])
    {error : PathError} (fails : inquiry.failure = some error) (labels : List L) :
    AskedInTurn (label :: labels) world inquiry :=
  ⟨[label], ⟨labels, rfl⟩, starts, fun none => by cases fails.symm.trans none⟩

theorem cons (starts : Entry.starts world'.log = Entry.starts world.log ++ [label])
    (later : AskedInTurn labels world' inquiry) :
    AskedInTurn (label :: labels) world inquiry := by
  obtain ⟨asked, front, same, all⟩ := later
  refine ⟨label :: asked, (List.prefix_cons_inj label).mpr front, ?_, fun none => ?_⟩
  · rw [same, starts, List.append_assoc]
    rfl
  · rw [all none]

end AskedInTurn

/-- All children are asked in index order. -/
theorem askAll_inTurn (calls : List (Future L × L))
    (starts : ∀ call ∈ calls, Starts ask call.1 call.2) (world : World L) :
    AskedInTurn (calls.map Prod.snd) world
      (askAll ask true (calls.map fun call => fresh call.1) world) := by
  induction calls generalizing world with
  | nil => exact .nil world rfl
  | cons call rest ih =>
      obtain ⟨child, label⟩ := call
      rw [List.forall_mem_cons] at starts
      obtain ⟨calm, begun⟩ := starts.1 world
      have later := ih starts.2 (ask (fresh child) world).world
      simp only [List.map_cons, askAll]
      split
      · exact .of_failure begun rfl _
      · exact .cons begun later

/-- The children in the queue are asked from its front, where those before them have been asked.
There are enough asks for all of them, since a child that finishes takes an ask away from those
after it and one from the queue. -/
theorem askUntil_inTurn (calls : List (Future L × L))
    (starts : ∀ call ∈ calls, Starts ask call.1 call.2) {unfinished asks : Nat}
    (enough : calls.length ≤ asks) (within : asks ≤ unfinished + 1) (asked : List (Running L))
    (world : World L) :
    AskedInTurn (calls.map Prod.snd) world
      (askUntil ask true (askQueued ask true unfinished) asks false
        (asked ++ calls.map fun call => fresh call.1)
        (List.range' asked.length calls.length) world) := by
  induction calls generalizing unfinished asks asked world with
  | nil => cases asks <;> exact .nil world rfl
  | cons call rest ih =>
      obtain ⟨child, label⟩ := call
      rw [List.forall_mem_cons] at starts
      obtain ⟨calm, begun⟩ := starts.1 world
      rw [List.length_cons] at enough
      obtain ⟨fewer, rfl⟩ : ∃ fewer, asks = fewer + 1 := ⟨asks - 1, by omega⟩
      have here : (asked ++ fresh child :: rest.map fun call => fresh call.1)[asked.length]? =
          some (fresh child) := by
        simp
      have set : (asked ++ fresh child :: rest.map fun call => fresh call.1).set asked.length
          (ask (fresh child) world).running =
            asked ++ [(ask (fresh child) world).running] ++ rest.map fun call => fresh call.1 := by
        rw [List.set_append_right _ _ (Nat.le_refl _), Nat.sub_self]
        simp
      have front : (asked ++ [(ask (fresh child) world).running]).length = asked.length + 1 :=
        List.length_append
      rw [List.map_cons, List.map_cons, List.length_cons, List.range'_succ, askUntil]
      simp only [here, set, calm, Bool.false_eq_true, if_false, ← front]
      split
      · split
        · exact .of_failure begun rfl _
        · cases unfinished with
          | zero =>
              obtain rfl : rest = [] := List.length_eq_zero_iff.mp (by omega)
              exact .cons begun (.nil _ rfl)
          | succ unfinished =>
              rw [askQueued]
              exact .cons begun (ih starts.2 (by omega) (Nat.le_refl _) _ _)
      · exact .cons begun (ih starts.2 (by omega) (by omega) _ _)

/-- Both kinds of join ask their children in index order. -/
theorem inquire_inTurn (calls : List (Future L × L))
    (starts : ∀ call ∈ calls, Starts ask call.1 call.2) (world : World L) :
    AskedInTurn (calls.map Prod.snd) world
      (inquire ask true (calls.map fun call => fresh call.1) (.ofCount calls.length) world) := by
  unfold Agenda.ofCount
  split
  · exact askAll_inTurn calls starts world
  · have unfinished : ((calls.map fun call => fresh call.1).countP
        fun child : Running L => !child.isFinished) = calls.length := by
      rw [List.countP_map, List.countP_eq_length]
      exact fun _ _ => rfl
    rw [inquire, unfinished, List.range_eq_range']
    cases count : calls.length with
    | zero =>
        obtain rfl := List.length_eq_zero_iff.mp count
        exact .nil world rfl
    | succ unfinished =>
        rw [askQueued, ← count]
        exact askUntil_inTurn calls starts (Nat.le_refl _) (Nat.le_of_eq count) [] world

end Running

namespace Future

/-- The callbacks of some labels. -/
def callbacks (calls : List (L × Trace Notice Doc)) : List (Future L) :=
  calls.map fun (label, trace) => .callback label trace

variable {calls : List (L × Trace Notice Doc)} {rebuild : List Doc → Doc}

/-- The first visit of a join of callbacks starts all of them, or some and is the last one. -/
theorem poll_callbacks (depth : Nat) (deep : calls = [] ∨ 2 ≤ depth) (world : World L) :
    let visit := Running.poll (depth + 1)
      (.fresh (.join (callbacks calls) fun values => .done (rebuild values))) world
    ∃ asked, asked <+: calls.map Prod.fst ∧
      Entry.starts visit.world.log = Entry.starts world.log ++ asked ∧
      (visit.running.isFinished = false → asked = calls.map Prod.fst) := by
  intro visit
  let children : List (Future L × L) := calls.map fun call => (.callback call.1 call.2, call.1)
  have starts : ∀ child ∈ children, Running.Starts (Running.poll depth) child.1 child.2 := by
    intro child member
    obtain ⟨call, present, rfl⟩ := List.mem_map.mp member
    rcases deep with none | deep
    · rw [none] at present
      cases present
    · obtain ⟨more, rfl⟩ := Nat.exists_eq_add_of_le' deep
      exact Running.poll_callback more call.1 call.2
  have labels : children.map Prod.snd = calls.map Prod.fst := by simp [children]
  have inquired := Running.inquire_inTurn children starts world
  have asked : visit = Running.pollJoin (Running.poll depth)
      (children.map fun child => .fresh child.1) (.ofCount children.length)
      (fun values => .done (rebuild values)) world := by
    simp [visit, Running.poll, callbacks, children, Function.comp_def]
  rw [asked, Running.pollJoin]
  generalize Running.inquire _ _ _ _ _ = inquiry at inquired ⊢
  rw [labels] at inquired
  obtain ⟨asked, front, same, all⟩ := inquired
  refine ⟨asked, front, ?_⟩
  cases failure : inquiry.failure with
  | some error => exact ⟨same, fun unfinished => by cases unfinished⟩
  | none =>
      cases Running.values? inquiry.children with
      | none => exact ⟨same, fun _ => all failure⟩
      | some values =>
          refine ⟨?_, fun _ => all failure⟩
          rw [← same]
          cases depth <;> rfl

/-- The callbacks are a traversal. -/
theorem traversal_callbacks :
    (join (callbacks calls) fun values => .done (rebuild values)).Traversal := by
  refine .join rebuild fun child member => ?_
  obtain ⟨call, -, rfl⟩ := List.mem_map.mp member
  exact .call call.1 call.2.log call.2.result

theorem labels_callbacks :
    (join (callbacks calls) fun values => .done (rebuild values)).labels = calls.map Prod.fst := by
  rw [labels]
  induction calls with
  | nil => rfl
  | cons call rest ih => exact congrArg (call.1 :: ·) ih

theorem two_lt_size_callbacks :
    calls = [] ∨ 2 < (join (callbacks calls) fun values => .done (rebuild values)).size := by
  cases calls with
  | nil => exact .inl rfl
  | cons call rest =>
      refine .inr ?_
      have inside : 0 < (callback call.1 call.2).size := size_pos _
      rw [size_join]
      show 2 < (callback call.1 call.2).size + sizes (callbacks rest) + _ + 2
      omega

/-- A run goes on from the first visit of its future, and is over where that is the last one. -/
theorem run_first_visit (future : Future L) (world : World L) :
    let visit := Running.poll future.size (.fresh future) world
    visit.world.Precedes (future.run world).2 ∧
      (visit.running.isFinished = true → (future.run world).2 = visit.world) := by
  intro visit
  let roster := Roster.ofFutures [future]
  let rounds := (sizes [future] + 1) * (sizes [future] + 1)
  have size : sizes [future] = future.size := by simp [sizes]
  have ran : (future.run world).2 = (roster.settle future.size (rounds + 1) world).2 := by
    rw [← size]
    rfl
  have first : Running.inquire (Running.poll future.size) false roster.running roster.agenda
      world = ⟨[visit.running], .all, none, visit.world, visit.restless⟩ := by
    show Running.askAll (Running.poll future.size) false [.fresh future] world = _
    simp [visit, Running.askAll, Inquiry.behind, Inquiry.after]
  have later := Roster.settle_front (Roster.settle_precedes future.size rounds) roster world
  rw [ran]
  rw [first] at later
  refine ⟨later, fun finished => ?_⟩
  rw [Roster.settle, first]
  simp [Roster.next?, finished]

/-- Of the callbacks of a join the first ones start, in index order. -/
theorem starts_of_callbacks [DecidableEq L] (nodup : (calls.map Prod.fst).Nodup)
    (delays : List Nat) :
    Entry.starts ((join (callbacks calls) fun values => .done (rebuild values)).report delays).log
      <+: calls.map Prod.fst := by
  let future : Future L := join (callbacks calls) fun values => .done (rebuild values)
  have traversal : future.Traversal := traversal_callbacks
  have labels : future.labels = calls.map Prod.fst := labels_callbacks
  obtain ⟨depth, size⟩ := Nat.exists_eq_add_one_of_ne_zero future.size_pos.ne'
  have deep : calls = [] ∨ 2 < future.size := two_lt_size_callbacks
  obtain ⟨asked, front, starts, all⟩ : ∃ asked, asked <+: calls.map Prod.fst ∧ _ ∧ _ :=
    poll_callbacks depth (deep.imp_right fun deep => by omega) (World.fresh delays)
  obtain ⟨⟨-, more, later, -⟩, last⟩ := run_first_visit future (World.fresh delays)
  rw [size] at later last
  change Entry.starts (future.run (World.fresh delays)).2.log <+: _
  generalize Running.poll (depth + 1) (.fresh future) (World.fresh delays) = visit
    at starts all later last
  cases finished : visit.running.isFinished with
  | true =>
      rw [last finished, starts]
      exact front
  | false =>
      -- all have started in the first round, and none starts twice
      obtain rfl := all finished
      rw [starts] at later
      have once := starts_nodup traversal (labels ▸ nodup) delays
      change (Entry.starts (future.run (World.fresh delays)).2.log).Nodup at once
      rw [later] at once
      have none_more : more = [] := by
        refine List.eq_nil_iff_forall_not_mem.mpr fun label member => ?_
        have started : label ∈ Entry.starts (future.report delays).log :=
          later ▸ List.mem_append_right _ member
        exact List.disjoint_of_nodup_append once
          (labels ▸ mem_starts traversal started) member
      rw [later, none_more, List.append_nil]
      exact List.prefix_refl _

end Future

end Waypoint
