import Waypoint.Proofs.Future.OnTime
import Waypoint.Proofs.Future.Rounds
import Waypoint.Proofs.Future.Starts

/-!
# The order of starts

A run adds starts to its record and never takes any away (`World.Precedes`), so waits that agree
with the whole record agree with each part of it (`World.Agrees.of_precedes`). A callback starts
once: the callbacks on record and those that have not started become no more (`Running.Spends`).
-/

namespace Waypoint

variable {L : Type}

namespace World

/-- Callbacks may have started from one world to another. -/
structure Precedes (world later : World L) : Prop where
  delays : later.delays = world.delays
  starts : ∃ labels, Entry.starts later.log = Entry.starts world.log ++ labels ∧
    later.started = world.started + labels.length

/-- The callbacks on record wait for the times that they have been given. -/
structure Agrees (wait : L → Nat) (world : World L) : Prop where
  started : world.started = (Entry.starts world.log).length
  waits : ∀ n label, (Entry.starts world.log)[n]? = some label →
    wait label = waitOf world.delays n

namespace Precedes

variable {world later : World L}

/-- No callback has started. -/
theorem of_eq (delays : later.delays = world.delays)
    (starts : Entry.starts later.log = Entry.starts world.log)
    (started : later.started = world.started) : world.Precedes later :=
  ⟨delays, [], by rw [starts, List.append_nil], started⟩

theorem refl (world : World L) : world.Precedes world :=
  of_eq rfl rfl rfl

theorem trans {first second third : World L} (one : first.Precedes second)
    (two : second.Precedes third) : first.Precedes third := by
  obtain ⟨delays, labels, starts, started⟩ := one
  obtain ⟨delays', labels', starts', started'⟩ := two
  refine ⟨delays'.trans delays, labels ++ labels', ?_, ?_⟩
  · rw [starts', starts, List.append_assoc]
  · rw [started', started, List.length_append, Nat.add_assoc]

theorem recordStart (label : L) (world : World L) : world.Precedes (world.recordStart label) :=
  ⟨rfl, [label], by simp [World.recordStart], rfl⟩

theorem recordEnd (label : L) (notices : List Notice) (world : World L) :
    world.Precedes (world.recordEnd label notices) :=
  of_eq rfl (by simp [World.recordEnd]) rfl

end Precedes

/-- What agrees with a record agrees with an earlier one. -/
theorem Agrees.of_precedes {wait : L → Nat} {world later : World L} (agrees : later.Agrees wait)
    (precedes : world.Precedes later) : world.Agrees wait := by
  obtain ⟨started, waits⟩ := agrees
  obtain ⟨delays, labels, starts, added⟩ := precedes
  rw [starts] at started waits
  rw [delays] at waits
  refine ⟨?_, fun n label at_n => waits n label ?_⟩
  · rw [List.length_append] at started
    omega
  · obtain ⟨inside, -⟩ := List.getElem?_eq_some_iff.mp at_n
    rw [List.getElem?_append_left inside]
    exact at_n

/-- The callback that starts next waits for the next time. -/
theorem Agrees.nextWait {wait : L → Nat} {world : World L} {label : L}
    (agrees : (world.recordStart label).Agrees wait) : wait label = world.nextWait := by
  obtain ⟨started, waits⟩ := agrees
  refine waits world.started label ?_
  simp only [recordStart, Entry.starts_append, Entry.starts_started, Entry.starts_nil,
    List.length_append, List.length_singleton] at started ⊢
  rw [List.getElem?_append_right (by omega)]
  simp [show world.started - (Entry.starts world.log).length = 0 by omega]

end World

namespace Running

variable {ask : Running L → World L → Visit L}

/-! ## Asking and the world -/

section World

variable {R : World L → World L → Prop} (refl : ∀ world, R world world)
  (trans : ∀ {first second third}, R first second → R second third → R first third)
  (each : ∀ running world, R world (ask running world).world)

include refl trans each

theorem askAll_world (strict : Bool) (children : List (Running L)) (world : World L) :
    R world (askAll ask strict children world).world := by
  fun_induction askAll ask strict children world with
  | case1 world => exact refl world
  | case2 world result rest ih => exact ih
  | case3 child rest world unfinished visit error ends is_strict => exact each child world
  | case4 child rest world unfinished visit passes ih => exact trans (each child world) ih

theorem askUntil_world (strict : Bool)
    {onward : List (Running L) → List Nat → World L → Inquiry L}
    (goesOn : ∀ children queue world, R world (onward children queue world).world)
    (asks : Nat) (warned : Bool) (children : List (Running L)) (queue : List Nat)
    (world : World L) :
    R world (askUntil ask strict onward asks warned children queue world).world := by
  fun_induction askUntil ask strict onward asks warned children queue world with
  | case1 | case2 => exact refl _
  | case3 asks warned children index queue world missing ih => exact ih
  | case4 | case6 => exact each _ _
  | case5 => exact trans (each _ _) (goesOn _ _ _)
  | case7 asks warned children index queue world child at_index visit children' unfinished restless
      first ih => exact trans (each child world) ih
  | case8 asks warned children index queue world child at_index visit children' unfinished calm
      ih => exact trans (each child world) ih

theorem askQueued_world (strict : Bool) (unfinished : Nat) (children : List (Running L))
    (queue : List Nat) (world : World L) :
    R world (askQueued ask strict unfinished children queue world).world := by
  induction unfinished generalizing children queue world with
  | zero => exact refl world
  | succ unfinished ih => exact askUntil_world refl trans each strict ih _ _ _ _ _

/-- What each visit does to the world is done by asking the children of a join. -/
theorem inquire_world (strict : Bool) (children : List (Running L)) (agenda : Agenda)
    (world : World L) : R world (inquire ask strict children agenda world).world := by
  cases agenda with
  | all => exact askAll_world refl trans each strict children world
  | queued queue => exact askQueued_world refl trans each strict _ children queue world

end World

theorem pollCall_precedes {proceed : World L → Visit L}
    (goesOn : ∀ world : World L, world.Precedes (proceed world).world) (call : PendingCall L)
    (next : Future L) (world : World L) :
    world.Precedes (pollCall proceed call next world).world := by
  unfold pollCall
  split
  · exact .of_eq rfl rfl rfl
  · split
    · exact .of_eq rfl rfl rfl
    · split
      · have spent : world.Precedes world.spend := .of_eq rfl rfl rfl
        exact (spent.trans (.recordEnd call.label call.notices world.spend)).trans (goesOn _)
      · exact .refl world

/-- The children of a join are asked first. -/
theorem pollJoin_front
    (each : ∀ (running : Running L) (world : World L), world.Precedes (ask running world).world)
    (children : List (Running L)) (agenda : Agenda) (next : List Doc → Future L)
    (world : World L) :
    (inquire ask true children agenda world).world.Precedes
      (pollJoin ask children agenda next world).world := by
  unfold pollJoin
  generalize inquire ask true children agenda world = inquiry
  cases failure : inquiry.failure with
  | some error =>
      simp only [failure]
      exact .refl _
  | none =>
      simp only [failure]
      cases values? inquiry.children with
      | none => exact .refl _
      | some values => exact each _ _

theorem pollJoin_precedes
    (each : ∀ (running : Running L) (world : World L), world.Precedes (ask running world).world)
    (children : List (Running L)) (agenda : Agenda) (next : List Doc → Future L)
    (world : World L) : world.Precedes (pollJoin ask children agenda next world).world :=
  (inquire_world World.Precedes.refl World.Precedes.trans each true children agenda world).trans
    (pollJoin_front each children agenda next world)

/-- The callback of a future starts first. -/
theorem poll_call_front {depth : Nat}
    (each : ∀ (running : Running L) (world : World L),
      world.Precedes (poll depth running world).world)
    (label : L) (notices : List Notice) (next : Future L) (world : World L) :
    (world.recordStart label).Precedes
      (poll (depth + 1) (fresh (.call label notices next)) world).world := by
  rw [poll]
  split
  · exact (World.Precedes.recordEnd label notices _).trans (each (fresh next) _)
  · exact pollCall_precedes (each (fresh next)) _ next _

theorem poll_precedes (depth : Nat) (running : Running L) (world : World L) :
    world.Precedes (poll depth running world).world := by
  induction depth generalizing running world with
  | zero => exact .refl world
  | succ depth ih =>
      cases running with
      | finished result => exact .refl world
      | waiting call next => exact pollCall_precedes (ih (fresh next)) call next world
      | joining children agenda next => exact pollJoin_precedes ih children agenda next world
      | fresh future =>
          cases future with
          | done value => exact .refl world
          | fail error => exact .refl world
          | call label notices next =>
              exact (World.Precedes.recordStart label world).trans
                (poll_call_front ih label notices next world)
          | join children next => exact pollJoin_precedes ih _ _ next world

end Running

/-! ## Callbacks that have not started -/

namespace Future

/-- Nothing happens after its callbacks and joins but that their values are put together. -/
inductive Traversal : Future L → Prop
  | atOnce (result : Except PathError Doc) : Traversal (.ofResult result)
  | call (label : L) (notices : List Notice) (result : Except PathError Doc) :
      Traversal (.call label notices (.ofResult result))
  | join {children : List (Future L)} (rebuild : List Doc → Doc)
      (each : ∀ child ∈ children, Traversal child) :
      Traversal (.join children fun values => .done (rebuild values))

theorem Finishes.traversal {wait : L → Nat} {future : Future L} {finish : Finish Doc}
    (finishes : future.Finishes wait finish) : future.Traversal := by
  induction finishes with
  | atOnce result => exact .atOnce result
  | call label notices result => exact .call label notices result
  | @join children elements rebuild length each ih =>
      refine .join rebuild fun child member => ?_
      obtain ⟨index, here⟩ := List.mem_iff_getElem?.mp member
      have inside : index < elements.length := length ▸ (List.getElem?_eq_some_iff.mp here).1
      exact ih elements[index] child (List.mem_of_getElem?
        (List.getElem?_zip_eq_some.mpr ⟨List.getElem?_eq_getElem inside, here⟩))

mutual

/-- The labels of the callbacks in a traversal. -/
def labels : Future L → List L
  | done _ => []
  | fail _ => []
  | call label _ _ => [label]
  | join children _ => allLabels children

def allLabels : List (Future L) → List L
  | [] => []
  | child :: rest => labels child ++ allLabels rest

end

theorem labels_ofResult (result : Except PathError Doc) :
    (ofResult result : Future L).labels = [] := by
  cases result <;> rfl

end Future

namespace Running

inductive Traversal : Running L → Prop
  | fresh {future : Future L} (traversal : future.Traversal) : Traversal (.fresh future)
  | waiting (call : PendingCall L) (result : Except PathError Doc) :
      Traversal (.waiting call (.ofResult result))
  | joining {children : List (Running L)} (agenda : Agenda) (rebuild : List Doc → Doc)
      (each : ∀ child ∈ children, Traversal child) :
      Traversal (.joining children agenda fun values => .done (rebuild values))
  | finished (result : Except PathError Doc) : Traversal (.finished result)

mutual

/-- The labels of the callbacks in a running traversal that have not started. -/
def labels : Running L → List L
  | fresh future => future.labels
  | waiting _ _ => []
  | joining children _ _ => allLabels children
  | finished _ => []

def allLabels : List (Running L) → List L
  | [] => []
  | child :: rest => labels child ++ allLabels rest

end

theorem allLabels_map_fresh (children : List (Future L)) :
    allLabels (children.map fresh) = Future.allLabels children := by
  induction children with
  | nil => rfl
  | cons child rest ih => rw [List.map_cons, allLabels, labels, ih, Future.allLabels]

end Running

/-- How often a label is on record or belongs to a callback that has not started. -/
def World.uses [DecidableEq L] (label : L) (labels : List L) (world : World L) : Nat :=
  (Entry.starts world.log).count label + labels.count label

namespace Running

variable [DecidableEq L] {children : List (Running L)} {index : Nat} {child : Running L}
  {world : World L} {ask : Running L → World L → Visit L} {strict : Bool}

theorem count_allLabels_set (label : L) (child' : Running L)
    (at_index : children[index]? = some child) :
    (allLabels (children.set index child')).count label + child.labels.count label =
      (allLabels children).count label + child'.labels.count label := by
  induction children generalizing index with
  | nil => cases at_index
  | cons first rest ih =>
      cases index with
      | zero =>
          obtain rfl : first = child := Option.some.inj at_index
          rw [List.set_cons_zero, allLabels, allLabels, List.count_append, List.count_append]
          omega
      | succ index =>
          have := ih at_index
          rw [List.set_cons_succ, allLabels, allLabels, List.count_append, List.count_append]
          omega

/-- A visit lets callbacks start that have not started, each of them once. -/
structure Spends (running : Running L) (world : World L) (visit : Visit L) : Prop where
  traversal : visit.running.Traversal
  uses : ∀ label, visit.world.uses label visit.running.labels ≤ world.uses label running.labels

/-- So does an inquiry. -/
structure SpendsAll (children : List (Running L)) (world : World L) (inquiry : Inquiry L) :
    Prop where
  traversal : ∀ child ∈ inquiry.children, child.Traversal
  uses : ∀ label,
    inquiry.world.uses label (allLabels inquiry.children) ≤ world.uses label (allLabels children)

theorem SpendsAll.refl (traversal : ∀ child ∈ children, child.Traversal) (agenda : Agenda)
    (failure : Option PathError) (world : World L) (restless : Bool) :
    SpendsAll children world ⟨children, agenda, failure, world, restless⟩ :=
  ⟨traversal, fun _ => Nat.le_refl _⟩

/-- A child is asked, then the others. -/
theorem SpendsAll.of_visit {visit : Visit L} {inquiry : Inquiry L}
    (at_index : children[index]? = some child) (spends : Spends child world visit)
    (rest : SpendsAll (children.set index visit.running) visit.world inquiry) :
    SpendsAll children world inquiry where
  traversal := rest.traversal
  uses := by
    intro label
    have own := spends.uses label
    have others := rest.uses label
    have counts := count_allLabels_set label visit.running at_index
    simp only [World.uses] at own others ⊢
    omega

omit [DecidableEq L] in
theorem traversal_set (traversal : ∀ child ∈ children, child.Traversal) {child' : Running L}
    (own : child'.Traversal) (index : Nat) :
    ∀ child ∈ children.set index child', child.Traversal := by
  intro other member
  rcases List.mem_or_eq_of_mem_set member with before | rfl
  · exact traversal other before
  · exact own

variable (each : ∀ (running : Running L) (world : World L), running.Traversal →
  Spends running world (ask running world))

include each

theorem askAll_spends (children : List (Running L)) (world : World L)
    (traversal : ∀ child ∈ children, child.Traversal) :
    SpendsAll children world (askAll ask strict children world) := by
  fun_induction askAll ask strict children world with
  | case1 world => exact .refl traversal _ _ _ _
  | case2 world result rest ih =>
      rw [List.forall_mem_cons] at traversal
      obtain ⟨all, uses⟩ := ih traversal.2
      exact ⟨List.forall_mem_cons.mpr ⟨traversal.1, all⟩, uses⟩
  | case3 child rest world unfinished visit error ends is_strict =>
      rw [List.forall_mem_cons] at traversal
      obtain ⟨own, uses⟩ := each child world traversal.1
      refine ⟨List.forall_mem_singleton.mpr own, fun label => ?_⟩
      have := uses label
      simp only [World.uses, allLabels, List.count_append, List.append_nil] at this ⊢
      exact Nat.le_trans this (by omega)
  | case4 child rest world unfinished visit passes ih =>
      rw [List.forall_mem_cons] at traversal
      have spends : Spends child world visit := each child world traversal.1
      obtain ⟨own, uses⟩ := spends
      obtain ⟨all, uses'⟩ := ih traversal.2
      refine ⟨List.forall_mem_cons.mpr ⟨own, all⟩, fun label => ?_⟩
      have one := uses label
      have two := uses' label
      simp only [World.uses, Inquiry.after, Inquiry.behind, allLabels, List.count_append]
        at one two ⊢
      omega

theorem askUntil_spends {onward : List (Running L) → List Nat → World L → Inquiry L}
    (goesOn : ∀ children queue world, (∀ child ∈ children, child.Traversal) →
      SpendsAll children world (onward children queue world))
    (asks : Nat) (warned : Bool) (children : List (Running L)) (queue : List Nat)
    (world : World L) (traversal : ∀ child ∈ children, child.Traversal) :
    SpendsAll children world (askUntil ask strict onward asks warned children queue world) := by
  fun_induction askUntil ask strict onward asks warned children queue world with
  | case1 | case2 => exact .refl traversal _ _ _ _
  | case3 asks warned children index queue world missing ih => exact ih traversal
  | case4 asks warned children index queue world child at_index visit children' finished error next
      is_strict =>
      have spends := each child world (traversal child (List.mem_of_getElem? at_index))
      exact .of_visit at_index spends
        (.refl (traversal_set traversal spends.traversal index) _ _ _ _)
  | case5 asks warned children index queue world child at_index visit children' finished passes =>
      have spends := each child world (traversal child (List.mem_of_getElem? at_index))
      obtain ⟨all, uses⟩ := goesOn _ queue visit.world
        (traversal_set traversal spends.traversal index)
      exact .of_visit at_index spends ⟨all, uses⟩
  | case6 asks children index queue world child at_index visit children' unfinished restless =>
      have spends := each child world (traversal child (List.mem_of_getElem? at_index))
      exact .of_visit at_index spends
        (.refl (traversal_set traversal spends.traversal index) _ _ _ _)
  | case7 asks warned children index queue world child at_index visit children' unfinished restless
      first ih =>
      have spends := each child world (traversal child (List.mem_of_getElem? at_index))
      obtain ⟨all, uses⟩ := ih (traversal_set traversal spends.traversal index)
      exact .of_visit at_index spends ⟨all, uses⟩
  | case8 asks warned children index queue world child at_index visit children' unfinished calm
      ih =>
      have spends := each child world (traversal child (List.mem_of_getElem? at_index))
      exact .of_visit at_index spends (ih (traversal_set traversal spends.traversal index))

theorem askQueued_spends (unfinished : Nat) (children : List (Running L)) (queue : List Nat)
    (world : World L) (traversal : ∀ child ∈ children, child.Traversal) :
    SpendsAll children world (askQueued ask strict unfinished children queue world) := by
  induction unfinished generalizing children queue world with
  | zero => exact .refl traversal _ _ _ _
  | succ unfinished ih => exact askUntil_spends each ih _ _ _ _ _ traversal

theorem inquire_spends (strict : Bool) (children : List (Running L)) (agenda : Agenda)
    (world : World L) (traversal : ∀ child ∈ children, child.Traversal) :
    SpendsAll children world (inquire ask strict children agenda world) := by
  cases agenda with
  | all => exact askAll_spends each children world traversal
  | queued queue => exact askQueued_spends each _ children queue world traversal

theorem pollJoin_spends (children : List (Running L)) (agenda : Agenda)
    (rebuild : List Doc → Doc) (world : World L)
    (traversal : ∀ child ∈ children, child.Traversal) :
    Spends (joining children agenda fun values => .done (rebuild values)) world
      (pollJoin ask children agenda (fun values => .done (rebuild values)) world) := by
  obtain ⟨all, uses⟩ := inquire_spends each true children agenda world traversal
  unfold pollJoin
  generalize inquire ask true children agenda world = inquiry at all uses
  cases failure : inquiry.failure with
  | some error =>
      simp only [failure]
      refine ⟨.finished _, fun label => Nat.le_trans ?_ (uses label)⟩
      simp [World.uses, labels]
  | none =>
      simp only [failure]
      cases values? inquiry.children with
      | none => exact ⟨.joining _ rebuild all, uses⟩
      | some values =>
          have last := each (fresh (.done (rebuild values))) inquiry.world
            (.fresh (.atOnce (.ok (rebuild values))))
          refine ⟨last.traversal, fun label => (last.uses label).trans ?_⟩
          refine Nat.le_trans ?_ (uses label)
          simp [World.uses, labels, Future.labels]

omit each in
theorem pollCall_spends {proceed : World L → Visit L} {result : Except PathError Doc}
    (goesOn : ∀ world, Spends (fresh (.ofResult result)) world (proceed world))
    (call : PendingCall L) (world : World L) :
    Spends (waiting call (.ofResult result)) world
      (pollCall proceed call (.ofResult result) world) := by
  unfold pollCall
  split
  · exact ⟨.waiting _ result, fun _ => Nat.le_refl _⟩
  · split
    · exact ⟨.waiting _ result, fun _ => Nat.le_refl _⟩
    · split
      · obtain ⟨traversal, uses⟩ := goesOn (world.spend.recordEnd call.label call.notices)
        refine ⟨traversal, fun label => (uses label).trans (Nat.le_of_eq ?_)⟩
        simp [World.uses, World.recordEnd, World.spend, labels, Future.labels_ofResult]
      · exact ⟨.waiting _ result, fun _ => Nat.le_refl _⟩

omit each in
theorem poll_spends (depth : Nat) (running : Running L) (world : World L)
    (traversal : running.Traversal) : Spends running world (poll depth running world) := by
  -- whatever part of a traversal is asked, what is left of it is a traversal again
  induction depth generalizing running world with
  | zero => exact ⟨traversal, fun _ => Nat.le_refl _⟩
  | succ depth ih =>
      cases traversal with
      | finished result => exact ⟨.finished result, fun _ => Nat.le_refl _⟩
      | waiting call result =>
          exact pollCall_spends (fun world => ih _ world (.fresh (.atOnce result))) call world
      | joining agenda rebuild all => exact pollJoin_spends ih _ agenda rebuild world all
      | fresh traversal =>
          cases traversal with
          | atOnce result =>
              cases result with
              | ok value => exact ⟨.finished _, fun _ => Nat.le_refl _⟩
              | error error => exact ⟨.finished _, fun _ => Nat.le_refl _⟩
          | call label notices result =>
              have later (world : World L) := ih (fresh (.ofResult result)) world
                (.fresh (.atOnce result))
              -- the start puts on record the label that stood there
              have begun (other : L) : (world.recordStart label).uses other [] =
                  world.uses other [label] := by
                simp [World.uses, World.recordStart]
              rw [poll]
              split
              · obtain ⟨traversal, uses⟩ := later
                  ((world.recordStart label).recordEnd label notices)
                refine ⟨traversal, fun other => (uses other).trans (Nat.le_of_eq ?_)⟩
                refine Eq.trans ?_ (begun other)
                simp [World.uses, World.recordEnd, labels, Future.labels_ofResult]
              · obtain ⟨traversal, uses⟩ := pollCall_spends later
                  ⟨world.started, none, world.now + world.nextWait, label, notices⟩
                  (world.recordStart label)
                exact ⟨traversal, fun other => (uses other).trans (Nat.le_of_eq (begun other))⟩
          | @join children rebuild all =>
              obtain ⟨traversal, uses⟩ := pollJoin_spends ih (children.map fresh)
                (.ofCount children.length) rebuild world fun child member => by
                  obtain ⟨future, present, rfl⟩ := List.mem_map.mp member
                  exact .fresh (all future present)
              refine ⟨traversal, fun label => (uses label).trans (Nat.le_of_eq ?_)⟩
              exact congrArg (world.uses label ·) (allLabels_map_fresh children)

/-! ## Whole runs -/

omit each [DecidableEq L] in
mutual

theorem labels_arouse (rank : PendingCall L → Option Nat) : (running : Running L) →
    (running.arouse rank).labels = running.labels
  | fresh _ => rfl
  | waiting _ _ => rfl
  | joining children _ _ => allLabels_arouse rank children
  | finished _ => rfl

theorem allLabels_arouse (rank : PendingCall L → Option Nat) : (children : List (Running L)) →
    allLabels (arouseAll rank children) = allLabels children
  | [] => rfl
  | child :: rest => by
      rw [arouseAll, allLabels, allLabels, labels_arouse rank child, allLabels_arouse rank rest]

end

omit each [DecidableEq L] in
theorem Traversal.arouse {running : Running L} (traversal : running.Traversal)
    (rank : PendingCall L → Option Nat) : (running.arouse rank).Traversal := by
  induction traversal with
  | fresh traversal => exact .fresh traversal
  | waiting call result => exact .waiting call result
  | joining agenda rebuild each ih =>
      refine .joining _ rebuild fun child member => ?_
      rw [arouseAll_eq_map] at member
      obtain ⟨child, present, rfl⟩ := List.mem_map.mp member
      exact ih child present
  | finished result => exact .finished result

end Running

namespace Roster

variable {depth : Nat} {roster roster' : Roster L} {world world' : World L} {restless : Bool}

/-- What another round begins with. -/
theorem next?_eq_some (next : roster.next? restless world = some (roster', world')) :
    (roster' = roster.arouse (Running.putOffRank world.putOff) ∧ world' = world.newRound) ∨
    (roster' = roster ∧ world' = world.newRound) ∨
    (world.putOff = [] ∧ restless = false ∧ ∃ time, Running.deadlines? roster.running = some time ∧
      roster' = roster.arouse (Running.dueRank time) ∧ world' = world.advanceTo time) := by
  unfold next? at next
  split at next
  · cases next
  · split at next
    · obtain ⟨rfl, rfl⟩ := Prod.mk.inj (Option.some.inj next)
      exact .inl ⟨rfl, rfl⟩
    · rename_i none
      split at next
      · obtain ⟨rfl, rfl⟩ := Prod.mk.inj (Option.some.inj next)
        exact .inr (.inl ⟨rfl, rfl⟩)
      · rename_i calm
        obtain ⟨time, deadline, same⟩ := Option.map_eq_some_iff.mp next
        obtain ⟨rfl, rfl⟩ := Prod.mk.inj same
        refine .inr (.inr ⟨?_, Bool.eq_false_iff.mpr calm, time, deadline, rfl, rfl⟩)
        simpa using none

/-- Nothing starts between two rounds. -/
theorem next?_starts (next : roster.next? restless world = some (roster', world')) :
    world.Precedes world' ∧ Entry.starts world'.log = Entry.starts world.log ∧
      ((∃ rank, roster'.running = Running.arouseAll rank roster.running) ∨
        roster'.running = roster.running) := by
  rcases next?_eq_some next with ⟨rfl, rfl⟩ | ⟨rfl, rfl⟩ | ⟨-, -, time, -, rfl, rfl⟩
  · exact ⟨.of_eq rfl rfl rfl, rfl, .inl ⟨_, rfl⟩⟩
  · exact ⟨.of_eq rfl rfl rfl, rfl, .inr rfl⟩
  · exact ⟨.of_eq rfl rfl rfl, rfl, .inl ⟨_, rfl⟩⟩

/-- A round begins with asking. -/
theorem settle_front {rounds : Nat}
    (later : ∀ (roster : Roster L) (world : World L),
      world.Precedes (settle depth rounds roster world).2)
    (roster : Roster L) (world : World L) :
    (Running.inquire (Running.poll depth) false roster.running roster.agenda world).world.Precedes
      (settle depth (rounds + 1) roster world).2 := by
  simp only [settle]
  split
  · exact .refl _
  · rename_i next world' goes_on
    exact (next?_starts goes_on).1.trans (later next world')

theorem settle_precedes (depth rounds : Nat) (roster : Roster L) (world : World L) :
    world.Precedes (settle depth rounds roster world).2 := by
  induction rounds generalizing roster world with
  | zero => exact .refl world
  | succ rounds ih =>
      exact (Running.inquire_world World.Precedes.refl World.Precedes.trans
        (Running.poll_precedes depth) false roster.running roster.agenda world).trans
          (settle_front ih roster world)

theorem settle_uses [DecidableEq L] (depth rounds : Nat) (label : L) (roster : Roster L)
    (world : World L) (traversal : ∀ child ∈ roster.running, child.Traversal) :
    (settle depth rounds roster world).2.uses label
        (Running.allLabels (settle depth rounds roster world).1.running) ≤
      world.uses label (Running.allLabels roster.running) := by
  induction rounds generalizing roster world with
  | zero => exact Nat.le_refl _
  | succ rounds ih =>
      obtain ⟨all, uses⟩ := Running.inquire_spends (Running.poll_spends depth) false
        roster.running roster.agenda world traversal
      simp only [settle]
      split
      · exact uses label
      · rename_i next world' goes_on
        -- neither the record nor what has not started changes before the next round
        obtain ⟨-, starts, ⟨rank, aroused⟩ | same⟩ := next?_starts goes_on
        · refine (ih next world' ?_).trans ?_
          · rw [aroused, Running.arouseAll_eq_map]
            intro child member
            obtain ⟨child, present, rfl⟩ := List.mem_map.mp member
            exact (all child present).arouse rank
          · rw [World.uses, starts, aroused, Running.allLabels_arouse]
            exact uses label
        · refine (ih next world' (same ▸ all)).trans ?_
          rw [World.uses, starts, same]
          exact uses label

end Roster

namespace Future

variable {future : Future L} {delays : List Nat}

/-- A callback of a traversal starts no more often than it stands there. -/
theorem count_starts_le [DecidableEq L] (traversal : future.Traversal) (delays : List Nat)
    (label : L) :
    (Entry.starts (future.report delays).log).count label ≤ future.labels.count label := by
  have uses := Roster.settle_uses (sizes [future]) (enoughRounds (sizes [future])) label
    (Roster.ofFutures [future]) (World.fresh delays) fun child member => by
      obtain rfl := List.mem_singleton.mp member
      exact .fresh traversal
  have start : (World.fresh delays).uses label
      (Running.allLabels (Roster.ofFutures [future]).running) = future.labels.count label := by
    simp [World.uses, World.fresh, Roster.ofFutures, Running.allLabels, Running.labels]
  rw [start] at uses
  exact Nat.le_trans (Nat.le_add_right _ _) uses

/-- The callbacks that start are those of the traversal. -/
theorem mem_starts [DecidableEq L] (traversal : future.Traversal) {label : L}
    (member : label ∈ Entry.starts (future.report delays).log) : label ∈ future.labels :=
  List.count_pos_iff.mp
    (Nat.lt_of_lt_of_le (List.count_pos_iff.mpr member) (count_starts_le traversal delays label))

/-- No label starts twice if none stands there twice. -/
theorem starts_nodup [DecidableEq L] (traversal : future.Traversal) (nodup : future.labels.Nodup)
    (delays : List Nat) : (Entry.starts (future.report delays).log).Nodup :=
  List.nodup_iff_count_le_one.mpr fun label =>
    (count_starts_le traversal delays label).trans (List.nodup_iff_count_le_one.mp nodup label)

theorem run_precedes (future : Future L) (world : World L) :
    world.Precedes (future.run world).2 :=
  Roster.settle_precedes (sizes [future]) (enoughRounds (sizes [future]))
    (Roster.ofFutures [future]) world

/-- Waits that agree with the order in which the callbacks start agree with the run. -/
theorem run_agrees {wait : L → Nat} (given : ∀ n label,
      (Entry.starts (future.report delays).log)[n]? = some label →
      wait label = waitOf delays n) : (future.run (World.fresh delays)).2.Agrees wait := by
  obtain ⟨same, labels, starts, started⟩ := future.run_precedes (World.fresh delays)
  refine ⟨?_, fun n label at_n => ?_⟩
  · rw [started, starts, List.length_append]
    rfl
  · rw [same]
    exact given n label at_n

end Future

end Waypoint
