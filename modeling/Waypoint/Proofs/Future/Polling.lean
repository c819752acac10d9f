import Waypoint.Proofs.Future.Asking

/-!
# Asking running futures

`Running.poll` is sound for all that has no more steps left than its depth: by induction on the
depth, as everything that it asks on the way has fewer steps left.
-/

namespace Waypoint

variable {L : Type}

namespace Running

variable {ask : Running L → World L → Visit L} {depth : Nat} {world : World L}

/-- Something that comes before a visit; `busy` says whether it left something restless. -/
theorem Visited.of_visited {running running' : Running L} {world' : World L} {visit : Visit L}
    {busy : Bool} (after : world.Later world') (refines : Refines running running')
    (falls : Backlog.Falls busy (running.backlog world) (running'.backlog world'))
    (visited : Visited running' world' visit) :
    Visited running world ⟨visit.running, visit.world, busy || visit.restless⟩ where
  after := after.trans visited.after
  refines := refines.trans visited.refines
  ready := visited.ready
  quiet := fun calm => visited.quiet (Bool.or_eq_false_iff.mp calm).2
  falls := falls.trans visited.falls

/-! ## Callbacks -/

variable {call : PendingCall L} {next : Future L}

/-- Only what comes after a callback matters for what it comes to. -/
theorem waiting_refines (call call' : PendingCall L) (next : Future L) :
    Refines (waiting call next) (waiting call' next) :=
  ⟨rfl, fun _ member => member⟩

theorem waiting_refines_fresh (call : PendingCall L) (next : Future L) :
    Refines (waiting call next) (fresh next) :=
  ⟨rfl, fun _ member => member⟩

theorem call_refines (label : L) (notices : List Notice) (next : Future L) :
    Refines (fresh (.call label notices next)) (fresh next) := by
  refine ⟨?_, fun _ member => ?_⟩
  · rw [expected, expected, Future.outcome]
  · rw [failures, Future.failures]
    exact member

/-- A callback is asked: it is put off, put on the clock, left to wait, or its wait ends. -/
theorem pollCall_visited (sound : Sound ask depth) (timely : call.Timely world)
    (bound : next.size ≤ depth) :
    Visited (waiting call next) world (pollCall (ask (fresh next)) call next world) := by
  unfold pollCall
  by_cases none : world.credit = 0
  · -- it is put off, and only the list of those that were changes
    rw [if_pos none]
    exact
      { after := .postpone none call.number
        refines := .refl _
        ready := .waiting timely
        quiet := fun _ => .waiting ⟨timely, .inl List.mem_cons_self⟩
        falls := .refl _ }
  · rw [if_neg none]
    cases turn : call.turn with
    | none =>
        -- it is put on the clock, which is a step, and waits for a later time
        let timed : PendingCall L := { call with turn := some world.timed }
        have on : timed.turn ≠ .none := Option.some_ne_none _
        have fewer := timed.size_of_turn on world.now
        have three := PendingCall.size_of_off turn world.now
        exact
          { after := .putOnClock world
            refines := waiting_refines call timed next
            ready := .waiting fun off => absurd off on
            quiet := fun _ => .waiting (.of_turn on (timely turn))
            falls := by
              left
              show next.size + timed.size world.now < next.size + call.size world.now
              omega }
    | some place =>
        have on : call.turn ≠ .none := turn ▸ Option.some_ne_none _
        by_cases due : call.deadline ≤ world.now
        · -- its wait ends; what comes after it is asked one level below
          simp only [if_pos due]
          have after : world.Later (world.spend.recordEnd call.label call.notices) :=
            (World.Later.spend world).trans (.recordEnd _ _ _)
          have falls : Backlog.Falls false ((waiting call next).backlog world)
              ((fresh next).backlog (world.spend.recordEnd call.label call.notices)) := by
            have positive := call.size_pos world.now
            left
            show next.size < next.size + call.size world.now
            omega
          exact (sound (fresh next) _ (.fresh next) bound).of_visited after
            (waiting_refines_fresh call next) falls
        · simp only [if_neg due]
          exact
            { after := .refl world
              refines := .refl _
              ready := .waiting timely
              quiet := fun _ => .waiting (.of_turn on (Nat.lt_of_not_le due))
              falls := .refl _ }

/-! ## Joins -/

variable {children : List (Running L)} {agenda : Agenda}

/-- A join is asked: it ends with a failure, keeps on, or goes on with what comes after it. -/
theorem pollJoin_visited (sound : Sound ask depth) (standing : Standing true world agenda children)
    (next : List Doc → Future L)
    (bound : (joining children agenda next).size world.now ≤ depth + 1) :
    Visited (joining children agenda next) world (pollJoin ask children agenda next world) := by
  have children_bound : sizes world.now children ≤ depth := by
    rw [size] at bound
    omega
  have inquired := inquire_inquired sound standing children_bound
  unfold pollJoin
  generalize inquire ask true children agenda world = inquiry at inquired
  cases failure : inquiry.failure with
  | some error =>
      simp only [failure]
      obtain ⟨-, may⟩ := inquired.failed error failure
      exact
        { after := inquired.after
          refines := .of_mayFail may agenda next
          ready := .finished _
          quiet := fun _ => .finished _
          falls := .inl (size_pos rfl world.now) }
  | none =>
      simp only [failure]
      have kept := inquired.kept failure
      cases all : values? inquiry.children with
      | none =>
          exact
            { after := inquired.after
              refines := kept.refines.joining agenda inquiry.agenda next
              ready := .joining kept.standing.ready kept.standing.attended
                (kept.standing.clear rfl) all
              quiet := fun calm => .joining (kept.quiet calm)
              falls := kept.falls.joining next kept.refines.expectedAll_eq }
      | some values =>
          -- the values are the expected ones, so the size already counts what comes after them
          have expected : expectedAll children = some values :=
            kept.refines.expectedAll_eq.symm.trans (expectedAll_of_values all)
          rw [size, expected, Future.sizeAfter] at bound
          have visited := sound (fresh (next values)) inquiry.world (.fresh _)
            (show (next values).size ≤ depth by omega)
          refine visited.of_visited inquired.after (.of_values expected agenda next) (.inl ?_)
          show (next values).size < (joining children agenda next).size world.now
          rw [size, expected, Future.sizeAfter]
          omega

/-! ## All running futures -/

/-- Asking a future that ends at once. -/
theorem poll_ofResult (depth : Nat) (positive : 0 < depth) (result : Except PathError Doc)
    (world : World L) :
    poll depth (fresh (.ofResult result)) world = ⟨finished result, world, false⟩ := by
  obtain ⟨depth, rfl⟩ := Nat.exists_eq_succ_of_ne_zero (Nat.ne_of_gt positive)
  cases result <;> rfl

theorem poll_call_visited (sound : Sound (@poll L depth) depth) (label : L) (notices : List Notice)
    (next : Future L) (bound : next.size ≤ depth) :
    Visited (fresh (.call label notices next)) world
      (poll (depth + 1) (fresh (.call label notices next)) world) := by
  rw [poll]
  have begun := World.Later.recordStart label world
  by_cases immediate : world.nextWait = 0
  · simp only [if_pos immediate]
    have after := begun.trans (.recordEnd label notices _)
    have falls : Backlog.Falls false ((fresh (.call label notices next)).backlog world)
        ((fresh next).backlog ((world.recordStart label).recordEnd label notices)) := by
      left
      show next.size < next.size + 3
      omega
    exact (sound (fresh next) _ (.fresh next) bound).of_visited after
      (call_refines label notices next) falls
  · simp only [if_neg immediate]
    let call : PendingCall L :=
      ⟨world.started, none, world.now + world.nextWait, label, notices⟩
    have timely : call.Timely (world.recordStart label) := by
      intro _
      show world.now < world.now + world.nextWait
      omega
    have refines : Refines (fresh (.call label notices next)) (waiting call next) := by
      refine ⟨?_, fun _ member => ?_⟩
      · rw [expected, expected, Future.outcome]
      · rw [failures, Future.failures]
        exact member
    exact (pollCall_visited sound timely bound).of_visited begun refines (.refl _)

theorem poll_join_visited (sound : Sound (@poll L depth) depth) (children : List (Future L))
    (next : List Doc → Future L)
    (bound : (fresh (.join children next)).size world.now ≤ depth + 1) :
    Visited (fresh (.join children next)) world
      (poll (depth + 1) (fresh (.join children next)) world) := by
  rw [poll]
  have less : (joining (children.map fresh) (.ofCount children.length) next).size world.now + 1 =
      (fresh (.join children next)).size world.now := by
    rw [size, size, sizes_map_fresh, expectedAll_map_fresh, Future.size_join]
  have standing : Standing true world (.ofCount children.length) (children.map fresh) :=
    .of_fresh true world children
  have falls : Backlog.Falls false ((fresh (.join children next)).backlog world)
      ((joining (children.map fresh) (.ofCount children.length) next).backlog world) := by
    left
    exact Nat.lt_of_succ_le (Nat.le_of_eq less)
  exact (pollJoin_visited sound standing next (by omega)).of_visited (.refl world)
    (.of_join children _ next) falls

theorem poll_sound (depth : Nat) : Sound (@poll L depth) depth := by
  induction depth with
  | zero =>
      -- nothing unfinished is that small
      intro running world ready bound
      cases finished : running.isFinished with
      | true =>
          cases running with
          | finished result => exact .of_finished result world
          | fresh _ | waiting _ _ | joining _ _ _ => cases finished
      | false =>
          have := size_pos finished world.now
          omega
  | succ depth ih =>
      intro running world ready bound
      cases ready with
      | finished result => exact .of_finished result world
      | @waiting call next timely =>
          refine pollCall_visited ih timely ?_
          have := call.size_pos world.now
          rw [size] at bound
          omega
      | @joining children agenda next ready attended clear missing =>
          exact pollJoin_visited ih ⟨ready, attended, fun _ => clear⟩ next bound
      | fresh future =>
          cases future with
          | done value =>
              exact
                { after := .refl world
                  refines := ⟨rfl, nofun⟩
                  ready := .finished _
                  quiet := fun _ => .finished _
                  falls := .inl Nat.one_pos }
          | fail error =>
              exact
                { after := .refl world
                  refines := ⟨rfl, fun _ member => member⟩
                  ready := .finished _
                  quiet := fun _ => .finished _
                  falls := .inl Nat.one_pos }
          | call label notices next =>
              refine poll_call_visited ih label notices next ?_
              rw [size, Future.size] at bound
              omega
          | join children next => exact poll_join_visited ih children next bound

end Running

end Waypoint
