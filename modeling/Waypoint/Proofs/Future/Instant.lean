import Mathlib
import Waypoint.Future.Run
import Waypoint.Proofs.Future.Backlog
import Waypoint.Proofs.Path.Translation

/-!
# Runs in which nothing waits

Where every callback waits for no time, a future is asked once and has then finished. It does what
it would do without futures: its callbacks begin and end one after another, up to the first failure
(`Future.trace`), and joins of both kinds stop there (`Running.poll_fresh`).
-/

namespace Waypoint

variable {L : Type}

namespace Future

mutual

/-- What a future does at one instant. -/
def trace (time : Nat) : Future L → Trace (Entry (CallEvent L)) Doc
  | done value => pure value
  | fail error => Recorded.fail error
  | call label notices next =>
    ⟨.call (.started label time) :: .call (.ended label time) :: notices.map .notice ++
      (next.trace time).log, (next.trace time).result⟩
  | join children next => (traces time children).andThen fun values => (next values).trace time

def traces (time : Nat) : List (Future L) → Trace (Entry (CallEvent L)) (List Doc)
  | [] => pure []
  | child :: rest => (child.trace time).andThen fun value =>
      (traces time rest).andThen fun values => pure (value :: values)

end

theorem traces_eq (time : Nat) (futures : List (Future L)) :
    traces time futures = Recorded.sequence (futures.map (trace time)) := by
  induction futures with
  | nil => rfl
  | cons first rest ih => rw [traces, List.map_cons, Recorded.sequence, ih]

theorem trace_andThen (time : Nat) : (future : Future L) → (k : Doc → Future L) →
    (future.andThen k).trace time = (future.trace time).andThen fun value => (k value).trace time
  | done value, _ => by rw [andThen, trace, Recorded.pure_andThen]
  | fail _, _ => by
      rw [andThen, trace]
      rfl
  | call label notices next, k => by
      rw [andThen, trace, trace, trace_andThen time next k]
      cases ended : (next.trace time).result <;> simp [Recorded.andThen, ended]
  | join children next, k => by
      rw [andThen, trace, trace, Recorded.andThen_assoc]
      congr 1
      funext values
      exact trace_andThen time (next values) k

mutual

/-- What it comes to is its outcome. -/
theorem result_trace (time : Nat) : (future : Future L) →
    (future.trace time).result = future.outcome
  | done _ => rfl
  | fail _ => rfl
  | call _ _ next => by
      rw [trace, outcome]
      exact result_trace time next
  | join children next => by
      rw [trace, outcome, Recorded.result_andThen, result_traces time children]
      cases outcomes children with
      | error error => rfl
      | ok values => exact result_trace time (next values)

theorem result_traces (time : Nat) : (futures : List (Future L)) →
    (traces time futures).result = outcomes futures
  | [] => rfl
  | child :: rest => by
      rw [traces, outcomes, Recorded.result_andThen, result_trace time child]
      cases child.outcome with
      | error error => rfl
      | ok value =>
          show ((traces time rest).andThen _).result = _
          rw [Recorded.result_andThen, result_traces time rest]
          cases outcomes rest <;> rfl

end

/-- What a future does at one instant is put together from what its parts do. -/
theorem trace_translation (time : Nat) : Translation (trace time : Future L → _) where
  value := fun _ => by
    show (done _).trace time = _
    rw [trace]
    rfl
  failure := fun _ => by
    show (fail _).trace time = _
    rw [trace]
    rfl
  andThen := trace_andThen time
  gather := by
    intro futures next
    show (join futures next).trace time = _
    rw [trace, traces_eq]
    rfl

end Future

/-! ## Asking -/

namespace World

/-- No callback waits. -/
def Idle (world : World L) : Prop :=
  ∀ n, waitOf world.delays n = 0

/-- The world with more on record, and with some number of callbacks started. -/
def recording (world : World L) (log : List (Entry (CallEvent L))) (started : Nat) : World L :=
  { world with started := started, log := world.log ++ log }

theorem recording_nil (world : World L) : world.recording [] world.started = world := by
  rw [recording, List.append_nil]

theorem recording_recording (world : World L) (log log' : List (Entry (CallEvent L)))
    (started started' : Nat) :
    (world.recording log started).recording log' started' =
      world.recording (log ++ log') started' := by
  rw [recording, recording, recording, List.append_assoc]

end World

namespace Running

variable {ask : Running L → World L → Visit L}

/-- Asking a future that has not begun takes it through its trace at once. -/
def Instantly (ask : Running L → World L → Visit L) (future : Future L) : Prop :=
  ∀ world : World L, world.Idle → ∃ started,
    ask (fresh future) world =
      ⟨finished (future.trace world.now).result,
        world.recording (future.trace world.now).log started, false⟩

/-- Children of a join have been taken through their traces at once. Those before them have come to
values. -/
structure AtOnce (before : List Doc) (trace : Trace (Entry (CallEvent L)) (List Doc))
    (world : World L) (inquiry : Inquiry L) : Prop where
  world : ∃ started, inquiry.world = world.recording trace.log started
  calm : inquiry.restless = false
  failure : ∀ error, inquiry.failure = some error ↔ trace.result = .error error
  values : ∀ values, trace.result = .ok values →
    values? inquiry.children = some (before ++ values)

theorem values?_map_finished (values : List Doc) :
    values? (values.map fun value => (finished (.ok value) : Running L)) = some values := by
  induction values with
  | nil => rfl
  | cons value rest ih => rw [List.map_cons, values?, ih, Option.map_some]

theorem nextFailure_values_append (values : List Doc) (children : List (Running L)) :
    nextFailure (values.map (fun value => finished (.ok value)) ++ children) =
      nextFailure children := by
  induction values with
  | nil => rfl
  | cons value rest ih => exact ih

theorem AtOnce.of_nil (before : List Doc) (agenda : Agenda) (world : World L) :
    AtOnce before (pure []) world
      ⟨before.map fun value => finished (.ok value), agenda, none, world, false⟩ where
  world := ⟨world.started, world.recording_nil.symm⟩
  calm := rfl
  failure := fun _ => ⟨fun fails => (by cases fails), fun fails => (by cases fails)⟩
  values := by
    intro values ok
    obtain rfl := Except.ok.inj ok
    rw [List.append_nil]
    exact values?_map_finished before

section Cons

variable {before : List Doc} {world : World L} {inquiry : Inquiry L} {started : Nat}
  {first : Trace (Entry (CallEvent L)) Doc} {rest : Trace (Entry (CallEvent L)) (List Doc)}

/-- The first child fails, and those after it are not asked. -/
theorem AtOnce.of_failure {error : PathError} (fails : first.result = .error error)
    (at_world : inquiry.world = world.recording first.log started)
    (calm : inquiry.restless = false) (failure : inquiry.failure = some error) :
    AtOnce before (first.andThen fun value => rest.andThen fun values => pure (value :: values))
      world inquiry := by
  rw [Recorded.andThen_of_error fails]
  refine ⟨⟨started, at_world⟩, calm, fun other => ?_, fun _ ok => (by cases ok)⟩
  rw [failure, Option.some_inj, Except.error.injEq]

/-- The first child comes to a value, and those after it follow. -/
theorem AtOnce.cons {value : Doc} (ok : first.result = .ok value)
    (later : AtOnce (before ++ [value]) rest (world.recording first.log started) inquiry) :
    AtOnce before (first.andThen fun value => rest.andThen fun values => pure (value :: values))
      world inquiry := by
  have log : (first.andThen fun value => rest.andThen fun values => pure (value :: values)).log =
      first.log ++ rest.log := by
    cases ended : rest.result <;> simp [Recorded.andThen, ok, ended]
  have result : (first.andThen fun value =>
      rest.andThen fun values => pure (value :: values)).result =
        rest.result.map (value :: ·) := by
    cases ended : rest.result <;> simp [Recorded.andThen, ok, ended, Except.map]
  obtain ⟨⟨started', at_world⟩, calm, failure, values⟩ := later
  refine ⟨⟨started', ?_⟩, calm, fun error => ?_, fun all ended => ?_⟩
  · rw [at_world, World.recording_recording, log]
  · rw [failure, result]
    cases rest.result <;> simp [Except.map]
  · rw [result] at ended
    cases tail : rest.result with
    | error error =>
        rw [tail] at ended
        cases ended
    | ok others =>
        rw [tail] at ended
        obtain rfl := Except.ok.inj ended
        rw [values others tail, List.append_assoc]
        rfl

end Cons

/-- A child that has come to a value stands before those that are asked. -/
theorem AtOnce.behind {before : List Doc} {trace : Trace (Entry (CallEvent L)) (List Doc)}
    {world : World L} {inquiry : Inquiry L} (atOnce : AtOnce before trace world inquiry)
    (value : Doc) :
    AtOnce (value :: before) trace world
      ((inquiry.behind (finished (.ok value))).after false) where
  world := atOnce.world
  calm := atOnce.calm
  failure := atOnce.failure
  values := by
    intro values ended
    show values? (finished (.ok value) :: inquiry.children) = some (value :: (before ++ values))
    rw [values?, atOnce.values values ended, Option.map_some]

/-- All children are asked in index order. -/
theorem askAll_atOnce (children : List (Future L))
    (instantly : ∀ child ∈ children, Instantly ask child) (world : World L) (idle : world.Idle) :
    AtOnce [] (Future.traces world.now children) world
      (askAll ask true (children.map fresh) world) := by
  induction children generalizing world with
  | nil => exact .of_nil [] .all world
  | cons child rest ih =>
      obtain ⟨started, visit⟩ := instantly child List.mem_cons_self world idle
      rw [Future.traces]
      cases ended : (child.trace world.now).result with
      | error error =>
          have stops : askAll ask true ((child :: rest).map fresh) world =
              ⟨[finished (.error error)], .all, some error,
                world.recording (child.trace world.now).log started, false⟩ := by
            simp [askAll, visit, ended]
          rw [stops]
          exact .of_failure ended rfl rfl rfl
      | ok value =>
          have goes_on : askAll ask true ((child :: rest).map fresh) world =
              ((askAll ask true (rest.map fresh)
                (world.recording (child.trace world.now).log started)).behind
                  (finished (.ok value))).after false := by
            simp [askAll, visit, ended]
          rw [goes_on]
          have later := ih (fun other member => instantly other (List.mem_cons_of_mem _ member))
            (world.recording (child.trace world.now).log started) idle
          exact .cons ended (later.behind value)

/-- The children in a queue are taken from its front, where those before them have come to
values. -/
theorem askQueued_atOnce (children : List (Future L))
    (instantly : ∀ child ∈ children, Instantly ask child) (before : List Doc) (world : World L)
    (idle : world.Idle) :
    AtOnce before (Future.traces world.now children) world
      (askQueued ask true children.length
        (before.map (fun value => finished (.ok value)) ++ children.map fresh)
        (List.range' before.length children.length) world) := by
  induction children generalizing before world with
  | nil =>
      rw [List.map_nil, List.append_nil]
      exact .of_nil before (.queued []) world
  | cons child rest ih =>
      obtain ⟨started, visit⟩ := instantly child List.mem_cons_self world idle
      rw [Future.traces, List.length_cons, List.map_cons, List.range'_succ, askQueued, askUntil]
      have at_index : (before.map (fun value => (finished (.ok value) : Running L)) ++
          fresh child :: rest.map fresh)[before.length]? = some (fresh child) := by
        rw [List.getElem?_append_right (by simp)]
        simp
      have set (child' : Running L) :
          (before.map (fun value => (finished (.ok value) : Running L)) ++
            fresh child :: rest.map fresh).set before.length child' =
            before.map (fun value => finished (.ok value)) ++ child' :: rest.map fresh := by
        rw [List.set_append_right _ _ (by simp)]
        simp
      cases ended : (child.trace world.now).result with
      | error error =>
          simp only [at_index, visit, set, ended, isFinished, result?, Option.isSome_some, if_true,
            nextFailure_values_append, nextFailure]
          exact .of_failure ended rfl rfl rfl
      | ok value =>
          have passes : nextFailure (rest.map fresh : List (Running L)) = none := by
            cases rest <;> rfl
          simp only [at_index, visit, set, ended, isFinished, result?, Option.isSome_some, if_true,
            nextFailure_values_append, nextFailure, passes]
          have later := ih (fun other member => instantly other (List.mem_cons_of_mem _ member))
            (before ++ [value]) (world.recording (child.trace world.now).log started) idle
          rw [List.map_append, List.append_assoc, List.length_append] at later
          obtain ⟨world', calm, failure, values⟩ := later
          exact .cons ended ⟨world', calm, failure, values⟩

/-- Both kinds of join take their children at once. -/
theorem inquire_atOnce (children : List (Future L))
    (instantly : ∀ child ∈ children, Instantly ask child) (world : World L) (idle : world.Idle) :
    AtOnce [] (Future.traces world.now children) world
      (inquire ask true (children.map fresh) (.ofCount children.length) world) := by
  unfold Agenda.ofCount
  split
  · exact askAll_atOnce children instantly world idle
  · have unfinished : ((children.map fresh).countP fun child : Running L => !child.isFinished) =
        children.length := by
      rw [List.countP_map, List.countP_eq_length]
      exact fun _ _ => rfl
    have atOnce := askQueued_atOnce children instantly [] world idle
    rw [inquire, unfinished]
    rw [List.range_eq_range']
    exact atOnce

/-! ## All futures -/

/-- Where nothing waits a future has finished as soon as it was asked. -/
theorem poll_fresh (depth : Nat) (future : Future L) (enough : future.size ≤ depth) :
    Instantly (poll depth) future := by
  induction depth generalizing future with
  | zero =>
      have := future.size_pos
      omega
  | succ depth ih =>
      intro world idle
      cases future with
      | done value =>
          refine ⟨world.started, ?_⟩
          show Visit.mk _ world false = ⟨_, world.recording [] world.started, false⟩
          rw [World.recording_nil]
          rfl
      | fail error =>
          refine ⟨world.started, ?_⟩
          show Visit.mk _ world false = ⟨_, world.recording [] world.started, false⟩
          rw [World.recording_nil]
          rfl
      | call label notices next =>
          rw [Future.size] at enough
          obtain ⟨started, visit⟩ := ih next (by omega)
            ((world.recordStart label).recordEnd label notices) idle
          refine ⟨started, ?_⟩
          rw [poll]
          simp only [show world.nextWait = 0 from idle _, if_true, visit, Future.trace]
          simp [World.recording, World.recordStart, World.recordEnd]
      | join children next =>
          rw [Future.size_join] at enough
          have instantly : ∀ child ∈ children, Instantly (poll depth) child := by
            intro child member
            have inside : size world.now (fresh child) ≤ sizes world.now (children.map fresh) :=
              size_le_sizes (List.mem_map_of_mem member)
            rw [sizes_map_fresh, size] at inside
            exact ih child (by omega)
          obtain ⟨⟨started, at_world⟩, calm, failure, values⟩ :=
            inquire_atOnce children instantly world idle
          rw [poll, pollJoin, Future.trace]
          generalize inquire (poll depth) true (children.map fresh) (.ofCount children.length)
            world = inquiry at at_world calm failure values
          cases ended : (Future.traces world.now children).result with
          | error error =>
              refine ⟨started, ?_⟩
              rw [(failure error).mpr ended]
              simp only [calm, at_world, Recorded.andThen, ended]
          | ok all =>
              have passes : inquiry.failure = none := by
                cases given : inquiry.failure with
                | none => rfl
                | some error => cases ((failure error).mp given).symm.trans ended
              have outcomes : Future.outcomes children = .ok all := by
                rw [← Future.result_traces world.now, ended]
              rw [outcomes, Except.toOption, Future.sizeAfter] at enough
              obtain ⟨started', visit⟩ := ih (next all) (by omega)
                (world.recording (Future.traces world.now children).log started) idle
              refine ⟨started', ?_⟩
              simp only [passes, values all ended, List.nil_append, at_world, visit, calm,
                Recorded.andThen, ended, World.recording_recording, Bool.or_self]
              rfl

end Running

namespace Future

/-- Where nothing waits a run is over after its first round. -/
theorem report_of_idle (future : Future L) (delays : List Nat)
    (idle : ∀ n, waitOf delays n = 0) :
    future.report delays = ⟨some (future.trace 0).result, (future.trace 0).log, 0⟩ := by
  have size : sizes [future] = future.size := by simp [sizes]
  obtain ⟨started, visit⟩ := Running.poll_fresh (sizes [future]) future (Nat.le_of_eq size.symm)
    (World.fresh delays) idle
  have asked : Running.inquire (Running.poll (sizes [future])) false
      (Roster.ofFutures [future]).running (Roster.ofFutures [future]).agenda (World.fresh delays) =
        ⟨[.finished (future.trace 0).result], .all, none,
          (World.fresh delays).recording (future.trace 0).log started, false⟩ := by
    show Running.askAll _ false [.fresh future] _ = _
    simp only [Running.askAll, visit]
    rfl
  have settled : (Roster.ofFutures [future]).settle (sizes [future]) (enoughRounds (sizes [future]))
      (World.fresh delays) = (⟨[.finished (future.trace 0).result], .all⟩,
        (World.fresh delays).recording (future.trace 0).log started) := by
    rw [enoughRounds, Roster.settle, asked]
    rfl
  simp only [report, run, runTogether, settled]
  rfl

end Future

end Waypoint
