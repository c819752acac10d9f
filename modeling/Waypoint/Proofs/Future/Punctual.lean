import Waypoint.Proofs.Future.Prompt

/-!
# Traversals finish on time

By induction on its depth, asking keeps traversals on time (`Running.poll_prompt`). Between two
rounds the clock moves no further than the next deadline, so a run ends at the time and with a
result that the recursion over its future gives (`Future.report_finishes`).
-/

namespace Waypoint

variable {L : Type}

namespace Running

/-! ## Asking traversals -/

variable {wait : L → Nat} {ask : Running L → World L → Visit L} {depth : Nat} {world : World L}
  {elements : List (Finish Doc)} {children : List (Running L)} {agenda : Agenda}

theorem askUntil_queued {strict : Bool} {onward : List (Running L) → List Nat → World L → Inquiry L}
    (goesOn : ∀ children queue world,
      ∃ queue', (onward children queue world).agenda = .queued queue')
    (asks : Nat) (warned : Bool) (children : List (Running L)) (queue : List Nat)
    (world : World L) :
    ∃ queue', (askUntil ask strict onward asks warned children queue world).agenda =
      .queued queue' := by
  fun_induction askUntil ask strict onward asks warned children queue world with
  | case1 | case2 | case4 | case6 => exact ⟨_, rfl⟩
  | case3 asks warned children index queue world missing ih => exact ih
  | case5 => exact goesOn _ _ _
  | case7 asks warned children index queue world child at_index visit children' unfinished restless
      first ih => exact ih
  | case8 asks warned children index queue world child at_index visit children' unfinished calm
      ih => exact ih

theorem askQueued_queued (ask : Running L → World L → Visit L) (strict : Bool) (unfinished : Nat)
    (children : List (Running L)) (queue : List Nat) (world : World L) :
    ∃ queue', (askQueued ask strict unfinished children queue world).agenda = .queued queue' := by
  induction unfinished generalizing children queue world with
  | zero => exact ⟨queue, rfl⟩
  | succ unfinished ih => exact askUntil_queued ih _ _ _ _ _

end Running

/-- A join keeps its kind. -/
theorem Agenda.Suits.inquire {agenda : Agenda} {count : Nat} (suits : agenda.Suits count)
    (ask : Running L → World L → Visit L) (children : List (Running L)) (world : World L) :
    (Running.inquire ask true children agenda world).agenda.Suits count := by
  cases agenda with
  | all =>
      show (Running.askAll ask true children world).agenda.Suits count
      rw [Running.askAll_agenda]
      exact suits
  | queued queue =>
      obtain ⟨queue', same⟩ := Running.askQueued_queued ask true
        (children.countP fun child => !child.isFinished) children queue world
      show (Running.askQueued ask true _ children queue world).agenda.Suits count
      rw [same]
      exact suits

namespace Running

variable {wait : L → Nat} {ask : Running L → World L → Visit L} {depth : Nat} {world : World L}
  {elements : List (Finish Doc)} {children : List (Running L)} {agenda : Agenda}

theorem pollCall_timed {call : PendingCall L} {result : Except PathError Doc}
    {proceed : World L → Visit L}
    (ends : ∀ world, proceed world = ⟨finished result, world, false⟩)
    (deadline : call.deadline = wait call.label) (positive : 0 < wait call.label)
    (le : world.now ≤ wait call.label)
    (visited : Visited (waiting call (.ofResult result)) world
      (pollCall proceed call (.ofResult result) world)) :
    Timed wait ⟨wait call.label, result, [], 0⟩ (waiting call (.ofResult result)) world
      (pollCall proceed call (.ofResult result) world) := by
  have calm : (pollCall proceed call (.ofResult result) world).restless = false := by
    unfold pollCall
    split
    · rfl
    · split
      · rfl
      · split
        · rw [ends]
        · rfl
  constructor
  case begun => exact fun _ => positive
  case calm => exact fun _ => calm
  case firm => exact fun _ => visited.quiet calm
  case onTime =>
    unfold pollCall
    split
    · exact .waiting result deadline positive le
    · split
      · exact @OnTime.waiting _ _ _ { call with turn := some world.timed } result deadline positive
          le
      · split
        · rename_i due
          rw [ends]
          exact .finished (deadline ▸ due) (Finish.admits_outcome _)
        · exact .waiting result deadline positive le
  case stuck =>
    intro at_work used unfinished
    rw [pollCall, if_pos used]
    rfl

theorem pollJoin_timed (prompt : Prompt wait ask depth)
    (standing : Standing true world agenda children) (rebuild : List Doc → Doc)
    (bound : (joining children agenda fun values => .done (rebuild values)).size world.now ≤
      depth + 1)
    (suits : agenda.Suits elements.length) (thrifty : world.Thrifty)
    (agrees : (pollJoin ask children agenda (fun values => .done (rebuild values))
      world).world.Agrees wait)
    (onTime : OnTimeAll wait world.now elements children)
    (le : world.now ≤ (Finish.gather elements).time)
    (begun : (inquire ask true children agenda world).failure = none →
      values? (inquire ask true children agenda world).children = none →
      0 < (Finish.gather elements).time)
    (goesOn : 0 < world.now → ∃ child ∈ children, child.isFinished = false) :
    Timed wait ((Finish.gather elements).map rebuild)
      (joining children agenda fun values => .done (rebuild values)) world
      (pollJoin ask children agenda (fun values => .done (rebuild values)) world) := by
  have children_bound : sizes world.now children ≤ depth := by
    rw [size] at bound
    omega
  have inquired := inquire_inquired prompt.sound standing children_bound
  have visited := pollJoin_visited prompt.sound standing _ bound
  have seen := agrees.of_precedes (pollJoin_front prompt.precedes children agenda _ world)
  have heard := inquire_heard prompt standing children_bound suits thrifty seen onTime le
  have suits' := suits.inquire ask children world
  unfold pollJoin
  generalize inquire ask true children agenda world = inquiry at inquired heard begun suits'
  cases failure : inquiry.failure with
  | some error =>
      simp only [failure]
      obtain ⟨on_time, admits⟩ := heard.failed error failure
      refine .of_end (.finished on_time (admits.map rebuild)) heard.calm ?_
      intro at_work used
      cases (heard.stuck at_work used).1.symm.trans failure
  | none =>
      simp only [failure]
      have onTime' := heard.onTime failure
      cases all : values? inquiry.children with
      | none =>
          obtain ⟨length, each⟩ := onTimeAll_iff.mp onTime'
          have positive := begun failure all
          constructor
          case onTime => exact .joining rebuild length each suits' positive le
          case begun => exact fun _ => positive
          case calm => exact heard.calm
          case firm =>
            intro shallow
            exact .joining (heard.firm failure shallow)
          case stuck => exact fun _ _ _ => rfl
      | some values =>
          -- the values are the expected ones, so there is a step left for what comes after them
          have expected : expectedAll children = some values :=
            (inquired.kept failure).refines.expectedAll_eq.symm.trans (expectedAll_of_values all)
          rw [size, expected, Future.sizeAfter, Future.size] at bound
          have last : ask (fresh (.done (rebuild values))) inquiry.world =
              ⟨finished (.ok (rebuild values)), inquiry.world, false⟩ :=
            prompt.ends (by omega) (.ok (rebuild values)) inquiry.world
          obtain ⟨on_time, outcome⟩ := onTime'.gather_of_values all
          simp only [last, Bool.or_false]
          have admits := (Finish.admits_ok.mpr outcome).map rebuild
          refine .of_end (.finished on_time admits) heard.calm ?_
          -- a child had not finished, and without allowance it still has not
          intro at_work used
          obtain ⟨child, member, open_child⟩ := (heard.stuck at_work used).2 (goesOn at_work)
          cases (isFinished_of_values all child member).symm.trans open_child

theorem poll_call_timed (prompt : Prompt wait (@poll L depth) depth) (label : L)
    (notices : List Notice) (result : Except PathError Doc) (start : world.now = 0)
    (bound : (fresh (.call label notices (.ofResult result)) : Running L).size world.now ≤
      depth + 1)
    (agrees : (poll (depth + 1) (fresh (.call label notices (.ofResult result)))
      world).world.Agrees wait) :
    Timed wait ⟨wait label, result, [], 0⟩ (fresh (.call label notices (.ofResult result))) world
      (poll (depth + 1) (fresh (.call label notices (.ofResult result))) world) := by
  have waits : wait label = world.nextWait :=
    (agrees.of_precedes (poll_call_front prompt.precedes label notices _ world)).nextWait
  rw [size, Future.size] at bound
  have positive := (Future.ofResult result : Future L).size_pos
  have ends := prompt.ends (by omega) result
  rw [poll]
  by_cases immediate : world.nextWait = 0
  · rw [if_pos immediate, ends]
    have on_time : wait label ≤ world.now := by omega
    refine .of_end (.finished on_time (Finish.admits_outcome _)) (fun _ => rfl) ?_
    intro at_work
    omega
  · rw [if_neg immediate]
    let call : PendingCall L :=
      ⟨world.started, none, world.now + world.nextWait, label, notices⟩
    have timely : call.Timely (world.recordStart label) := by
      intro _
      show world.now < world.now + world.nextWait
      omega
    have visited : Visited (waiting call (.ofResult result)) (world.recordStart label)
        (pollCall (poll depth (fresh (.ofResult result))) call (.ofResult result)
          (world.recordStart label)) :=
      pollCall_visited prompt.sound timely (by omega)
    have deadline : call.deadline = wait call.label := by
      show world.now + world.nextWait = wait label
      omega
    have le : (world.recordStart label).now ≤ wait label := start ▸ Nat.zero_le _
    have timed := pollCall_timed ends deadline (show 0 < wait label by omega) le visited
    exact ⟨timed.onTime, timed.begun, timed.calm, timed.firm, fun at_work => by omega⟩

theorem poll_join_timed (prompt : Prompt wait (@poll L depth) depth) {futures : List (Future L)}
    (rebuild : List Doc → Doc) (length : elements.length = futures.length)
    (each : ∀ element future, (element, future) ∈ elements.zip futures →
      Future.Finishes wait future element)
    (start : world.now = 0)
    (bound : (fresh (.join futures fun values => .done (rebuild values))).size world.now ≤
      depth + 1)
    (thrifty : world.Thrifty)
    (agrees : (poll (depth + 1) (fresh (.join futures fun values => .done (rebuild values)))
      world).world.Agrees wait) :
    Timed wait ((Finish.gather elements).map rebuild)
      (fresh (.join futures fun values => .done (rebuild values))) world
      (poll (depth + 1) (fresh (.join futures fun values => .done (rebuild values))) world) := by
  rw [poll] at agrees ⊢
  have less : (joining (futures.map fresh) (.ofCount futures.length) fun values =>
      .done (rebuild values)).size world.now + 1 =
        (fresh (.join futures fun values => .done (rebuild values))).size world.now := by
    rw [size, size, sizes_map_fresh, expectedAll_map_fresh, Future.size_join]
  have onTime : OnTimeAll wait world.now elements (futures.map fresh) := by
    refine onTimeAll_iff.mpr ⟨by rw [length, List.length_map], fun element child pair => ?_⟩
    rw [List.zip_map_right] at pair
    obtain ⟨⟨element, future⟩, inside, same⟩ := List.mem_map.mp pair
    obtain ⟨rfl, rfl⟩ := Prod.mk.inj same
    exact .fresh (each _ _ inside) start
  have children_bound : sizes world.now (futures.map fresh) ≤ depth := by
    rw [← less, size] at bound
    omega
  have seen := agrees.of_precedes (pollJoin_front prompt.precedes _ _ _ world)
  have timed := pollJoin_timed prompt (.of_fresh true world futures) rebuild (by omega)
    (length ▸ Agenda.Suits.ofCount futures.length) thrifty agrees onTime (by omega)
    (inquire_begun prompt futures children_bound thrifty seen onTime) (fun at_work => by omega)
  exact ⟨timed.onTime, timed.begun, timed.calm, timed.firm, fun at_work => by omega⟩

/-- Asking keeps traversals on time. -/
theorem poll_prompt (wait : L → Nat) (depth : Nat) : Prompt wait (poll depth) depth := by
  refine ⟨poll_sound depth, poll_precedes depth, fun positive => poll_ofResult depth positive, ?_⟩
  induction depth with
  | zero =>
      -- nothing unfinished is that small
      intro running world finish ready bound thrifty agrees onTime
      cases finished : running.isFinished with
      | true =>
          obtain ⟨result, rfl⟩ := eq_finished finished
          exact .of_finished onTime
      | false =>
          have := size_pos finished world.now
          omega
  | succ depth ih =>
      have prompt : Prompt wait (@poll L depth) depth :=
        ⟨poll_sound depth, poll_precedes depth, fun positive => poll_ofResult depth positive, ih⟩
      intro running world finish ready bound thrifty agrees onTime
      have visited := poll_sound (depth + 1) running world ready bound
      cases onTime with
      | finished le admits => exact .of_finished (.finished le admits)
      | @waiting call result deadline positive le =>
          have next := (Future.ofResult result : Future L).size_pos
          have left := call.size_pos world.now
          rw [size] at bound
          exact pollCall_timed (poll_ofResult depth (by omega) result) deadline positive le visited
      | joining rebuild length each suits positive le =>
          cases ready with
          | joining ready attended clear missing =>
              exact pollJoin_timed prompt ⟨ready, attended, fun _ => clear⟩ rebuild bound suits
                thrifty agrees (onTimeAll_iff.mpr ⟨length, each⟩) le (fun _ _ => positive)
                fun _ => clear.exists_unfinished missing
      | fresh finishes start =>
          cases finishes with
          | atOnce result =>
              rw [poll_ofResult (depth + 1) (Nat.succ_pos depth)]
              refine .of_end (.finished (Nat.zero_le _) (Finish.admits_outcome _))
                (fun _ => rfl) ?_
              intro at_work
              omega
          | call label notices result =>
              exact poll_call_timed prompt label notices result start bound agrees
          | @join futures elements rebuild length each =>
              exact poll_join_timed prompt rebuild length each start bound thrifty agrees

end Running

/-! ## Rounds -/

namespace Roster

open Running

variable {wait : L → Nat} {depth : Nat} {world : World L} {running : Running L}
  {finish : Finish Doc}

theorem inquire_alone (ask : Running L → World L → Visit L)
    (unfinished : running.isFinished = false) (world : World L) :
    inquire ask false [running] .all world =
      ⟨[(ask running world).running], .all, none, (ask running world).world,
        (ask running world).restless⟩ := by
  cases running with
  | finished result => cases unfinished
  | fresh _ | waiting _ _ | joining _ _ _ =>
      simp [inquire, askAll, Inquiry.behind, Inquiry.after]

/-- A round leaves a traversal on time, and so does what comes before the next one. -/
theorem next?_on_time {visit : Visit L} {next : Roster L} {world' : World L}
    (onTime : OnTime wait visit.world.now finish visit.running)
    (ready : Ready visit.world visit.running)
    (quiet : visit.restless = false → Quiet visit.world visit.running)
    (goes_on : next? visit.restless ⟨[visit.running], .all⟩ visit.world = some (next, world')) :
    ∃ running, next = ⟨[running], .all⟩ ∧ running.isFinished = visit.running.isFinished ∧
      OnTime wait world'.now finish running := by
  rcases next?_eq_some goes_on with ⟨rfl, rfl⟩ | ⟨rfl, rfl⟩ | ⟨-, calm, time, deadline, rfl, rfl⟩
  · exact ⟨_, rfl, isFinished_arouse _ _, onTime.arouse _⟩
  · exact ⟨_, rfl, rfl, onTime⟩
  · refine ⟨_, rfl, isFinished_arouse _ _, ?_⟩
    have least := (deadlines?_eq_some deadline).2
    refine (onTime.advance ready (quiet calm) fun call own => ?_).arouse _
    exact least call (mem_allCalls.mpr ⟨_, List.mem_singleton_self _, own⟩)

/-- With enough rounds a traversal finishes on time. -/
theorem settle_on_time (rounds : Nat) (opened : Open depth ⟨[running], .all⟩ world)
    (enough : budget depth ⟨[running], .all⟩ world < rounds)
    (unfinished : running.isFinished = false) (onTime : OnTime wait world.now finish running)
    (agrees : (settle depth rounds ⟨[running], .all⟩ world).2.Agrees wait) :
    ∃ result, (settle depth rounds ⟨[running], .all⟩ world).1.running = [.finished result] ∧
      finish.Admits result ∧ (settle depth rounds ⟨[running], .all⟩ world).2.now = finish.time := by
  -- each round lowers the budget, and asking as well as what follows it keep the traversal on time
  induction rounds generalizing running world with
  | zero => cases enough
  | succ rounds ih =>
      obtain ⟨after, kept⟩ := opened.inquired
      have spec := next?_spec opened after kept
      have ready := opened.standing.ready running (List.mem_singleton_self _)
      have bound : running.size world.now ≤ depth :=
        (size_le_sizes (List.mem_singleton_self _)).trans opened.bound
      have visited := poll_sound depth running world ready bound
      have asked := inquire_alone (poll depth) unfinished world
      have seen : (poll depth running world).world.Agrees wait := by
        have front := settle_front (settle_precedes depth rounds) ⟨[running], .all⟩ world
        rw [asked] at front
        exact agrees.of_precedes front
      have timed := (poll_prompt wait depth).timed running world finish ready bound
        (.inl opened.putOff) seen onTime
      simp only [settle] at agrees ⊢
      rw [asked] at spec agrees ⊢
      generalize poll depth running world = visit at *
      simp only [ofInquiry] at spec agrees ⊢
      cases goes_on : next? visit.restless ⟨[visit.running], .all⟩ visit.world with
      | none =>
          rw [goes_on] at spec
          obtain ⟨result, same⟩ := eq_finished (spec _ (List.mem_singleton_self _))
          have ended := timed.onTime
          rw [same] at ended ⊢
          cases ended with
          | finished le admits =>
              -- it was not behind before the round, and the clock stood still in it
              refine ⟨result, rfl, admits, ?_⟩
              have := onTime.le unfinished
              have := visited.after.now
              show visit.world.now = finish.time
              omega
      | some after =>
          obtain ⟨next, world'⟩ := after
          have open_visit : visit.running.isFinished = false := by
            cases finished : visit.running.isFinished with
            | false => rfl
            | true => simp [next?, finished] at goes_on
          obtain ⟨running', rfl, same, onTime'⟩ := next?_on_time
            (visited.after.now.symm ▸ timed.onTime) visited.ready visited.quiet goes_on
          simp only [goes_on] at spec agrees ⊢
          have less := spec.less
          exact ih spec.opened (by omega) (same.trans open_visit) onTime' agrees

end Roster

/-- A traversal ends at the time and with a result that its waits give. -/
theorem Future.report_finishes {wait : L → Nat} {future : Future L} {finish : Finish Doc}
    (finishes : future.Finishes wait finish) (delays : List Nat)
    (waits : ∀ n label, (Entry.starts (future.report delays).log)[n]? = some label →
      wait label = waitOf delays n) :
    (future.report delays).elapsed = finish.time ∧
      ∃ result, (future.report delays).result = some result ∧ finish.Admits result := by
  have opened : Roster.Open (sizes [future]) (Roster.ofFutures [future]) (World.fresh delays) :=
    Roster.open_ofFutures [future] rfl
  have enough : (Roster.ofFutures [future]).budget (sizes [future]) (World.fresh delays) <
      enoughRounds (sizes [future]) := Nat.lt_succ_of_le opened.budget_le
  obtain ⟨result, ended, admits, now⟩ := Roster.settle_on_time _ opened enough rfl
    (.fresh finishes rfl) (run_agrees waits)
  refine ⟨now, result, ?_, admits⟩
  exact congrArg (fun running => (running.map Running.result?).head?.join) ended

end Waypoint
