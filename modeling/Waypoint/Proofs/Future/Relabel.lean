import Mathlib
import Waypoint.Future.Run
import Waypoint.Proofs.Future.Starts

/-!
# Other labels

The labels of callbacks are shown in the record of a run and are otherwise not looked at. A future
with other labels runs in the same way: `report_relabel`. So the callbacks of a future may be told
apart by labels of their own, and what is proved of its run holds of the run with the labels that
are shown.
-/

namespace Waypoint

variable {L M : Type}

/-! ## What has labels -/

namespace Future

mutual

def relabel (f : L → M) : Future L → Future M
  | done value => done value
  | fail error => fail error
  | call label notices next => call (f label) notices (next.relabel f)
  | join children next => join (relabelAll f children) fun values => (next values).relabel f

def relabelAll (f : L → M) : List (Future L) → List (Future M)
  | [] => []
  | child :: rest => child.relabel f :: relabelAll f rest

end

theorem relabelAll_eq_map (f : L → M) (children : List (Future L)) :
    relabelAll f children = children.map (relabel f) := by
  induction children with
  | nil => rfl
  | cons child rest ih => rw [relabelAll, ih, List.map_cons]

end Future

def CallEvent.relabel (f : L → M) : CallEvent L → CallEvent M
  | started label time => started (f label) time
  | ended label time => ended (f label) time

namespace Entry

def relabel (f : L → M) : Entry (CallEvent L) → Entry (CallEvent M)
  | .call event => .call (event.relabel f)
  | .notice line => .notice line

theorem calls_relabel (f : L → M) (log : List (Entry (CallEvent L))) :
    calls (log.map (relabel f)) = (calls log).map (CallEvent.relabel f) := by
  induction log with
  | nil => rfl
  | cons line rest ih =>
      match line with
      | .call event => exact congrArg (event.relabel f :: ·) ih
      | .notice _ => exact ih

theorem starts_relabel (f : L → M) (log : List (Entry (CallEvent L))) :
    starts (log.map (relabel f)) = (starts log).map f := by
  induction log with
  | nil => rfl
  | cons line rest ih =>
      match line with
      | .call (.started label time) => exact congrArg (f label :: ·) ih
      | .call (.ended label time) => exact ih
      | .notice _ => exact ih

end Entry

def World.relabel (f : L → M) (world : World L) : World M :=
  ⟨world.now, world.delays, world.started, world.timed, world.credit, world.putOff,
    world.log.map (Entry.relabel f)⟩

def PendingCall.relabel (f : L → M) (call : PendingCall L) : PendingCall M :=
  ⟨call.number, call.turn, call.deadline, f call.label, call.notices⟩

namespace Running

mutual

def relabel (f : L → M) : Running L → Running M
  | fresh future => fresh (future.relabel f)
  | waiting call next => waiting (call.relabel f) (next.relabel f)
  | joining children agenda next =>
    joining (relabelAll f children) agenda fun values => (next values).relabel f
  | finished result => finished result

def relabelAll (f : L → M) : List (Running L) → List (Running M)
  | [] => []
  | child :: rest => child.relabel f :: relabelAll f rest

end

theorem relabelAll_eq_map (f : L → M) (children : List (Running L)) :
    relabelAll f children = children.map (relabel f) := by
  induction children with
  | nil => rfl
  | cons child rest ih => rw [relabelAll, ih, List.map_cons]

end Running

def Visit.relabel (f : L → M) (visit : Visit L) : Visit M :=
  ⟨visit.running.relabel f, visit.world.relabel f, visit.restless⟩

def Inquiry.relabel (f : L → M) (inquiry : Inquiry L) : Inquiry M :=
  ⟨Running.relabelAll f inquiry.children, inquiry.agenda, inquiry.failure,
    inquiry.world.relabel f, inquiry.restless⟩

def Roster.relabel (f : L → M) (roster : Roster L) : Roster M :=
  ⟨Running.relabelAll f roster.running, roster.agenda⟩

def Report.relabel (f : L → M) (report : Report L) : Report M :=
  ⟨report.result, report.log.map (Entry.relabel f), report.elapsed⟩

def JointReport.relabel (f : L → M) (report : JointReport L) : JointReport M :=
  ⟨report.results, report.log.map (Entry.relabel f), report.elapsed⟩

variable {f : L → M}

/-! ## Worlds -/

namespace World

theorem recordStart_relabel (label : L) (world : World L) :
    (world.relabel f).recordStart (f label) = (world.recordStart label).relabel f := by
  simp [relabel, recordStart, Entry.relabel, CallEvent.relabel]

theorem recordEnd_relabel (label : L) (notices : List Notice) (world : World L) :
    (world.relabel f).recordEnd (f label) notices = (world.recordEnd label notices).relabel f := by
  simp [relabel, recordEnd, Entry.relabel, CallEvent.relabel]

end World

/-! ## Futures -/

namespace Future

mutual

@[simp] theorem outcome_relabel : (future : Future L) → (future.relabel f).outcome = future.outcome
  | done _ => by rw [relabel, outcome, outcome]
  | fail _ => by rw [relabel, outcome, outcome]
  | call _ _ next => by
      rw [relabel, outcome, outcome]
      exact outcome_relabel next
  | join children next => by
      rw [relabel, outcome, outcome, outcomes_relabel children]
      cases outcomes children with
      | error error => rfl
      | ok values => exact outcome_relabel (next values)

@[simp] theorem outcomes_relabel : (children : List (Future L)) →
    outcomes (relabelAll f children) = outcomes children
  | [] => rfl
  | child :: rest => by
      rw [relabelAll, outcomes, outcomes, outcome_relabel child, outcomes_relabel rest]

end

mutual

@[simp] theorem size_relabel : (future : Future L) → (future.relabel f).size = future.size
  | done _ => by rw [relabel, size, size]
  | fail _ => by rw [relabel, size, size]
  | call _ _ next => by rw [relabel, size, size, size_relabel next]
  | join children next => by
      rw [relabel, size, size, sizes_relabel children, outcomes_relabel children]
      cases outcomes children with
      | error error => rfl
      | ok values => exact congrArg (sizes children + · + 2) (size_relabel (next values))

@[simp] theorem sizes_relabel : (children : List (Future L)) →
    sizes (relabelAll f children) = sizes children
  | [] => rfl
  | child :: rest => by rw [relabelAll, sizes, sizes, size_relabel child, sizes_relabel rest]

end

theorem relabel_ofResult (result : Except PathError Doc) :
    (ofResult result : Future L).relabel f = ofResult result := by
  cases result with
  | ok value => simp only [ofResult, relabel]
  | error error => simp only [ofResult, relabel]

theorem relabel_andThen (k : Doc → Future L) : (future : Future L) →
    (future.andThen k).relabel f = (future.relabel f).andThen fun value => (k value).relabel f
  | done _ => by rw [andThen, relabel, andThen]
  | fail _ => by rw [andThen, relabel, andThen]
  | call _ _ next => by rw [andThen, relabel, relabel, andThen, relabel_andThen k next]
  | join _ next => by
      rw [andThen, relabel, relabel, andThen]
      congr 1
      funext values
      exact relabel_andThen k (next values)

end Future

/-! ## Running futures -/

namespace Running

@[simp] theorem result?_relabel (running : Running L) :
    (running.relabel f).result? = running.result? := by
  cases running <;> rfl

@[simp] theorem isFinished_relabel (running : Running L) :
    (running.relabel f).isFinished = running.isFinished := by
  rw [isFinished, isFinished, result?_relabel]

@[simp] theorem values?_relabel (children : List (Running L)) :
    values? (relabelAll f children) = values? children := by
  induction children with
  | nil => rfl
  | cons child rest ih =>
      match child with
      | finished (.ok value) => rw [relabelAll, relabel, values?, values?, ih]
      | finished (.error _) | fresh _ | waiting _ _ | joining _ _ _ => rfl

@[simp] theorem nextFailure_relabel (children : List (Running L)) :
    nextFailure (relabelAll f children) = nextFailure children := by
  induction children with
  | nil => rfl
  | cons child rest ih =>
      match child with
      | finished (.ok value) => exact ih
      | finished (.error _) | fresh _ | waiting _ _ | joining _ _ _ => rfl

mutual

@[simp] theorem deadline?_relabel : (running : Running L) →
    (running.relabel f).deadline? = running.deadline?
  | fresh _ => rfl
  | waiting _ _ => rfl
  | joining children _ _ => deadlines?_relabel children
  | finished _ => rfl

@[simp] theorem deadlines?_relabel : (children : List (Running L)) →
    deadlines? (relabelAll f children) = deadlines? children
  | [] => rfl
  | child :: rest => by
      rw [relabelAll, deadlines?, deadlines?, deadline?_relabel child, deadlines?_relabel rest]

end

section Rank

variable {rank : PendingCall L → Option Nat} {rank' : PendingCall M → Option Nat}

mutual

theorem rank?_relabel (same : ∀ call, rank' (call.relabel f) = rank call) :
    (running : Running L) → (running.relabel f).rank? rank' = running.rank? rank
  | fresh _ => rfl
  | waiting call _ => same call
  | joining children _ _ => leastRank?_relabel same children
  | finished _ => rfl

theorem leastRank?_relabel (same : ∀ call, rank' (call.relabel f) = rank call) :
    (children : List (Running L)) →
    leastRank? rank' (relabelAll f children) = leastRank? rank children
  | [] => rfl
  | child :: rest => by
      rw [relabelAll, leastRank?, leastRank?, rank?_relabel same child,
        leastRank?_relabel same rest]

end

theorem calling_relabel (same : ∀ call, rank' (call.relabel f) = rank call)
    (children : List (Running L)) :
    calling rank' (relabelAll f children) = calling rank children := by
  have ranked : (fun entry : Running L × Nat =>
      ((entry.1.relabel f).rank? rank').map fun least => (least, entry.2)) =
        fun entry => (entry.1.rank? rank).map fun least => (least, entry.2) := by
    funext entry
    rw [rank?_relabel same]
  unfold calling
  rw [relabelAll_eq_map, List.zipIdx_map, List.filterMap_map]
  exact congrArg (fun select => (sortBy Prod.fst (children.zipIdx.filterMap select)).map Prod.snd)
    ranked

mutual

theorem arouse_relabel (same : ∀ call, rank' (call.relabel f) = rank call) :
    (running : Running L) → (running.relabel f).arouse rank' = (running.arouse rank).relabel f
  | fresh _ => rfl
  | waiting _ _ => rfl
  | joining children agenda next => by
      rw [relabel, arouse, arouse, relabel, arouseAll_relabel same children,
        calling_relabel same children]
  | finished _ => rfl

theorem arouseAll_relabel (same : ∀ call, rank' (call.relabel f) = rank call) :
    (children : List (Running L)) →
    arouseAll rank' (relabelAll f children) = relabelAll f (arouseAll rank children)
  | [] => rfl
  | child :: rest => by
      rw [relabelAll, arouseAll, arouseAll, relabelAll, arouse_relabel same child,
        arouseAll_relabel same rest]

end

end Rank

theorem getElem?_relabel (children : List (Running L)) (index : Nat) :
    (relabelAll f children)[index]? = children[index]?.map (relabel f) := by
  rw [relabelAll_eq_map, List.getElem?_map]

theorem set_relabel (index : Nat) (child : Running L) (children : List (Running L)) :
    (relabelAll f children).set index (child.relabel f) =
      relabelAll f (children.set index child) := by
  rw [relabelAll_eq_map, relabelAll_eq_map, List.map_set]

/-! ## Asking -/

section Ask

variable {ask : Running L → World L → Visit L} {ask' : Running M → World M → Visit M}
  (same : ∀ running world,
    ask' (running.relabel f) (world.relabel f) = (ask running world).relabel f)

include same

theorem askAll_relabel (strict : Bool) (children : List (Running L)) (world : World L) :
    askAll ask' strict (relabelAll f children) (world.relabel f) =
      (askAll ask strict children world).relabel f := by
  induction children generalizing world with
  | nil => rfl
  | cons child rest ih =>
      have visit := same child world
      match child with
      | finished result =>
        rw [relabelAll, relabel, askAll, askAll, ih]
        rfl
      | fresh _ | waiting _ _ | joining _ _ _ =>
        simp only [relabelAll, relabel] at visit ⊢
        simp only [askAll, visit, Visit.relabel, ih]
        generalize ask _ world = asked
        obtain ⟨running, world', restless⟩ := asked
        cases strict with
        | false => rfl
        | true =>
          match running with
          | finished (.error _) => rfl
          | finished (.ok _) | fresh _ | waiting _ _ | joining _ _ _ => rfl

theorem askUntil_relabel (strict : Bool)
    {onward : List (Running L) → List Nat → World L → Inquiry L}
    {onward' : List (Running M) → List Nat → World M → Inquiry M}
    (goesOn : ∀ children queue world,
      onward' (relabelAll f children) queue (world.relabel f) =
        (onward children queue world).relabel f)
    (asks : Nat) (warned : Bool) (children : List (Running L)) (queue : List Nat)
    (world : World L) :
    askUntil ask' strict onward' asks warned (relabelAll f children) queue (world.relabel f) =
      (askUntil ask strict onward asks warned children queue world).relabel f := by
  -- both sides decide by the same questions, none of which is about labels
  induction asks generalizing warned children queue world with
  | zero => rfl
  | succ asks ih =>
      cases queue with
      | nil => rfl
      | cons index queue =>
          cases at_index : children[index]? with
          | none =>
              simp only [askUntil, getElem?_relabel, at_index, Option.map_none]
              exact ih _ _ _ _
          | some child =>
              simp only [askUntil, getElem?_relabel, at_index, Option.map_some, same, Visit.relabel,
                isFinished_relabel, set_relabel, nextFailure_relabel, goesOn, ih]
              generalize ask child world = asked
              split
              · split
                · rfl
                · rfl
              · split
                · split
                  · rfl
                  · rfl
                · rfl

theorem askQueued_relabel (strict : Bool) (unfinished : Nat) (children : List (Running L))
    (queue : List Nat) (world : World L) :
    askQueued ask' strict unfinished (relabelAll f children) queue (world.relabel f) =
      (askQueued ask strict unfinished children queue world).relabel f := by
  induction unfinished generalizing children queue world with
  | zero => rfl
  | succ unfinished ih =>
      rw [askQueued, askQueued]
      exact askUntil_relabel same strict ih _ _ _ _ _

theorem inquire_relabel (strict : Bool) (children : List (Running L)) (agenda : Agenda)
    (world : World L) :
    inquire ask' strict (relabelAll f children) agenda (world.relabel f) =
      (inquire ask strict children agenda world).relabel f := by
  cases agenda with
  | all => exact askAll_relabel same strict children world
  | queued queue =>
      have few : ((relabelAll f children).countP fun child => !child.isFinished) =
          children.countP fun child => !child.isFinished := by
        rw [relabelAll_eq_map, List.countP_map]
        congr 1
        funext child
        exact congrArg not (isFinished_relabel child)
      rw [inquire, inquire, few]
      exact askQueued_relabel same strict _ children queue world

end Ask

theorem pollCall_relabel {proceed : World L → Visit L} {proceed' : World M → Visit M}
    (same : ∀ world, proceed' (world.relabel f) = (proceed world).relabel f)
    (call : PendingCall L) (next : Future L) (world : World L) :
    pollCall proceed' (call.relabel f) (next.relabel f) (world.relabel f) =
      (pollCall proceed call next world).relabel f := by
  unfold pollCall
  by_cases none : world.credit = 0
  · rw [if_pos none, if_pos (show (world.relabel f).credit = 0 from none)]
    rfl
  · rw [if_neg none, if_neg (show (world.relabel f).credit ≠ 0 from none)]
    cases turn : call.turn with
    | none =>
        simp only [show (call.relabel f).turn = .none from turn]
        rfl
    | some place =>
        simp only [show (call.relabel f).turn = some place from turn]
        by_cases due : call.deadline ≤ world.now
        · rw [if_pos due, if_pos (show (call.relabel f).deadline ≤ (world.relabel f).now from due)]
          rw [← same]
          exact congrArg proceed' (World.recordEnd_relabel call.label call.notices world.spend)
        · rw [if_neg due,
            if_neg (show ¬ (call.relabel f).deadline ≤ (world.relabel f).now from due)]
          rfl

theorem pollJoin_relabel {ask : Running L → World L → Visit L}
    {ask' : Running M → World M → Visit M}
    (same : ∀ running world,
      ask' (running.relabel f) (world.relabel f) = (ask running world).relabel f)
    (children : List (Running L)) (agenda : Agenda) (next : List Doc → Future L)
    (world : World L) :
    pollJoin ask' (relabelAll f children) agenda (fun values => (next values).relabel f)
        (world.relabel f) = (pollJoin ask children agenda next world).relabel f := by
  simp only [pollJoin, inquire_relabel same]
  generalize inquire ask true children agenda world = inquiry
  obtain ⟨children', agenda', failure, world', restless⟩ := inquiry
  cases failure with
  | some error => rfl
  | none =>
      simp only [Inquiry.relabel, values?_relabel]
      cases values? children' with
      | none => rfl
      | some values =>
          have visit := same (fresh (next values)) world'
          rw [relabel] at visit
          simp only [visit]
          rfl

/-- Labels are not looked at. -/
theorem poll_relabel (depth : Nat) (running : Running L) (world : World L) :
    poll depth (running.relabel f) (world.relabel f) = (poll depth running world).relabel f := by
  induction depth generalizing running world with
  | zero => rfl
  | succ depth ih =>
      cases running with
      | finished result => rfl
      | waiting call next =>
          exact pollCall_relabel (fun world => ih (fresh next) world) call next world
      | joining children agenda next => exact pollJoin_relabel ih children agenda next world
      | fresh future =>
          cases future with
          | done value => rfl
          | fail error => rfl
          | call label notices next =>
              rw [relabel, Future.relabel, poll, poll]
              by_cases immediate : world.nextWait = 0
              · simp only [if_pos immediate,
                  if_pos (show (world.relabel f).nextWait = 0 from immediate),
                  World.recordStart_relabel, World.recordEnd_relabel]
                exact ih (fresh next) _
              · simp only [if_neg immediate,
                  if_neg (show (world.relabel f).nextWait ≠ 0 from immediate),
                  World.recordStart_relabel]
                exact pollCall_relabel (ih (fresh next))
                  ⟨world.started, none, world.now + world.nextWait, label, notices⟩ next _
          | join children next =>
              have all : (Future.relabelAll f children).map fresh =
                  relabelAll f (children.map fresh) := by
                rw [Future.relabelAll_eq_map, relabelAll_eq_map, List.map_map, List.map_map]
                rfl
              have count : (Future.relabelAll f children).length = children.length := by
                rw [Future.relabelAll_eq_map, List.length_map]
              rw [relabel, Future.relabel, poll, poll, all, count]
              exact pollJoin_relabel ih _ _ next world

end Running

/-! ## Runs -/

namespace Roster

theorem arouse_relabel {rank : PendingCall L → Option Nat} {rank' : PendingCall M → Option Nat}
    (same : ∀ call, rank' (call.relabel f) = rank call) (roster : Roster L) :
    (roster.relabel f).arouse rank' = (roster.arouse rank).relabel f := by
  simp only [arouse, relabel, Running.arouseAll_relabel same, Running.calling_relabel same]

theorem next?_relabel (restless : Bool) (roster : Roster L) (world : World L) :
    (roster.relabel f).next? restless (world.relabel f) =
      (roster.next? restless world).map fun next => (next.1.relabel f, next.2.relabel f) := by
  have finished : (roster.relabel f).running.all Running.isFinished =
      roster.running.all Running.isFinished := by
    rw [relabel, Running.relabelAll_eq_map, List.all_map]
    congr 1
    funext child
    exact Running.isFinished_relabel child
  have putOff : (roster.relabel f).arouse (Running.putOffRank (world.relabel f).putOff) =
      (roster.arouse (Running.putOffRank world.putOff)).relabel f :=
    arouse_relabel (fun _ => rfl) roster
  have due (time : Nat) : (roster.relabel f).arouse (Running.dueRank time) =
      (roster.arouse (Running.dueRank time)).relabel f :=
    arouse_relabel (fun _ => rfl) roster
  have deadlines : Running.deadlines? (roster.relabel f).running =
      Running.deadlines? roster.running := Running.deadlines?_relabel roster.running
  unfold next?
  rw [finished, putOff, deadlines, show (world.relabel f).putOff = world.putOff from rfl]
  split
  · rfl
  · split
    · rfl
    · split
      · rfl
      · rw [Option.map_map]
        congr 1
        funext time
        rw [due]
        rfl

theorem settle_relabel (depth rounds : Nat) (roster : Roster L) (world : World L) :
    settle depth rounds (roster.relabel f) (world.relabel f) =
      ((settle depth rounds roster world).1.relabel f,
        (settle depth rounds roster world).2.relabel f) := by
  induction rounds generalizing roster world with
  | zero => rfl
  | succ rounds ih =>
      have asked : Running.inquire (Running.poll depth) false (roster.relabel f).running
          (roster.relabel f).agenda (world.relabel f) =
            (Running.inquire (Running.poll depth) false roster.running roster.agenda
              world).relabel f :=
        Running.inquire_relabel (Running.poll_relabel depth) false _ _ world
      rw [settle, settle, asked]
      generalize Running.inquire (Running.poll depth) false roster.running roster.agenda world =
        inquiry
      have next := next?_relabel (f := f) inquiry.restless ⟨inquiry.children, inquiry.agenda⟩
        inquiry.world
      simp only [relabel] at next
      simp only [Inquiry.relabel, next]
      cases next? inquiry.restless ⟨inquiry.children, inquiry.agenda⟩ inquiry.world with
      | none => rfl
      | some next => exact ih next.1 next.2

end Roster

namespace Future

/-- Futures with other labels run in the same way. -/
theorem runTogether_relabel (futures : List (Future L)) (world : World L) :
    runTogether (futures.map (relabel f)) (world.relabel f) =
      ((runTogether futures world).1, (runTogether futures world).2.relabel f) := by
  have size : sizes (futures.map (relabel f)) = sizes futures := by
    rw [← relabelAll_eq_map, sizes_relabel]
  have roster : Roster.ofFutures (futures.map (relabel f)) =
      (Roster.ofFutures futures).relabel f := by
    simp only [Roster.ofFutures, Roster.relabel, Running.relabelAll_eq_map, List.map_map,
      List.length_map]
    rfl
  simp only [runTogether, size]
  rw [roster, Roster.settle_relabel]
  generalize (Roster.ofFutures futures).settle _ _ _ = settled
  obtain ⟨⟨running, agenda⟩, world⟩ := settled
  simp [Roster.relabel, Running.relabelAll_eq_map, Function.comp_def]

theorem runJointly_relabel (futures : List (Future L)) (world : World L) :
    runJointly (futures.map (relabel f)) (world.relabel f) =
      (runJointly futures world).relabel f := by
  simp only [runJointly, runTogether_relabel]
  rfl

theorem run_relabel (future : Future L) (world : World L) :
    (future.relabel f).run (world.relabel f) =
      ((future.run world).1, (future.run world).2.relabel f) := by
  have together := runTogether_relabel (f := f) [future] world
  rw [List.map_singleton] at together
  simp only [run, together]

theorem report_relabel (future : Future L) (delays : List Nat) :
    (future.relabel f).report delays = (future.report delays).relabel f := by
  have ran := run_relabel (f := f) future (World.fresh delays)
  simp only [report]
  rw [show (World.fresh delays : World M) = (World.fresh delays).relabel f from rfl, ran]
  rfl

/-- So do futures that run one after another. -/
theorem runInTurn_relabel (futures : List (Future L)) (world : World L) :
    runInTurn (futures.map (relabel f)) (world.relabel f) =
      (runInTurn futures world).map (Report.relabel f) := by
  induction futures generalizing world with
  | nil => rfl
  | cons first rest ih =>
      have ran := run_relabel (f := f) first world.nextRun
      simp only [List.map_cons, runInTurn]
      rw [show (world.relabel f).nextRun = world.nextRun.relabel f from rfl, ran, ih]
      rfl

mutual

/-- Other labels may be given in two steps. -/
theorem relabel_relabel {N : Type} (f : L → M) (g : M → N) : (future : Future L) →
    (future.relabel f).relabel g = future.relabel (g ∘ f)
  | done _ => by rw [relabel, relabel, relabel]
  | fail _ => by rw [relabel, relabel, relabel]
  | call _ _ next => by
      rw [relabel, relabel, relabel, relabel_relabel f g next]
      rfl
  | join children next => by
      rw [relabel, relabel, relabel, relabelAll_relabelAll f g children]
      congr 1
      funext values
      exact relabel_relabel f g (next values)

theorem relabelAll_relabelAll {N : Type} (f : L → M) (g : M → N) : (children : List (Future L)) →
    relabelAll g (relabelAll f children) = relabelAll (g ∘ f) children
  | [] => rfl
  | child :: rest => by
      rw [relabelAll, relabelAll, relabelAll, relabel_relabel f g child,
        relabelAll_relabelAll f g rest]

end

mutual

theorem relabel_id : (future : Future L) → future.relabel id = future
  | done _ => by rw [relabel]
  | fail _ => by rw [relabel]
  | call _ _ next => by
      rw [relabel, relabel_id next]
      rfl
  | join children next => by
      rw [relabel, relabelAll_id children]
      congr 1
      funext values
      exact relabel_id (next values)

theorem relabelAll_id : (children : List (Future L)) → relabelAll id children = children
  | [] => rfl
  | child :: rest => by rw [relabelAll, relabel_id child, relabelAll_id rest]

end

end Future

end Waypoint
