import Waypoint.Proofs.Future.Order

/-!
# Asking the children of joins on time

A visit keeps a traversal on time (`Running.Timed`). What matters for joins of at most thirty
children is which of two children that fail at the same time is seen first. A child in which no
large joins are nested has been asked for all that it contains, so if it should have finished and
has not, one of its callbacks was put off; then the allowance of the round is used up and no child
after it finishes either.
-/

namespace Waypoint

variable {L : Type}

/-- Callbacks are put off only where the allowance is used up. -/
def World.Thrifty (world : World L) : Prop :=
  world.putOff = [] ∨ world.credit = 0

theorem World.Thrifty.later {world later : World L} (thrifty : world.Thrifty)
    (after : world.Later later) : later.Thrifty := by
  have fewer := after.credit
  rcases after.used with same | used
  · rcases thrifty with none | used
    · exact .inl (same.trans none)
    · exact .inr (by omega)
  · exact .inr used

namespace Running

/-- A visit of a traversal on time. -/
structure Timed (wait : L → Nat) (finish : Finish Doc) (running : Running L) (world : World L)
    (visit : Visit L) : Prop where
  onTime : OnTime wait world.now finish visit.running
  begun : visit.running.isFinished = false → 0 < finish.time
  /-- Only large joins are restless. -/
  calm : finish.nesting = 0 → visit.restless = false
  /-- Only nested ones leave anything unasked. -/
  firm : finish.nesting ≤ 1 → Quiet visit.world visit.running
  /-- Where no wait may end, nothing finishes. -/
  stuck : 0 < world.now → world.credit = 0 → running.isFinished = false →
    visit.running.isFinished = false

/-- A visit after which a traversal has finished. -/
theorem Timed.of_end {wait : L → Nat} {finish : Finish Doc} {running : Running L}
    {result : Except PathError Doc} {world world' : World L} {restless : Bool}
    (onTime : OnTime wait world.now finish (.finished result : Running L))
    (calm : finish.nesting = 0 → restless = false)
    (possible : 0 < world.now → world.credit = 0 → running.isFinished = true) :
    Timed wait finish running world ⟨.finished result, world', restless⟩ where
  onTime := onTime
  begun := fun unfinished => by cases unfinished
  calm := calm
  firm := fun _ => .finished result
  stuck := fun at_work used unfinished => by
    cases (possible at_work used).symm.trans unfinished

theorem Timed.of_finished {wait : L → Nat} {finish : Finish Doc} {result : Except PathError Doc}
    {world : World L} (onTime : OnTime wait world.now finish (.finished result)) :
    Timed wait finish (.finished result) world ⟨.finished result, world, false⟩ :=
  .of_end onTime (fun _ => rfl) fun _ _ => rfl

/-- Asking keeps traversals on time that have no more than some steps left. -/
structure Prompt (wait : L → Nat) (ask : Running L → World L → Visit L) (depth : Nat) :
    Prop where
  sound : Sound ask depth
  precedes : ∀ (running : Running L) (world : World L), world.Precedes (ask running world).world
  ends : 0 < depth → ∀ result world,
    ask (fresh (.ofResult result)) world = ⟨finished result, world, false⟩
  timed : ∀ running world finish, Ready world running → running.size world.now ≤ depth →
    world.Thrifty → (ask running world).world.Agrees wait → OnTime wait world.now finish running →
    Timed wait finish running world (ask running world)

variable {wait : L → Nat} {ask : Running L → World L → Visit L} {depth : Nat} {world : World L}
  {elements : List (Finish Doc)} {children : List (Running L)} {agenda : Agenda}
  {inquiry : Inquiry L}

/-- A child that has not finished in time, though it fails, may lag behind, or else no child after
it finishes. -/
theorem Timed.mayLag {element : Finish Doc} {running : Running L} {visit : Visit L} {own : Failing}
    (timed : Timed wait element running world visit) (visited : Visited running world visit)
    (thrifty : world.Thrifty) (unfinished : visit.running.isFinished = false)
    (fails : element.failing? = some own) (on_time : own.time ≤ world.now) :
    element.mayLag = true ∨ 0 < world.now ∧ visit.world.credit = 0 := by
  have positive := timed.begun unfinished
  have same := (Finish.failing?_eq_some.mp fails).2.1
  by_cases deep : 2 ≤ element.nesting
  · left
    simp only [Finish.mayLag, Bool.and_eq_true, decide_eq_true_eq]
    exact ⟨positive, deep⟩
  · right
    refine ⟨by omega, ?_⟩
    rcases thrifty.later visited.after with none | used
    · -- all its callbacks wait for a later time, so it finishes later
      have quiet := timed.firm (by omega)
      have later : world.now + 1 ≤ element.time := by
        refine timed.onTime.le_of_quiet visited.ready quiet unfinished fun call own => ?_
        obtain ⟨-, postponed | ⟨-, before⟩⟩ := quiet.settled call own
        · rw [none] at postponed
          cases postponed
        · exact visited.after.now ▸ before
      omega
    · exact used

/-! ## Asking all children -/

/-- An inquiry of the children of a small join. -/
structure HeardAll (wait : L → Nat) (elements : List (Finish Doc)) (children : List (Running L))
    (world : World L) (inquiry : Inquiry L) : Prop where
  onTime : inquiry.failure = none → OnTimeAll wait world.now elements inquiry.children
  begun : inquiry.failure = none → ∀ element child,
    (element, child) ∈ elements.zip inquiry.children → child.isFinished = false →
    0 < element.time
  failed : ∀ error, inquiry.failure = some error → ∃ before first after own,
    elements = before ++ first :: after ∧ first.failing? = some own ∧ error ∈ own.reports ∧
      own.time ≤ world.now ∧ ∀ element ∈ before, ∀ mine, element.failing? = some mine →
        mine.time ≤ world.now → element.mayLag = true
  calm : (∀ element ∈ elements, element.nesting = 0) → inquiry.restless = false
  firm : inquiry.failure = none → (∀ element ∈ elements, element.nesting ≤ 1) →
    ∀ child ∈ inquiry.children, Quiet inquiry.world child
  stuck : 0 < world.now → world.credit = 0 → inquiry.failure = none ∧
    ((∃ child ∈ children, child.isFinished = false) →
      ∃ child ∈ inquiry.children, child.isFinished = false)

theorem HeardAll.cons {element : Finish Doc} {child : Running L} {visit : Visit L}
    {rest : List (Running L)} (timed : Timed wait element child world visit)
    (visited : Visited child world visit) (thrifty : world.Thrifty)
    (passes : ∀ error, visit.running ≠ finished (.error error))
    (heard : HeardAll wait elements rest visit.world inquiry)
    (after : visit.world.Later inquiry.world) :
    HeardAll wait (element :: elements) (child :: rest) world
      ((inquiry.behind visit.running).after visit.restless) := by
  have now := visited.after.now
  obtain ⟨onTime, begun, failed, calm, firm, stuck⟩ := heard
  rw [now] at onTime failed stuck
  constructor
  case onTime =>
    intro none
    exact .cons timed.onTime (onTime none)
  case begun =>
    intro none other running pair open_child
    rcases List.mem_cons.mp pair with same | later
    · obtain ⟨rfl, rfl⟩ := Prod.mk.inj same
      exact timed.begun open_child
    · exact begun none other running later open_child
  case failed =>
    -- one of the others has failed, so this child is one more of those that may lag behind
    intro error fails
    obtain ⟨before, first, others, own, rfl, first_fails, member, on_time, lag⟩ :=
      failed error fails
    refine ⟨element :: before, first, others, own, rfl, first_fails, member, on_time,
      List.forall_mem_cons.mpr ⟨?_, lag⟩⟩
    intro mine own_fails le
    cases finished : visit.running.isFinished with
    | true =>
        -- it has finished with a value, so it does not fail
        obtain ⟨result, same⟩ := eq_finished finished
        cases result with
        | ok value => cases (same ▸ timed.onTime).failing?_of_value.1.symm.trans own_fails
        | error other => exact absurd same (passes other)
    | false =>
        rcases timed.mayLag visited thrifty finished own_fails le with lags | ⟨at_work, used⟩
        · exact lags
        · cases (stuck at_work used).1.symm.trans fails
  case calm =>
    intro shallow
    rw [List.forall_mem_cons] at shallow
    show (visit.restless || inquiry.restless) = false
    rw [timed.calm shallow.1, calm shallow.2]
    rfl
  case firm =>
    intro none shallow
    rw [List.forall_mem_cons] at shallow
    exact List.forall_mem_cons.mpr
      ⟨(timed.firm shallow.1).later after.toLasts, firm none shallow.2⟩
  case stuck =>
    intro at_work used
    have still : visit.world.credit = 0 := Nat.le_zero.mp (used ▸ visited.after.credit)
    obtain ⟨none, left⟩ := stuck at_work still
    refine ⟨none, ?_⟩
    rintro ⟨other, member, open_child⟩
    rcases List.mem_cons.mp member with rfl | later
    · exact ⟨visit.running, List.mem_cons_self, timed.stuck at_work used open_child⟩
    · obtain ⟨last, inside, open_last⟩ := left ⟨other, later, open_child⟩
      exact ⟨last, List.mem_cons_of_mem _ inside, open_last⟩

theorem askAll_heard (prompt : Prompt wait ask depth) (children : List (Running L))
    (elements : List (Finish Doc)) (world : World L) (standing : Standing true world .all children)
    (bound : sizes world.now children ≤ depth) (thrifty : world.Thrifty)
    (agrees : (askAll ask true children world).world.Agrees wait)
    (onTime : OnTimeAll wait world.now elements children) :
    HeardAll wait elements children world (askAll ask true children world) := by
  fun_induction askAll ask true children world generalizing elements with
  | case1 world =>
      cases onTime
      exact ⟨fun _ => .nil, fun _ _ _ pair => (by cases pair), fun _ fails => (by cases fails),
        fun _ => rfl, fun _ _ => List.forall_mem_nil _, fun _ _ => ⟨rfl, id⟩⟩
  | case2 result rest world ih =>
      rw [sizes] at bound
      cases onTime with
      | cons here others =>
          have heard := ih _ standing.tail (by omega) thrifty agrees others
          have inquired := askAll_inquired prompt.sound rest world standing.tail (by omega)
          exact heard.cons (.of_finished here) (.of_finished result world) thrifty
            (fun error same => standing.clear rfl error (same ▸ List.mem_cons_self)) inquired.after
  | case3 child rest world unfinished visit error ends is_strict =>
      rw [sizes] at bound
      cases onTime with
      | @cons element _ elements _ here others =>
          have timed : Timed wait element child world visit :=
            prompt.timed child world element (standing.ready child List.mem_cons_self) (by omega)
              thrifty agrees here
          obtain ⟨own, fails, on_time, member⟩ := (ends ▸ timed.onTime).failing?_of_error
          constructor
          case onTime | begun | firm =>
            intro passes
            cases passes
          case failed =>
            intro other same
            obtain rfl := Option.some.inj same
            exact ⟨[], element, elements, own, rfl, fails, member, on_time, List.forall_mem_nil _⟩
          case calm =>
            intro shallow
            exact timed.calm (shallow element List.mem_cons_self)
          case stuck =>
            intro at_work used
            have open_child : child.isFinished = false := by
              cases finished : child.isFinished with
              | false => rfl
              | true =>
                  obtain ⟨result, same⟩ := eq_finished finished
                  exact absurd same (unfinished result)
            have still := timed.stuck at_work used open_child
            rw [ends] at still
            cases still
  | case4 child rest world unfinished visit passes ih =>
      rw [sizes] at bound
      cases onTime with
      | @cons element _ elements _ here others =>
          have ready := standing.ready child List.mem_cons_self
          have visited : Visited child world visit := prompt.sound child world ready (by omega)
          have rest_standing := standing.tail.later visited.after.toLasts
          have rest_bound : sizes visit.world.now rest ≤ depth := by
            rw [visited.after.now]
            omega
          have inquired := askAll_inquired prompt.sound rest visit.world rest_standing rest_bound
          have precedes := askAll_world World.Precedes.refl World.Precedes.trans prompt.precedes
            true rest visit.world
          have timed : Timed wait element child world visit :=
            prompt.timed child world element ready (by omega) thrifty
              (agrees.of_precedes precedes) here
          have heard := ih elements rest_standing rest_bound (thrifty.later visited.after) agrees
            (visited.after.now ▸ others)
          exact heard.cons timed visited thrifty (fun error same => passes error rfl same)
            inquired.after

/-! ## Asking the children in a queue -/

/-- An inquiry of the children of a large join; `whole` says that it may ask all in the queue. -/
structure HeardQueue (wait : L → Nat) (whole : Prop) (elements : List (Finish Doc))
    (children : List (Running L)) (world : World L) (inquiry : Inquiry L) : Prop where
  onTime : OnTimeAll wait world.now elements inquiry.children
  failed : ∀ error, inquiry.failure = some error → nextFailure inquiry.children = some error
  firm : whole → (∀ element ∈ elements, element.nesting = 0) → inquiry.failure = none →
    ∀ child ∈ inquiry.children, Quiet inquiry.world child
  stuck : 0 < world.now → world.credit = 0 → inquiry.failure = none ∧
    ((∃ child ∈ children, child.isFinished = false) →
      ∃ child ∈ inquiry.children, child.isFinished = false)

section Queue

variable {queue : List Nat} {index unfinished : Nat} {child : Running L} {visit : Visit L}

theorem OnTimeAll.set {now : Nat} (onTime : OnTimeAll wait now elements children)
    (at_index : children[index]? = some child) :
    ∃ element ∈ elements, OnTime wait now element child ∧ ∀ child', OnTime wait now element child' →
      OnTimeAll wait now elements (children.set index child') := by
  induction onTime generalizing index with
  | nil => cases at_index
  | @cons element first elements rest here others ih =>
      cases index with
      | zero =>
          obtain rfl : first = child := Option.some.inj at_index
          exact ⟨element, List.mem_cons_self, here, fun child' own => .cons own others⟩
      | succ index =>
          obtain ⟨other, member, own, set⟩ := ih at_index
          exact ⟨other, List.mem_cons_of_mem _ member, own,
            fun child' later => .cons here (set child' later)⟩

/-- The children are left as they are. -/
theorem HeardQueue.refl {whole : Prop} (onTime : OnTimeAll wait world.now elements children)
    (agenda : Agenda) (restless : Bool)
    (firm : whole → (∀ element ∈ elements, element.nesting = 0) →
      ∀ child ∈ children, Quiet world child) :
    HeardQueue wait whole elements children world ⟨children, agenda, none, world, restless⟩ :=
  ⟨onTime, fun _ fails => (by cases fails), fun all shallow _ => firm all shallow,
    fun _ _ => ⟨rfl, id⟩⟩

/-- The child at the front of the queue is asked, then others. -/
theorem HeardQueue.of_visit {whole whole' : Prop} {element : Finish Doc}
    (at_index : children[index]? = some child) (timed : Timed wait element child world visit)
    (visited : Visited child world visit) (unfinished : child.isFinished = false)
    (narrow : whole → (∀ element ∈ elements, element.nesting = 0) → whole')
    (heard : HeardQueue wait whole' elements (children.set index visit.running) visit.world
      inquiry) :
    HeardQueue wait whole elements children world inquiry where
  onTime := visited.after.now ▸ heard.onTime
  failed := heard.failed
  firm := fun all shallow => heard.firm (narrow all shallow) shallow
  stuck := by
    intro at_work used
    have still : visit.world.credit = 0 := Nat.le_zero.mp (used ▸ visited.after.credit)
    obtain ⟨none, left⟩ := heard.stuck (visited.after.now ▸ at_work) still
    refine ⟨none, fun _ => left ⟨visit.running, ?_, timed.stuck at_work used unfinished⟩⟩
    obtain ⟨inside, -⟩ := List.getElem?_eq_some_iff.mp at_index
    exact List.mem_set inside visit.running

theorem HeardQueue.afterwards {whole : Prop} (restless : Bool)
    (heard : HeardQueue wait whole elements children world inquiry) :
    HeardQueue wait whole elements children world (inquiry.after restless) :=
  ⟨heard.onTime, heard.failed, heard.firm, heard.stuck⟩

theorem Queueing.timed
    (queueing : Queueing true depth unfinished world (index :: queue) children)
    (prompt : Prompt wait ask depth) (at_index : children[index]? = some child)
    (thrifty : world.Thrifty) (agrees : (ask child world).world.Agrees wait)
    (onTime : OnTimeAll wait world.now elements children) :
    ∃ element ∈ elements, Timed wait element child world (ask child world) ∧
      OnTimeAll wait (ask child world).world.now elements
        (children.set index (ask child world).running) := by
  obtain ⟨element, member, own, set⟩ := onTime.set at_index
  have present := List.mem_of_getElem? at_index
  have timed := prompt.timed child world element (queueing.standing.ready child present)
    (Nat.le_trans (size_le_sizes present) queueing.bound) thrifty agrees own
  have visited := queueing.visited at_index prompt.sound
  exact ⟨element, member, timed, visited.after.now ▸ set _ timed.onTime⟩

theorem askUntil_heard (prompt : Prompt wait ask depth)
    {onward : List (Running L) → List Nat → World L → Inquiry L}
    (ahead : ∀ children queue world, World.Precedes world (onward children queue world).world)
    (goesOn : ∀ children queue world, Queueing true depth unfinished world queue children →
      world.Thrifty → (onward children queue world).world.Agrees wait →
      OnTimeAll wait world.now elements children →
      HeardQueue wait True elements children world (onward children queue world))
    (asks : Nat) (warned : Bool) (children : List (Running L)) (queue : List Nat) (world : World L)
    (queueing : Queueing true depth (unfinished + 1) world queue children)
    (thrifty : world.Thrifty)
    (agrees : (askUntil ask true onward asks warned children queue world).world.Agrees wait)
    (onTime : OnTimeAll wait world.now elements children) :
    HeardQueue wait (queue.length ≤ asks) elements children world
      (askUntil ask true onward asks warned children queue world) := by
  have further (asks : Nat) (warned : Bool) (children : List (Running L)) (queue : List Nat)
      (world : World L) :
      world.Precedes (askUntil ask true onward asks warned children queue world).world :=
    askUntil_world World.Precedes.refl World.Precedes.trans prompt.precedes true ahead asks warned
      children queue world
  have left (world : World L) (children : List (Running L)) (queue : List Nat)
      (standing : Standing true world (.queued queue) children) (none : queue = []) :
      ∀ child ∈ children, Quiet world child := by
    intro child member
    obtain ⟨index, at_index⟩ := List.getElem?_of_mem member
    rcases standing.attended.quiet index child at_index with asks | quiet
    · rw [none] at asks
      cases asks
    · exact quiet
  fun_induction askUntil ask true onward asks warned children queue world with
  | case1 warned children queue world =>
      refine .refl onTime _ _ fun short _ => ?_
      exact left world children queue queueing.standing (List.length_eq_zero_iff.mp (by omega))
  | case2 asks warned children world =>
      exact .refl onTime _ _ fun _ _ => left world children [] queueing.standing rfl
  | case3 asks warned children index queue world missing ih =>
      -- a queue holds positions of children only
      obtain ⟨child, at_index, _⟩ := queueing.standing.attended.fits.2 index List.mem_cons_self
      rw [missing] at at_index
      cases at_index
  | case4 asks warned children index queue world child at_index visit children' finished error next
      is_strict =>
      obtain ⟨element, member, timed, set⟩ :=
        queueing.timed prompt at_index thrifty agrees onTime
      have visited := queueing.visited at_index prompt.sound
      constructor
      case onTime => exact visited.after.now ▸ set
      case failed =>
        intro other same
        obtain rfl := Option.some.inj same
        exact next
      case firm =>
        intro short shallow passes
        cases passes
      case stuck =>
        intro at_work used
        have still := timed.stuck at_work used (queueing.unfinished_front at_index)
        cases still.symm.trans finished
  | case5 asks warned children index queue world child at_index visit children' finished passes =>
      have visited := queueing.visited at_index prompt.sound
      have goes_on := queueing.finish at_index visited finished fun is_strict => by
        cases next : nextFailure (children.set index visit.running) with
        | none => rfl
        | some error => exact absurd next (passes error is_strict)
      obtain ⟨element, member, timed, set⟩ := queueing.timed prompt at_index thrifty
        (agrees.of_precedes (ahead _ queue visit.world)) onTime
      have heard := goesOn _ queue visit.world goes_on (thrifty.later visited.after) agrees set
      exact .of_visit at_index timed visited (queueing.unfinished_front at_index)
        (fun _ _ => trivial) (heard.afterwards _)
  | case6 asks children index queue world child at_index visit children' unfinished restless =>
      obtain ⟨element, member, timed, set⟩ :=
        queueing.timed prompt at_index thrifty agrees onTime
      exact .of_visit at_index timed (queueing.visited at_index prompt.sound)
        (queueing.unfinished_front at_index)
        (fun _ shallow => Bool.false_ne_true ((timed.calm (shallow element member)).symm.trans
          restless)) (.refl set _ _ False.elim)
  | case7 asks warned children index queue world child at_index visit children' unfinished restless
      first ih =>
      have visited := queueing.visited at_index prompt.sound
      have goes_on := queueing.requeue at_index visited (Bool.eq_false_iff.mpr unfinished)
      obtain ⟨element, member, timed, set⟩ := queueing.timed prompt at_index thrifty
        (agrees.of_precedes (further asks true _ (queue ++ [index]) visit.world)) onTime
      have heard := ih goes_on (thrifty.later visited.after) agrees set
      exact .of_visit at_index timed visited (queueing.unfinished_front at_index)
        (fun _ shallow => absurd ((timed.calm (shallow element member)).symm.trans restless)
          Bool.false_ne_true) (heard.afterwards _)
  | case8 asks warned children index queue world child at_index visit children' unfinished calm
      ih =>
      have visited := queueing.visited at_index prompt.sound
      have goes_on := queueing.pop at_index visited (Bool.eq_false_iff.mpr unfinished)
        (Bool.eq_false_iff.mpr calm)
      obtain ⟨element, member, timed, set⟩ := queueing.timed prompt at_index thrifty
        (agrees.of_precedes (further asks warned _ queue visit.world)) onTime
      have heard := ih goes_on (thrifty.later visited.after) agrees set
      exact .of_visit at_index timed visited (queueing.unfinished_front at_index)
        (fun short _ => Nat.le_of_succ_le_succ short) heard

theorem askQueued_heard (prompt : Prompt wait ask depth) (unfinished : Nat)
    (children : List (Running L)) (queue : List Nat) (world : World L)
    (queueing : Queueing true depth unfinished world queue children) (thrifty : world.Thrifty)
    (agrees : (askQueued ask true unfinished children queue world).world.Agrees wait)
    (onTime : OnTimeAll wait world.now elements children) :
    HeardQueue wait True elements children world
      (askQueued ask true unfinished children queue world) := by
  induction unfinished generalizing children queue world with
  | zero =>
      -- the count bounds the unfinished children, so all have finished
      refine .refl onTime _ _ fun _ _ child member => ?_
      have none := List.countP_eq_zero.mp (Nat.le_zero.mp queueing.few) child member
      exact .of_isFinished world (by simpa using none)
  | succ unfinished ih =>
      have ahead := askQueued_world World.Precedes.refl World.Precedes.trans prompt.precedes true
        unfinished
      have heard := askUntil_heard prompt ahead ih (unfinished + 1) false children queue world
        queueing thrifty agrees onTime
      have short : queue.length ≤ unfinished + 1 :=
        queueing.standing.attended.fits.length_le.trans queueing.few
      exact ⟨heard.onTime, heard.failed, fun _ => heard.firm short, heard.stuck⟩

end Queue

/-! ## Asking the children of a join -/

/-- An inquiry of the children of a join. -/
structure Heard (wait : L → Nat) (elements : List (Finish Doc)) (children : List (Running L))
    (world : World L) (inquiry : Inquiry L) : Prop where
  onTime : inquiry.failure = none → OnTimeAll wait world.now elements inquiry.children
  failed : ∀ error, inquiry.failure = some error →
    (Finish.gather elements).time ≤ world.now ∧ (Finish.gather elements).Admits (.error error)
  calm : (Finish.gather elements).nesting = 0 → inquiry.restless = false
  firm : inquiry.failure = none → (Finish.gather elements).nesting ≤ 1 →
    ∀ child ∈ inquiry.children, Quiet inquiry.world child
  stuck : 0 < world.now → world.credit = 0 → inquiry.failure = none ∧
    ((∃ child ∈ children, child.isFinished = false) →
      ∃ child ∈ inquiry.children, child.isFinished = false)

theorem inquire_heard (prompt : Prompt wait ask depth)
    (standing : Standing true world agenda children)
    (bound : sizes world.now children ≤ depth) (suits : agenda.Suits elements.length)
    (thrifty : world.Thrifty)
    (agrees : (inquire ask true children agenda world).world.Agrees wait)
    (onTime : OnTimeAll wait world.now elements children)
    (le : world.now ≤ (Finish.gather elements).time) :
    Heard wait elements children world (inquire ask true children agenda world) := by
  have deep {element : Finish Doc} (member : element ∈ elements) :=
    Finish.nesting_le_deepest member
  cases agenda with
  | all =>
      obtain ⟨onTime, -, failed, calm, firm, stuck⟩ :=
        askAll_heard prompt children elements world standing bound thrifty agrees onTime
      have nesting : (Finish.gather elements).nesting = Finish.deepest elements := by
        rw [Finish.nesting_gather, Finish.nestingOf,
          if_pos (show elements.length ≤ Agenda.threshold from suits), Nat.add_zero]
      constructor
      case onTime => exact onTime
      case failed =>
        intro error fails
        obtain ⟨before, first, after, own, rfl, first_fails, member, on_time, lag⟩ :=
          failed error fails
        exact Finish.gather_small_fails suits first_fails member on_time lag le
      case calm =>
        intro shallow
        refine calm fun element member => ?_
        have := deep member
        omega
      case firm =>
        intro none shallow
        refine firm none fun element member => ?_
        have := deep member
        omega
      case stuck => exact stuck
  | queued queue =>
      obtain ⟨onTime, failed, firm, stuck⟩ := askQueued_heard prompt _ children queue world
        ⟨standing, bound, Nat.le_refl _⟩ thrifty agrees onTime
      have nesting : (Finish.gather elements).nesting = Finish.deepest elements + 1 := by
        rw [Finish.nesting_gather, Finish.nestingOf,
          if_neg (show ¬ elements.length ≤ Agenda.threshold from suits)]
      constructor
      case onTime => exact fun _ => onTime
      case failed =>
        intro error fails
        exact onTime.gather_of_nextFailure suits (failed error fails)
      case calm =>
        intro shallow
        omega
      case firm =>
        intro none shallow
        refine firm trivial (fun element member => ?_) none
        have := deep member
        omega
      case stuck => exact stuck

/-! ## Joins that begin -/

/-- A child that comes after finished ones only comes after elements with values. -/
theorem OnTimeAll.split_at {now : Nat} {before after : List (Running L)} {child : Running L}
    (onTime : OnTimeAll wait now elements (before ++ child :: after))
    (finished : ∀ other ∈ before, other.isFinished = true)
    (clear : nextFailure (before ++ child :: after) = none) :
    ∃ values first rest, elements = values ++ first :: rest ∧
      (∀ element ∈ values, element.failing? = none) ∧ OnTime wait now first child := by
  induction before generalizing elements with
  | nil =>
      cases onTime with
      | @cons element _ elements _ here others =>
          exact ⟨[], element, elements, rfl, List.forall_mem_nil _, here⟩
  | cons other before ih =>
      rw [List.forall_mem_cons] at finished
      cases onTime with
      | @cons element _ elements _ here others =>
          obtain ⟨result, rfl⟩ := eq_finished finished.1
          cases result with
          | error error => cases clear
          | ok value =>
              obtain ⟨values, first, rest, rfl, ok, own⟩ := ih others finished.2 clear
              exact ⟨element :: values, first, rest, rfl,
                List.forall_mem_cons.mpr ⟨here.failing?_of_value.1, ok⟩, own⟩

/-- The child at the front of the queue is asked first. -/
theorem askUntil_front (prompt : Prompt wait ask depth)
    {onward : List (Running L) → List Nat → World L → Inquiry L}
    (ahead : ∀ children queue world, World.Precedes world (onward children queue world).world)
    {index : Nat} {child : Running L} (at_index : children[index]? = some child) (asks : Nat)
    (warned : Bool) (queue : List Nat) (world : World L) :
    (ask child world).world.Precedes
      (askUntil ask true onward (asks + 1) warned children (index :: queue) world).world := by
  have further := askUntil_world World.Precedes.refl World.Precedes.trans prompt.precedes true ahead
    asks
  simp only [askUntil, at_index]
  split
  · split
    · exact .refl _
    · exact ahead _ _ _
  · split
    · split
      · exact .refl _
      · exact further _ _ _ _
    · exact further _ _ _ _

/-- A large join that goes on after it has begun takes some time: its first unfinished child has
been asked. -/
theorem askQueued_begun (prompt : Prompt wait ask depth)
    (large : ¬ elements.length ≤ Agenda.threshold) (rest : List (Future L))
    (before : List (Running L)) (world : World L)
    (finished : ∀ child ∈ before, child.isFinished = true)
    (queueing : Queueing true depth rest.length world (List.range' before.length rest.length)
      (before ++ rest.map fresh))
    (thrifty : world.Thrifty)
    (agrees : (askQueued ask true rest.length (before ++ rest.map fresh)
      (List.range' before.length rest.length) world).world.Agrees wait)
    (onTime : OnTimeAll wait world.now elements (before ++ rest.map fresh))
    (passes : (askQueued ask true rest.length (before ++ rest.map fresh)
      (List.range' before.length rest.length) world).failure = none)
    (missing : values? (askQueued ask true rest.length (before ++ rest.map fresh)
      (List.range' before.length rest.length) world).children = none) :
    0 < (Finish.gather elements).time := by
  -- the queue is asked from the front: all children before its head have finished, with values
  induction rest generalizing before world with
  | nil =>
      -- no child is left, but one of them has no value
      obtain ⟨child, member, open_child⟩ :=
        (queueing.standing.clear rfl).exists_unfinished missing
      rw [List.map_nil, List.append_nil] at member
      cases (finished child member).symm.trans open_child
  | cons future rest ih =>
      have at_index : (before ++ (future :: rest).map fresh)[before.length]? =
          some (fresh future) := by
        rw [List.getElem?_append_right (Nat.le_refl _)]
        simp
      rw [List.length_cons, List.range'_succ, askQueued] at agrees passes missing
      rw [List.length_cons, List.range'_succ] at queueing
      have ahead := askQueued_world World.Precedes.refl World.Precedes.trans prompt.precedes true
        rest.length
      have visited := queueing.visited at_index prompt.sound
      have seen := agrees.of_precedes (askUntil_front prompt ahead at_index _ _ _ world)
      cases ended : (ask (fresh future) world).running.isFinished with
      | false =>
          -- nothing but values comes before it, so the join takes no less time
          obtain ⟨values, first, others, rfl, ok, own⟩ :=
            onTime.split_at finished (queueing.standing.clear rfl)
          have bound := (size_le_sizes (List.mem_of_getElem? at_index)).trans queueing.bound
          have timed := prompt.timed (fresh future) world first (.fresh future) bound thrifty seen
            own
          exact Finish.le_gather_of_large large ok (timed.begun ended)
      | true =>
          obtain ⟨element, member, timed, set⟩ := queueing.timed prompt at_index thrifty seen onTime
          have shape : (before ++ (future :: rest).map fresh).set before.length
              (ask (fresh future) world).running =
                (before ++ [(ask (fresh future) world).running]) ++ rest.map fresh := by
            rw [List.set_append_right _ _ (Nat.le_refl _)]
            simp
          simp only [askUntil, at_index, ended, if_true] at agrees passes missing
          cases next : nextFailure ((before ++ (future :: rest).map fresh).set before.length
              (ask (fresh future) world).running) with
          | some error =>
              simp only [next] at passes
              cases passes
          | none =>
              simp only [next] at agrees passes missing
              have goes_on := queueing.finish at_index visited ended fun _ => next
              have count : before.length + 1 =
                  (before ++ [(ask (fresh future) world).running]).length := by simp
              rw [shape, count] at goes_on agrees passes missing
              rw [shape] at set
              refine ih _ _ (fun child member => ?_) goes_on (thrifty.later visited.after) agrees
                set passes missing
              rcases List.mem_append.mp member with earlier | last
              · exact finished child earlier
              · exact List.mem_singleton.mp last ▸ ended

/-- A join that goes on after it has begun takes some time. -/
theorem inquire_begun (prompt : Prompt wait ask depth) (futures : List (Future L))
    (bound : sizes world.now (futures.map fresh) ≤ depth) (thrifty : world.Thrifty)
    (agrees : (inquire ask true (futures.map fresh) (.ofCount futures.length) world).world.Agrees
      wait)
    (onTime : OnTimeAll wait world.now elements (futures.map fresh))
    (passes : (inquire ask true (futures.map fresh) (.ofCount futures.length) world).failure = none)
    (missing : values? (inquire ask true (futures.map fresh) (.ofCount futures.length)
      world).children = none) : 0 < (Finish.gather elements).time := by
  have standing := Standing.of_fresh true world futures
  have length : elements.length = futures.length := by
    rw [(onTimeAll_iff.mp onTime).1, List.length_map]
  by_cases small : futures.length ≤ Agenda.threshold
  · have agenda : Agenda.ofCount futures.length = .all := if_pos small
    rw [agenda] at agrees passes missing standing
    have heard := askAll_heard prompt _ elements world standing bound thrifty agrees onTime
    have kept := (askAll_inquired prompt.sound _ world standing bound).kept passes
    have clear := kept.standing.clear rfl
    rw [askAll_agenda] at clear
    have suits : Agenda.all.Suits elements.length := length ▸ small
    exact (heard.onTime passes).le_gather suits clear missing (heard.begun passes)
  · have agenda : Agenda.ofCount futures.length = .queued (List.range futures.length) :=
      if_neg small
    rw [agenda] at agrees passes missing standing
    have count : ((futures.map fresh).countP fun child : Running L => !child.isFinished) =
        futures.length := by
      rw [List.countP_map, List.countP_eq_length]
      exact fun _ _ => rfl
    rw [inquire, count, List.range_eq_range'] at agrees passes missing
    rw [List.range_eq_range'] at standing
    exact askQueued_begun prompt (by omega) futures [] world (List.forall_mem_nil _)
      ⟨standing, bound, Nat.le_of_eq count⟩ thrifty agrees onTime passes missing

end Running

end Waypoint
