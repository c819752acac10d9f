import Waypoint.Proofs.Future.Polling

/-!
# Children asked in turn

In whichever way a join asks its children, it asks one after another (`Running.Turns`), and none
before those of lower index have been asked for the first time: a queue holds the children that are
still fresh in the order of their indices (`Agenda.InOrder`). So what holds of the children and the
world and is kept by one visit is kept by an inquiry.
-/

namespace Waypoint

variable {L : Type}

namespace Running

/-- Whether it has not been asked for anything. -/
def isFresh : Running L → Bool
  | fresh _ => true
  | _ => false

theorem isFresh_of_finished {running : Running L} (finished : running.isFinished = true) :
    running.isFresh = false := by
  obtain ⟨result, rfl⟩ := eq_finished finished
  rfl

theorem Quiet.begun {running : Running L} {world : World L} (quiet : Quiet world running) :
    running.isFresh = false := by
  cases quiet <;> rfl

/-- Nothing that has been asked is fresh. -/
def Begins (ask : Running L → World L → Visit L) (depth : Nat) : Prop :=
  ∀ running world, Ready world running → running.size world.now ≤ depth →
    (ask running world).running.isFresh = false

section Poll

variable {ask : Running L → World L → Visit L} {depth : Nat} {world : World L}

theorem pollCall_begins (begins : Begins ask depth) (call : PendingCall L) {next : Future L}
    (bound : next.size ≤ depth) (world : World L) :
    (pollCall (ask (fresh next)) call next world).running.isFresh = false := by
  unfold pollCall
  split
  · rfl
  · split
    · rfl
    · split
      · exact begins (fresh next) _ (.fresh next) bound
      · rfl

theorem pollJoin_begins (sound : Sound ask depth) (begins : Begins ask depth)
    {children : List (Running L)} {agenda : Agenda}
    (standing : Standing true world agenda children) (next : List Doc → Future L)
    (bound : (joining children agenda next).size world.now ≤ depth + 1) :
    (pollJoin ask children agenda next world).running.isFresh = false := by
  have children_bound : sizes world.now children ≤ depth := by
    rw [size] at bound
    omega
  have inquired := inquire_inquired sound standing children_bound
  unfold pollJoin
  generalize inquire ask true children agenda world = inquiry at inquired
  cases failure : inquiry.failure with
  | some error =>
      simp only [failure]
      rfl
  | none =>
      simp only [failure]
      cases all : values? inquiry.children with
      | none => rfl
      | some values =>
          -- the values are the expected ones, so the size already counts what comes after them
          have expected : expectedAll children = some values :=
            (inquired.kept failure).refines.expectedAll_eq.symm.trans (expectedAll_of_values all)
          rw [size, expected, Future.sizeAfter] at bound
          exact begins (fresh (next values)) _ (.fresh _)
            (show (next values).size ≤ depth by omega)

theorem poll_begins (depth : Nat) : Begins (@poll L depth) depth := by
  induction depth with
  | zero =>
      -- only what has finished is that small
      intro running world ready bound
      cases finished : running.isFinished with
      | true => exact isFresh_of_finished finished
      | false =>
          have := size_pos finished world.now
          omega
  | succ depth ih =>
      intro running world ready bound
      cases ready with
      | finished result => rfl
      | @waiting call next timely =>
          refine pollCall_begins ih call ?_ world
          have := call.size_pos world.now
          rw [size] at bound
          omega
      | @joining children agenda next ready attended clear missing =>
          exact pollJoin_begins (poll_sound depth) ih ⟨ready, attended, fun _ => clear⟩ next bound
      | fresh future =>
          cases future with
          | done value => rfl
          | fail error => rfl
          | call label notices next =>
              rw [size, Future.size] at bound
              rw [poll]
              split
              · exact ih (fresh next) _ (.fresh next) (show next.size ≤ depth by omega)
              · exact pollCall_begins ih _ (by omega) _
          | join children next =>
              refine pollJoin_begins (poll_sound depth) ih (.of_fresh true world children) next ?_
              rw [size, Future.size_join] at bound
              rw [size, sizes_map_fresh, expectedAll_map_fresh]
              omega

end Poll

end Running

/-- The children in a queue that are still fresh come in the order of their indices. -/
def Agenda.InOrder (agenda : Agenda) (children : List (Running L)) : Prop :=
  match agenda with
  | .all => True
  | .queued queue => queue.Pairwise fun index later =>
      ∀ child, children[later]? = some child → child.isFresh = true → index < later

theorem Agenda.inOrder_ofCount (count : Nat) (children : List (Running L)) :
    (Agenda.ofCount count).InOrder children := by
  unfold Agenda.ofCount
  split
  · trivial
  · exact List.pairwise_lt_range.imp fun less _ _ _ => less

namespace Running

/-- Children are asked one after another, each of them when no child before it is fresh. -/
inductive Turns (ask : Running L → World L → Visit L) (depth : Nat) :
    List (Running L) → World L → List (Running L) → World L → Prop
  | none (children : List (Running L)) (world : World L) :
      Turns ask depth children world children world
  | next {children children' : List (Running L)} {world world' : World L} {index : Nat}
      {child : Running L} (at_index : children[index]? = some child) (ready : Ready world child)
      (bound : child.size world.now ≤ depth)
      (begun : ∀ other sibling, other < index → children[other]? = some sibling →
        sibling.isFresh = false)
      (rest : Turns ask depth (children.set index (ask child world).running)
        (ask child world).world children' world') :
      Turns ask depth children world children' world'

/-- An inquiry asks children in turn, and unless it ends with a failure it leaves them so. -/
structure Asked (ask : Running L → World L → Visit L) (depth : Nat) (children : List (Running L))
    (world : World L) (inquiry : Inquiry L) : Prop where
  turns : ∃ children', Turns ask depth children world children' inquiry.world ∧
    (inquiry.failure = none → inquiry.children = children')
  inOrder : inquiry.failure = none → inquiry.agenda.InOrder inquiry.children

variable {ask : Running L → World L → Visit L} {depth : Nat} {strict : Bool} {world : World L}
  {agenda : Agenda} {children : List (Running L)}

/-! ## Asking all children -/

/-- The first child after those that have been asked is asked, then others. -/
theorem Turns.front {before rest children' : List (Running L)} {child : Running L}
    {world' : World L} (begun : ∀ other ∈ before, other.isFresh = false)
    (ready : Ready world child) (bound : child.size world.now ≤ depth)
    (turns : Turns ask depth (before ++ [(ask child world).running] ++ rest)
      (ask child world).world children' world') :
    Turns ask depth (before ++ child :: rest) world children' world' := by
  have at_index : (before ++ child :: rest)[before.length]? = some child := by
    rw [List.getElem?_append_right (Nat.le_refl _)]
    simp
  refine .next at_index ready bound (fun other sibling less at_other => ?_) ?_
  · rw [List.getElem?_append_left less] at at_other
    exact begun sibling (List.mem_of_getElem? at_other)
  · rw [List.set_append_right _ _ (Nat.le_refl _), Nat.sub_self, List.set_cons_zero]
    simpa using turns

theorem askAll_asked (sound : Sound ask depth) (begins : Begins ask depth)
    (before children : List (Running L)) (world : World L)
    (standing : Standing strict world .all children) (bound : sizes world.now children ≤ depth)
    (begun : ∀ child ∈ before, child.isFresh = false) :
    ∃ children', Turns ask depth (before ++ children) world (before ++ children')
        (askAll ask strict children world).world ∧
      ((askAll ask strict children world).failure = none →
        (askAll ask strict children world).children = children') := by
  fun_induction askAll ask strict children world generalizing before with
  | case1 world => exact ⟨[], .none _ _, fun _ => rfl⟩
  | case2 result rest world ih =>
      rw [sizes] at bound
      obtain ⟨children', turns, same⟩ := ih (before ++ [finished result]) standing.tail (by omega)
        (List.forall_mem_append.mpr ⟨begun, List.forall_mem_singleton.mpr rfl⟩)
      refine ⟨finished result :: children', ?_, fun passes =>
        congrArg (finished result :: ·) (same passes)⟩
      rw [List.append_cons before (finished result) rest,
        List.append_cons before (finished result) children']
      exact turns
  | case3 child rest world unfinished visit error ends is_strict =>
      rw [sizes] at bound
      refine ⟨visit.running :: rest, ?_, fun passes => by cases passes⟩
      refine .front begun (standing.ready child List.mem_cons_self) (by omega) ?_
      rw [List.append_cons before visit.running rest]
      exact .none _ _
  | case4 child rest world unfinished visit passes ih =>
      rw [sizes] at bound
      have ready := standing.ready child List.mem_cons_self
      have visited : Visited child world visit := sound child world ready (by omega)
      have rest_bound : sizes visit.world.now rest ≤ depth := by
        rw [visited.after.now]
        omega
      have begun' : ∀ other ∈ before ++ [visit.running], other.isFresh = false :=
        List.forall_mem_append.mpr
          ⟨begun, List.forall_mem_singleton.mpr (begins child world ready (by omega))⟩
      obtain ⟨children', turns, same⟩ := ih (before ++ [visit.running])
        (standing.tail.later visited.after.toLasts) rest_bound begun'
      refine ⟨visit.running :: children', .front begun ready (by omega) ?_, fun none =>
        congrArg (visit.running :: ·) (same none)⟩
      rw [List.append_cons before visit.running children']
      exact turns

/-! ## Asking the children in a queue -/

section Queue

variable {queue : List Nat} {index : Nat} {child child' : Running L}

/-- The child at the front of the queue is asked when no child before it is fresh: a fresh one would
be in the queue, behind it. -/
theorem Attended.begun (attended : Attended world (.queued (index :: queue)) children)
    (ordered : (Agenda.queued (index :: queue)).InOrder children) :
    ∀ other sibling, other < index → children[other]? = some sibling →
      sibling.isFresh = false := by
  intro other sibling less at_other
  cases fresh : sibling.isFresh with
  | false => rfl
  | true =>
      rcases attended.quiet other sibling at_other with asks | quiet
      · rcases List.mem_cons.mp asks with same | behind
        · omega
        · have := (List.pairwise_cons.mp ordered).1 other behind sibling at_other fresh
          omega
      · cases quiet.begun.symm.trans fresh

/-- The queue stays in order when a child in it is no longer fresh. -/
theorem inOrder_set (ordered : (Agenda.queued queue).InOrder children)
    (at_index : children[index]? = some child) (begun : child'.isFresh = false) :
    (Agenda.queued queue).InOrder (children.set index child') := by
  refine List.Pairwise.imp ?_ ordered
  intro first later less other at_later fresh
  rw [getElem?_set_of_at at_index] at at_later
  by_cases same : later = index
  · rw [if_pos same] at at_later
    obtain rfl := Option.some.inj at_later
    cases begun.symm.trans fresh
  · rw [if_neg same] at at_later
    exact less other at_later fresh

theorem inOrder_pop (ordered : (Agenda.queued (index :: queue)).InOrder children) :
    (Agenda.queued queue).InOrder children :=
  (List.pairwise_cons.mp ordered).2

/-- Those that are not fresh may stand at the end of the queue. -/
theorem inOrder_append (ordered : (Agenda.queued queue).InOrder children) (more : List Nat)
    (begun : ∀ index ∈ more, ∀ child, children[index]? = some child → child.isFresh = false) :
    (Agenda.queued (queue ++ more)).InOrder children := by
  have behind (first later : Nat) (member : later ∈ more) (child : Running L)
      (at_later : children[later]? = some child) (fresh : child.isFresh = true) :
      first < later := by
    cases (begun later member child at_later).symm.trans fresh
  refine List.pairwise_append.mpr ⟨ordered, ?_, fun first _ later => behind first later⟩
  exact List.pairwise_of_forall_mem_list fun first _ later => behind first later

theorem inOrder_requeue (ordered : (Agenda.queued (index :: queue)).InOrder children)
    (at_index : children[index]? = some child) (begun : child'.isFresh = false) :
    (Agenda.queued (queue ++ [index])).InOrder (children.set index child') := by
  refine inOrder_append (inOrder_set (inOrder_pop ordered) at_index begun) [index] ?_
  intro other member sibling at_other
  rw [List.mem_singleton.mp member, getElem?_set_of_at at_index, if_pos rfl] at at_other
  obtain rfl := Option.some.inj at_other
  exact begun

/-- The child at the front of the queue is asked, then others. -/
theorem Queueing.asked {unfinished : Nat} {inquiry : Inquiry L}
    (queueing : Queueing strict depth unfinished world (index :: queue) children)
    (ordered : (Agenda.queued (index :: queue)).InOrder children)
    (at_index : children[index]? = some child)
    (rest : Asked ask depth (children.set index (ask child world).running) (ask child world).world
      inquiry) : Asked ask depth children world inquiry := by
  have present := List.mem_of_getElem? at_index
  obtain ⟨children', turns, same⟩ := rest.turns
  refine ⟨⟨children', ?_, same⟩, rest.inOrder⟩
  exact .next at_index (queueing.standing.ready child present)
    ((size_le_sizes present).trans queueing.bound)
    (queueing.standing.attended.begun ordered) turns

theorem Asked.refl (agenda : Agenda) (failure : Option PathError) (world : World L)
    (restless : Bool) (ordered : failure = none → agenda.InOrder children) :
    Asked ask depth children world ⟨children, agenda, failure, world, restless⟩ :=
  ⟨⟨children, .none children world, fun _ => rfl⟩, ordered⟩

theorem Asked.after {inquiry : Inquiry L} (asked : Asked ask depth children world inquiry)
    (restless : Bool) : Asked ask depth children world (inquiry.after restless) :=
  ⟨asked.turns, asked.inOrder⟩

theorem askUntil_asked (sound : Sound ask depth) (begins : Begins ask depth)
    {onward : List (Running L) → List Nat → World L → Inquiry L} {unfinished : Nat}
    (goesOn : ∀ children queue world, Queueing strict depth unfinished world queue children →
      (Agenda.queued queue).InOrder children →
      Asked ask depth children world (onward children queue world))
    (asks : Nat) (warned : Bool) (children : List (Running L)) (queue : List Nat)
    (world : World L) (queueing : Queueing strict depth (unfinished + 1) world queue children)
    (ordered : (Agenda.queued queue).InOrder children) :
    Asked ask depth children world
      (askUntil ask strict onward asks warned children queue world) := by
  have begun {world : World L} {children : List (Running L)} {queue : List Nat} {index : Nat}
      {child : Running L}
      (queueing : Queueing strict depth (unfinished + 1) world (index :: queue) children)
      (at_index : children[index]? = some child) : (ask child world).running.isFresh = false :=
    have present := List.mem_of_getElem? at_index
    begins child world (queueing.standing.ready child present)
      ((size_le_sizes present).trans queueing.bound)
  fun_induction askUntil ask strict onward asks warned children queue world with
  | case1 | case2 => exact .refl _ _ _ _ fun _ => ordered
  | case3 asks warned children index queue world missing ih =>
      -- a queue holds positions of children only
      obtain ⟨child, at_index, _⟩ := queueing.standing.attended.fits.2 index List.mem_cons_self
      rw [missing] at at_index
      cases at_index
  | case4 asks warned children index queue world child at_index visit children' finished error next
      is_strict =>
      exact queueing.asked ordered at_index (.refl _ _ _ _ fun passes => by cases passes)
  | case5 asks warned children index queue world child at_index visit children' finished passes =>
      have visited := queueing.visited at_index sound
      have none (is_strict : strict = true) :
          nextFailure (children.set index visit.running) = .none := by
        cases next : nextFailure (children.set index visit.running) with
        | none => rfl
        | some error => exact absurd next (passes error is_strict)
      have rest := goesOn _ _ _ (queueing.finish at_index visited finished none)
        (inOrder_set (inOrder_pop ordered) at_index (isFresh_of_finished finished))
      exact queueing.asked ordered at_index (rest.after _)
  | case6 asks children index queue world child at_index visit children' unfinished restless =>
      exact queueing.asked ordered at_index (.refl _ _ _ _ fun _ =>
        inOrder_requeue ordered at_index (begun queueing at_index))
  | case7 asks warned children index queue world child at_index visit children' unfinished restless
      first ih =>
      have visited := queueing.visited at_index sound
      have rest := ih (queueing.requeue at_index visited (Bool.eq_false_iff.mpr unfinished))
        (inOrder_requeue ordered at_index (begun queueing at_index))
      exact queueing.asked ordered at_index (rest.after true)
  | case8 asks warned children index queue world child at_index visit children' unfinished calm
      ih =>
      have visited := queueing.visited at_index sound
      have rest := ih (queueing.pop at_index visited (Bool.eq_false_iff.mpr unfinished)
        (Bool.eq_false_iff.mpr calm))
        (inOrder_set (inOrder_pop ordered) at_index (begun queueing at_index))
      exact queueing.asked ordered at_index rest

theorem askQueued_asked (sound : Sound ask depth) (begins : Begins ask depth) (unfinished : Nat)
    (children : List (Running L)) (queue : List Nat) (world : World L)
    (queueing : Queueing strict depth unfinished world queue children)
    (ordered : (Agenda.queued queue).InOrder children) :
    Asked ask depth children world (askQueued ask strict unfinished children queue world) := by
  induction unfinished generalizing children queue world with
  | zero => exact .refl _ _ _ _ fun _ => ordered
  | succ unfinished ih =>
      exact askUntil_asked sound begins ih (unfinished + 1) false children queue world queueing
        ordered

end Queue

/-- A join asks its children in turn. -/
theorem inquire_asked (sound : Sound ask depth) (begins : Begins ask depth)
    (standing : Standing strict world agenda children) (bound : sizes world.now children ≤ depth)
    (ordered : agenda.InOrder children) :
    Asked ask depth children world (inquire ask strict children agenda world) := by
  cases agenda with
  | all =>
      refine ⟨askAll_asked sound begins [] children world standing bound (List.forall_mem_nil _),
        fun _ => ?_⟩
      show (askAll ask strict children world).agenda.InOrder _
      rw [askAll_agenda]
      trivial
  | queued queue =>
      exact askQueued_asked sound begins _ children queue world
        ⟨standing, bound, Nat.le_refl _⟩ ordered

end Running

end Waypoint
