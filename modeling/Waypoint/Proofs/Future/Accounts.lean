import Waypoint.Proofs.Future.Books
import Waypoint.Proofs.Future.Nesting
import Waypoint.Proofs.Future.Turns

/-!
# Runs keep books

A run of a traversal does nothing but what its books allow (`Roster.settle_course`), and callbacks
are dropped only in what comes to no value. A callback may start before another one that starts
later in the traversal; where large joins are nested in a child of a join, those after the child
need not wait for it (`Future.Arranged`).
-/

namespace Waypoint

variable {L : Type} {before : L → L → Prop}

/-! ## The order of starts -/

/-- A traversal whose callbacks may start in the order that it gives them, and may start before some
that it gives earlier where these lie in a child in which large joins are nested. -/
inductive Future.Arranged (before : L → L → Prop) : Future L → Prop
  | atOnce (result : Except PathError Doc) : Arranged before (.ofResult result)
  | call (label : L) (notices : List Notice) (result : Except PathError Doc) :
      Arranged before (.call label notices (.ofResult result))
  | join {children : List (Future L)} (rebuild : List Doc → Doc)
      (each : ∀ child ∈ children, Arranged before child)
      (apart : children.Pairwise fun one other => ∀ label ∈ one.labels, ∀ later ∈ other.labels,
        before label later ∧ (2 ≤ one.nesting → before later label)) :
      Arranged before (.join children fun values => .done (rebuild values))

theorem Future.Arranged.traversal {future : Future L} (arranged : future.Arranged before) :
    future.Traversal := by
  induction arranged with
  | atOnce result => exact .atOnce result
  | call label notices result => exact .call label notices result
  | join rebuild _ _ ih => exact .join rebuild ih

namespace Running

/-- Whether those that come after it may have callbacks started when it has some left. -/
def MayLag : Running L → Prop
  | fresh future => 2 ≤ future.nesting
  | _ => True

theorem mayLag_of_begun {running : Running L} (begun : running.isFresh = false) :
    running.MayLag := by
  cases running with
  | fresh future => cases begun
  | waiting _ _ | joining _ _ _ | finished _ => trivial

/-- Two children of a join, in this order. -/
def Apart (before : L → L → Prop) (one other : Running L) : Prop :=
  ∀ label ∈ one.labels, ∀ later ∈ other.labels,
    before label later ∧ (one.MayLag → before later label)

/-- The same while a traversal is under way; the queues are in order. -/
inductive Arranged (before : L → L → Prop) : Running L → Prop
  | fresh {future : Future L} (arranged : future.Arranged before) : Arranged before (.fresh future)
  | waiting (call : PendingCall L) (result : Except PathError Doc) :
      Arranged before (.waiting call (.ofResult result))
  | joining {children : List (Running L)} {agenda : Agenda} (rebuild : List Doc → Doc)
      (each : ∀ child ∈ children, Arranged before child)
      (apart : children.Pairwise (Apart before)) (ordered : agenda.InOrder children) :
      Arranged before (.joining children agenda fun values => .done (rebuild values))
  | finished (result : Except PathError Doc) : Arranged before (.finished result)

section Apart

variable {one other one' other' : Running L} {children : List (Running L)} {index : Nat}
  {child child' : Running L}

theorem Apart.left (apart : Apart before one other) (fewer : one'.labels ⊆ one.labels)
    (lag : one'.MayLag → one.MayLag ∨ one'.labels = []) : Apart before one' other := by
  intro label member later member'
  obtain ⟨first, second⟩ := apart label (fewer member) later member'
  refine ⟨first, fun lags => ?_⟩
  rcases lag lags with lagged | none
  · exact second lagged
  · rw [none] at member
    cases member

theorem Apart.right (apart : Apart before one other) (fewer : other'.labels ⊆ other.labels) :
    Apart before one other' :=
  fun label member later member' => apart label member later (fewer member')

/-- Of a list of which one member is replaced two members are related as before. -/
theorem pairwise_set {R : Running L → Running L → Prop} (apart : children.Pairwise R)
    (at_index : children[index]? = some child) (left : ∀ other, R other child → R other child')
    (right : ∀ other, R child other → R child' other) :
    (children.set index child').Pairwise R := by
  induction children generalizing index with
  | nil => cases at_index
  | cons first rest ih =>
      obtain ⟨ahead, apart⟩ := List.pairwise_cons.mp apart
      cases index with
      | zero =>
          obtain rfl : first = child := Option.some.inj at_index
          exact List.pairwise_cons.mpr ⟨fun other member => right other (ahead other member), apart⟩
      | succ index =>
          refine List.pairwise_cons.mpr ⟨fun other member => ?_, ih apart at_index⟩
          rcases List.mem_or_eq_of_mem_set member with old | rfl
          · exact ahead other old
          · exact left first (ahead child (List.mem_of_getElem? at_index))

theorem mem_allLabels {label : L} {children : List (Running L)} :
    label ∈ allLabels children ↔ ∃ child ∈ children, label ∈ child.labels := by
  induction children with
  | nil => simp [allLabels]
  | cons child rest ih => simp [allLabels, ih]

/-- What a child starts may start before all that its siblings have left, if none before it is
fresh. -/
theorem before_others (apart : children.Pairwise (Apart before))
    (at_index : children[index]? = some child)
    (begun : ∀ other sibling, other < index → children[other]? = some sibling →
      sibling.isFresh = false) :
    ∀ label ∈ child.labels, ∀ later ∈ allLabels (children.eraseIdx index), before label later := by
  intro label own later others
  obtain ⟨sibling, member, theirs⟩ := mem_allLabels.mp others
  obtain ⟨other, differs, at_other⟩ := List.mem_eraseIdx_iff_getElem?.mp member
  obtain ⟨inside, rfl⟩ := List.getElem?_eq_some_iff.mp at_index
  obtain ⟨inside', rfl⟩ := List.getElem?_eq_some_iff.mp at_other
  rw [List.pairwise_iff_getElem] at apart
  rcases Nat.lt_or_gt_of_ne differs with less | more
  · have lags := mayLag_of_begun (begun other _ less at_other)
    exact (apart other index inside' inside less later theirs label own).2 lags
  · exact (apart index other inside inside' more label own later theirs).1

end Apart

end Running

/-! ## Books -/

/-- How a callback that waits stands in the books. -/
def PendingCall.due (call : PendingCall L) : L × Nat :=
  (call.label, call.deadline)

namespace Running

/-- The books of a running future. -/
def books (running : Running L) (world : World L) : Books L :=
  ⟨world.now, world.started, ↑running.labels, ↑(running.calls.map PendingCall.due), world.log⟩

/-- The books of running futures together. -/
def booksAll (children : List (Running L)) (world : World L) : Books L :=
  ⟨world.now, world.started, ↑(allLabels children), ↑((allCalls children).map PendingCall.due),
    world.log⟩

section Children

variable {children : List (Running L)} {index : Nat} {child : Running L}

theorem allLabels_eq_flatMap (children : List (Running L)) :
    allLabels children = children.flatMap labels := by
  induction children with
  | nil => rfl
  | cons child rest ih => rw [allLabels, List.flatMap_cons, ih]

theorem allCalls_eq_flatMap (children : List (Running L)) :
    allCalls children = children.flatMap calls := by
  induction children with
  | nil => rfl
  | cons child rest ih => rw [allCalls, List.flatMap_cons, ih]

/-- The books of the children of a join are those of one of them beside those of the others. -/
theorem booksAll_eq (at_index : children[index]? = some child) (world : World L) :
    booksAll children world =
      (child.books world).beside ↑(allLabels (children.eraseIdx index))
        ↑((allCalls (children.eraseIdx index)).map PendingCall.due) := by
  obtain ⟨inside, rfl⟩ := List.getElem?_eq_some_iff.mp at_index
  have perm := List.getElem_cons_eraseIdx_perm inside
  have labels : (allLabels children).Perm
      (children[index].labels ++ allLabels (children.eraseIdx index)) := by
    rw [allLabels_eq_flatMap, allLabels_eq_flatMap]
    exact (perm.flatMap_right Running.labels).symm
  have calls : (allCalls children).Perm
      (children[index].calls ++ allCalls (children.eraseIdx index)) := by
    rw [allCalls_eq_flatMap, allCalls_eq_flatMap]
    exact (perm.flatMap_right Running.calls).symm
  simp only [booksAll, books, Books.beside, Multiset.coe_add, Books.mk.injEq, true_and, and_true]
  refine ⟨Multiset.coe_eq_coe.mpr labels, Multiset.coe_eq_coe.mpr ?_⟩
  rw [← List.map_append]
  exact calls.map PendingCall.due

theorem booksAll_set (at_index : children[index]? = some child) (child' : Running L)
    (world : World L) :
    booksAll (children.set index child') world =
      (child'.books world).beside ↑(allLabels (children.eraseIdx index))
        ↑((allCalls (children.eraseIdx index)).map PendingCall.due) := by
  have at_index' : (children.set index child')[index]? = some child' := by
    rw [getElem?_set_of_at at_index, if_pos rfl]
  rw [booksAll_eq at_index', List.eraseIdx_set_eq]

/-- Nothing is left in the books of what has finished. -/
theorem booksAll_of_finished (finished : ∀ child ∈ children, child.isFinished = true)
    (world : World L) : booksAll children world = ⟨world.now, world.started, 0, 0, world.log⟩ := by
  have none : allLabels children = [] ∧ allCalls children = [] := by
    induction children with
    | nil => exact ⟨rfl, rfl⟩
    | cons child rest ih =>
        rw [List.forall_mem_cons] at finished
        obtain ⟨result, rfl⟩ := eq_finished finished.1
        exact ih finished.2
  rw [booksAll, none.1, none.2]
  rfl

theorem books_join (children : List (Future L)) (next : List Doc → Future L) (agenda : Agenda)
    (world : World L) :
    (fresh (.join children next)).books world =
      (joining (children.map fresh) agenda next).books world := by
  have none : allCalls (children.map fresh) = [] := by
    induction children with
    | nil => rfl
    | cons child rest ih => exact ih
  rw [books, books, labels, labels, calls, calls, none, allLabels_map_fresh, Future.labels]

end Children

/-! ## Visits -/

/-- A visit of a traversal does what the books allow. Callbacks are dropped only where it comes to
no value. -/
structure Recounted (before : L → L → Prop) (running : Running L) (world : World L)
    (visit : Visit L) : Prop where
  arranged : visit.running.Arranged before
  steps : Books.Steps (running.expected = none) before world.delays (running.books world)
    (visit.running.books visit.world)

/-- So do visits of the children of a join. -/
structure RecountedAll (before : L → L → Prop) (children : List (Running L)) (world : World L)
    (children' : List (Running L)) (world' : World L) : Prop where
  arranged : ∀ child ∈ children', child.Arranged before
  apart : children'.Pairwise (Apart before)
  steps : Books.Steps (expectedAll children = none) before world.delays (booksAll children world)
    (booksAll children' world')

/-- All visits down to some depth do. -/
def Recounts (before : L → L → Prop) (depth : Nat) : Prop :=
  ∀ running world, Ready world running → running.size world.now ≤ depth →
    running.Arranged before → Recounted before running world (poll depth running world)

variable {depth : Nat} {world world' : World L} {agenda : Agenda}
  {children children' : List (Running L)}

theorem Recounted.labels_subset {running : Running L} {visit : Visit L}
    (recounted : Recounted before running world visit) :
    visit.running.labels ⊆ running.labels :=
  Multiset.subset_of_le (Books.Steps.unstarted_le recounted.steps)

/-- A child is replaced by what a visit leaves of it. -/
theorem Recounted.apart {index : Nat} {child : Running L}
    (recounted : Recounted before child world (poll depth child world))
    (arranged : child.Arranged before) (bound : child.size world.now ≤ depth)
    (apart : children.Pairwise (Apart before)) (at_index : children[index]? = some child) :
    (children.set index (poll depth child world).running).Pairwise (Apart before) := by
  refine pairwise_set apart at_index (fun other before => before.right recounted.labels_subset)
    fun other before => before.left recounted.labels_subset fun _ => ?_
  cases arranged with
  | @fresh future arranged =>
      by_cases deep : 2 ≤ future.nesting
      · exact .inl deep
      · exact .inr (poll_firm depth arranged.traversal bound (by omega) world)
  | waiting _ _ | joining _ _ _ _ | finished _ => exact .inl trivial

theorem Turns.recounted (recounts : Recounts before depth)
    (turns : Turns (poll depth) depth children world children' world')
    (arranged : ∀ child ∈ children, child.Arranged before)
    (apart : children.Pairwise (Apart before)) :
    RecountedAll before children world children' world' := by
  induction turns with
  | none children world => exact ⟨arranged, apart, .refl⟩
  | @next children children' world world' index child at_index ready bound begun rest ih =>
      have present := List.mem_of_getElem? at_index
      have own := arranged child present
      have recounted := recounts child world ready bound own
      have visited := poll_sound depth child world ready bound
      have refines : RefinesAll children (children.set index (poll depth child world).running) :=
        .set at_index visited.refines
      obtain ⟨arranged', apart', steps⟩ := ih
        (fun other member => by
          rcases List.mem_or_eq_of_mem_set member with old | rfl
          · exact arranged other old
          · exact recounted.arranged)
        (recounted.apart own bound apart at_index)
      refine ⟨arranged', apart', ?_⟩
      rw [refines.expectedAll_eq, (poll_precedes depth child world).delays,
        booksAll_set at_index] at steps
      rw [booksAll_eq at_index]
      have ahead : ∀ label ∈ (child.books world).unstarted,
          ∀ later ∈ (allLabels (children.eraseIdx index) : Multiset L), before label later :=
        before_others apart at_index begun
      have first := Books.Steps.mono recounted.steps (expectedAll_eq_none present)
      exact (first.beside ahead _).trans steps

/-! ## Callbacks and joins -/

theorem pollCall_recounted (some : 0 < depth) (call : PendingCall L)
    (result : Except PathError Doc) (world : World L) :
    Recounted before (waiting call (.ofResult result)) world
      (pollCall (poll depth (fresh (.ofResult result))) call (.ofResult result) world) := by
  unfold pollCall
  split
  · exact ⟨.waiting call result, .refl⟩
  · split
    · exact ⟨.waiting _ result, .refl⟩
    · split
      · rename_i due
        rw [poll_ofResult depth some]
        have ends : Books.Step ((waiting call (.ofResult result)).expected = none) before
            world.delays
            ⟨world.now, world.started, 0, {(call.label, call.deadline)}, world.log⟩
            ((finished result).books (world.spend.recordEnd call.label call.notices)) :=
          .finish call.notices due
        exact ⟨.finished result, .single ends⟩
      · exact ⟨.waiting call result, .refl⟩

/-- A callback starts, and ends at the same visit if it does not wait. -/
theorem poll_call_recounted (some : 0 < depth) (label : L) (notices : List Notice)
    (result : Except PathError Doc) (world : World L) :
    Recounted before (fresh (.call label notices (.ofResult result))) world
      (poll (depth + 1) (fresh (.call label notices (.ofResult result))) world) := by
  -- the callback is the only one in the books, so it comes before all that are left
  have begun : Books.Step ((fresh (.call label notices (.ofResult result))).expected = none)
      before world.delays ((fresh (.call label notices (.ofResult result))).books world)
      ⟨world.now, world.started + 1, 0, {(label, world.now + world.nextWait)},
        (world.recordStart label).log⟩ :=
    .start fun other member => absurd member (Multiset.notMem_zero other)
  rw [poll]
  split
  · rename_i immediate
    rw [poll_ofResult depth some]
    refine ⟨.finished result, .head begun (.single (.finish notices ?_))⟩
    rw [immediate]
    exact Nat.le_refl _
  · obtain ⟨arranged, steps⟩ : Recounted before _ _ _ := pollCall_recounted some
      ⟨world.started, none, world.now + world.nextWait, label, notices⟩ result
      (world.recordStart label)
    exact ⟨arranged, .head begun (steps.mono fun none => none)⟩

theorem pollJoin_recounted (recounts : Recounts before depth)
    (standing : Standing true world agenda children) (rebuild : List Doc → Doc)
    (bound : (joining children agenda fun values => .done (rebuild values)).size world.now ≤
      depth + 1)
    (arranged : ∀ child ∈ children, child.Arranged before)
    (apart : children.Pairwise (Apart before)) (ordered : agenda.InOrder children) :
    Recounted before (joining children agenda fun values => .done (rebuild values)) world
      (pollJoin (poll depth) children agenda (fun values => .done (rebuild values)) world) := by
  have children_bound : sizes world.now children ≤ depth := by
    rw [size] at bound
    omega
  have inquired := inquire_inquired (poll_sound depth) standing children_bound
  obtain ⟨⟨children', turns, same⟩, ordered'⟩ :=
    inquire_asked (poll_sound depth) (poll_begins depth) standing children_bound ordered
  obtain ⟨arranged', apart', steps⟩ := turns.recounted recounts arranged apart
  have lossy (none : expectedAll children = .none) :
      (joining children agenda fun values => (.done (rebuild values) : Future L)).expected =
        .none := by
    rw [expected, none]
    rfl
  have steps := Books.Steps.mono steps lossy
  unfold pollJoin
  generalize inquire (poll depth) true children agenda world = inquiry at *
  cases failure : inquiry.failure with
  | some error =>
      -- what the children have left is dropped
      simp only [failure]
      refine ⟨.finished _, steps.tail (.drop ?_ (Multiset.zero_le _) (Multiset.zero_le _))⟩
      exact lossy (inquired.failed error failure).2.expected
  | none =>
      obtain rfl := same failure
      simp only [failure]
      cases all : values? inquiry.children with
      | none => exact ⟨.joining rebuild arranged' apart' (ordered' failure), steps⟩
      | some values =>
          have some : 0 < depth := by
            have expected : expectedAll children = some values :=
              (inquired.kept failure).refines.expectedAll_eq.symm.trans (expectedAll_of_values all)
            rw [size, expected, Future.sizeAfter, Future.size] at bound
            omega
          rw [booksAll_of_finished (isFinished_of_values all)] at steps
          show Recounted before _ world ⟨(poll depth (fresh (.ofResult (.ok (rebuild values))))
            inquiry.world).running, (poll depth (fresh (.ofResult (.ok (rebuild values))))
              inquiry.world).world, _⟩
          rw [poll_ofResult depth some]
          exact ⟨.finished _, steps⟩

/-- Whatever part of a traversal is asked, it does what its books allow. -/
theorem poll_recounts (before : L → L → Prop) (depth : Nat) : Recounts before depth := by
  induction depth with
  | zero => exact fun running world _ _ arranged => ⟨arranged, .refl⟩
  | succ depth ih =>
      intro running world ready bound arranged
      cases arranged with
      | finished result => exact ⟨.finished result, .refl⟩
      | waiting call result =>
          have positive := (Future.ofResult result : Future L).size_pos
          have left := call.size_pos world.now
          rw [size] at bound
          exact pollCall_recounted (by omega) call result world
      | joining rebuild each apart ordered =>
          cases ready with
          | joining ready attended clear missing =>
              exact pollJoin_recounted ih ⟨ready, attended, fun _ => clear⟩ rebuild bound each
                apart ordered
      | fresh arranged =>
          cases arranged with
          | atOnce result =>
              rw [poll_ofResult (depth + 1) (Nat.succ_pos depth)]
              refine ⟨.finished result, ?_⟩
              rw [books, labels, Future.labels_ofResult]
              exact .refl
          | call label notices result =>
              rw [size, Future.size] at bound
              exact poll_call_recounted (by omega) label notices result world
          | @join children rebuild each apart =>
              have less : (joining (children.map fresh) (.ofCount children.length)
                  fun values => (.done (rebuild values) : Future L)).size world.now ≤
                    depth + 1 := by
                rw [size, Future.size_join] at bound
                rw [size, sizes_map_fresh, expectedAll_map_fresh]
                omega
              obtain ⟨arranged, steps⟩ := pollJoin_recounted ih (.of_fresh true world children)
                rebuild less (fun child member => by
                  obtain ⟨future, present, rfl⟩ := List.mem_map.mp member
                  exact .fresh (each future present))
                (List.pairwise_map.mpr apart) (Agenda.inOrder_ofCount _ _)
              rw [(Refines.of_join children _ _).expected] at steps
              refine ⟨arranged, ?_⟩
              rw [books_join]
              exact steps

/-! ## Whole runs -/

section Arouse

variable (rank : PendingCall L → Option Nat)

theorem isFresh_arouse (running : Running L) :
    (running.arouse rank).isFresh = running.isFresh := by
  cases running <;> rfl

theorem Apart.arouse {one other : Running L} (apart : Apart before one other) :
    Apart before (one.arouse rank) (other.arouse rank) := by
  have lag : (one.arouse rank).MayLag → one.MayLag := by
    cases one <;> exact id
  intro label member later member'
  rw [labels_arouse] at member member'
  obtain ⟨first, second⟩ := apart label member later member'
  exact ⟨first, fun lags => second (lag lags)⟩

/-- Those that are called for have been asked before, so they may stand at the end of the queue. -/
theorem inOrder_summon (ordered : agenda.InOrder children) :
    (agenda.summon (calling rank children)).InOrder (arouseAll rank children) := by
  cases agenda with
  | all => trivial
  | queued queue =>
      rw [arouseAll_eq_map]
      refine inOrder_append (List.Pairwise.imp ?_ ordered) _ fun index member child at_index => ?_
      · intro first later less child at_later fresh
        rw [List.getElem?_map] at at_later
        obtain ⟨child, before, rfl⟩ := Option.map_eq_some_iff.mp at_later
        exact less child before (isFresh_arouse rank child ▸ fresh)
      · obtain ⟨called, before, ranked⟩ := mem_calling.mp (List.mem_filter.mp member).1
        rw [List.getElem?_map, before] at at_index
        obtain rfl := Option.some.inj at_index
        rw [isFresh_arouse]
        cases called with
        | fresh future => cases ranked
        | waiting _ _ | joining _ _ _ | finished _ => rfl

theorem Arranged.arouse {running : Running L} (arranged : running.Arranged before) :
    (running.arouse rank).Arranged before := by
  induction arranged with
  | fresh arranged => exact .fresh arranged
  | waiting call result => exact .waiting call result
  | finished result => exact .finished result
  | joining rebuild each apart ordered ih =>
      refine .joining rebuild (fun child member => ?_) ?_ (inOrder_summon rank ordered)
      · rw [arouseAll_eq_map] at member
        obtain ⟨child, present, rfl⟩ := List.mem_map.mp member
        exact ih child present
      · rw [arouseAll_eq_map]
        exact List.pairwise_map.mpr (apart.imp fun apart => apart.arouse rank)

theorem booksAll_arouse (children : List (Running L)) (world : World L) :
    booksAll (arouseAll rank children) world = booksAll children world := by
  rw [booksAll, allLabels_arouse, allCalls_arouse]
  rfl

end Arouse

/-- What is quiet has nothing left to start. -/
theorem Quiet.labels {running : Running L} (quiet : Quiet world running) : running.labels = [] := by
  induction quiet with
  | finished _ => rfl
  | waiting _ => rfl
  | joining _ ih => exact allLabels_eq_nil.mpr ih

end Running

namespace Roster

open Running

/-- The futures of a run are arranged as the children of a join are. -/
structure Arranged (before : L → L → Prop) (roster : Roster L) : Prop where
  each : ∀ child ∈ roster.running, child.Arranged before
  apart : roster.running.Pairwise (Apart before)
  ordered : roster.agenda.InOrder roster.running

variable {depth : Nat} {roster roster' : Roster L} {world world' : World L} {restless : Bool}

theorem Arranged.arouse (arranged : roster.Arranged before) (rank : PendingCall L → Option Nat) :
    (roster.arouse rank).Arranged before where
  each := by
    intro child member
    rw [Roster.arouse, arouseAll_eq_map] at member
    obtain ⟨child, present, rfl⟩ := List.mem_map.mp member
    exact (arranged.each child present).arouse rank
  apart := by
    rw [Roster.arouse, arouseAll_eq_map]
    exact List.pairwise_map.mpr (arranged.apart.imp fun apart => apart.arouse rank)
  ordered := inOrder_summon rank arranged.ordered

/-- Between two rounds nothing happens in the books but that the clock moves on, and then nothing is
left to start. -/
theorem next?_course (next : roster.next? restless world = some (roster', world'))
    (arranged : roster.Arranged before)
    (quiet : restless = false → ∀ child ∈ roster.running, Quiet world child) (lossy : Prop) :
    roster'.Arranged before ∧ Books.Course lossy before world.delays
      (booksAll roster.running world) (booksAll roster'.running world') := by
  rcases next?_eq_some next with ⟨rfl, rfl⟩ | ⟨rfl, rfl⟩ | ⟨-, calm, time, deadline, rfl, rfl⟩
  · refine ⟨arranged.arouse _, ?_⟩
    show Books.Course lossy before world.delays _ (booksAll (arouseAll _ roster.running) _)
    rw [booksAll_arouse]
    exact .refl
  · exact ⟨arranged, .refl⟩
  · refine ⟨arranged.arouse _, ?_⟩
    obtain ⟨⟨call, member, due⟩, least⟩ := deadlines?_eq_some deadline
    have none : allLabels roster.running = [] :=
      allLabels_eq_nil.mpr fun child present => (quiet calm child present).labels
    show Books.Course lossy before world.delays _ (booksAll (arouseAll _ roster.running) _)
    rw [booksAll_arouse, booksAll, booksAll, none]
    have first : (call.label, time) ∈ (allCalls roster.running).map PendingCall.due :=
      List.mem_map.mpr ⟨call, member, congrArg (call.label, ·) due⟩
    refine .single (.advance (Multiset.mem_coe.mpr first) fun label later waits => ?_)
    obtain ⟨other, present, same⟩ := List.mem_map.mp (Multiset.mem_coe.mp waits)
    obtain ⟨-, rfl⟩ := Prod.mk.inj same
    exact least other present

/-- A run does what its books allow. -/
theorem settle_course (rounds : Nat) (opened : Open depth roster world)
    (arranged : roster.Arranged before) :
    Books.Course (expectedAll roster.running = none) before world.delays
      (booksAll roster.running world)
      (booksAll (settle depth rounds roster world).1.running
        (settle depth rounds roster world).2) := by
  induction rounds generalizing roster world with
  | zero => exact .refl
  | succ rounds ih =>
      obtain ⟨after, kept⟩ := opened.inquired
      obtain ⟨⟨children', turns, same⟩, ordered⟩ := inquire_asked (poll_sound depth)
        (poll_begins depth) opened.standing opened.bound arranged.ordered
      obtain ⟨each, apart, steps⟩ :=
        turns.recounted (poll_recounts before depth) arranged.each arranged.apart
      have delays := (inquire_world World.Precedes.refl World.Precedes.trans (poll_precedes depth)
        false roster.running roster.agenda world).delays
      obtain rfl := same opened.passes
      have spec := next?_spec opened after kept
      unfold ofInquiry at spec
      simp only [settle]
      split
      · exact Books.Steps.course steps
      · rename_i next world' goes_on
        rw [goes_on] at spec
        obtain ⟨arranged', between⟩ := next?_course goes_on ⟨each, apart, ordered opened.passes⟩
          kept.quiet (expectedAll roster.running = none)
        have later := ih spec.opened arranged'
        rw [spec.refines.expectedAll_eq, (next?_starts goes_on).1.delays, delays] at later
        rw [delays] at between
        exact (Books.Steps.course steps).trans (between.trans later)

end Roster

namespace Future

/-- The books of a whole run: at its end nothing is left in them. -/
theorem run_balanced {future : Future L} (arranged : future.Arranged before) {world : World L}
    (none : world.putOff = []) (empty : world.log = []) :
    Books.Balanced (future.outcome.toOption = .none) before world.delays world.now world.started
      ↑future.labels
      ⟨(future.run world).2.now, (future.run world).2.started, 0, 0,
        (future.run world).2.log⟩ := by
  have opened := Roster.open_ofFutures [future] none
  have enough : (Roster.ofFutures [future]).budget (sizes [future]) world <
      enoughRounds (sizes [future]) := Nat.lt_succ_of_le opened.budget_le
  obtain ⟨refines, finished⟩ := Roster.settle_finishes _ opened enough
  have arranged' : (Roster.ofFutures [future]).Arranged before :=
    ⟨fun child member => List.mem_singleton.mp member ▸ .fresh arranged,
      List.pairwise_singleton _ _, Agenda.inOrder_ofCount 1 _⟩
  have course := Roster.settle_course (enoughRounds (sizes [future])) opened arranged'
  rw [Running.booksAll_of_finished finished] at course
  have begins : Running.booksAll (Roster.ofFutures [future]).running world =
      ⟨world.now, world.started, ↑future.labels, 0, []⟩ := by
    rw [← empty]
    show Running.booksAll [.fresh future] world = _
    rw [Running.booksAll, Running.allLabels, Running.allLabels, List.append_nil]
    rfl
  rw [begins] at course
  refine .course (course.mono fun missing => ?_)
  cases value : future.outcome.toOption with
  | none => rfl
  | some doc =>
      have expected : Running.expectedAll [.fresh future] = some [doc] := by
        rw [Running.expectedAll, Running.expected, value]
        rfl
      cases missing.symm.trans expected

end Future

end Waypoint
