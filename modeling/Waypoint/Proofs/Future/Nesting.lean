import Waypoint.Proofs.Future.Order

/-!
# Nested large joins

How much of a future is asked for at once depends on how deep large joins lie within each other
(`Future.nesting`). Where there is none, nothing is left restless (`Running.poll_calm`). Where none
lies within another one, all callbacks have started after the first visit (`Running.poll_firm`): a
large join goes through its whole queue unless two of its children are restless.
-/

namespace Waypoint

variable {L : Type}

namespace Future

mutual

/-- How deep joins that are too large to ask all their children every time lie within each other. -/
def nesting : Future L → Nat
  | done _ => 0
  | fail _ => 0
  | call _ _ _ => 0
  | join children _ => deepest children + if children.length ≤ Agenda.threshold then 0 else 1

def deepest : List (Future L) → Nat
  | [] => 0
  | child :: rest => max child.nesting (deepest rest)

end

theorem nesting_le_deepest {children : List (Future L)} {child : Future L}
    (member : child ∈ children) : child.nesting ≤ deepest children := by
  induction children with
  | nil => cases member
  | cons first rest ih =>
      rw [deepest]
      rcases List.mem_cons.mp member with rfl | later
      · exact Nat.le_max_left _ _
      · exact (ih later).trans (Nat.le_max_right _ _)

theorem nesting_ofResult (result : Except PathError Doc) :
    (ofResult result : Future L).nesting = 0 := by
  cases result <;> rfl

theorem size_le_sizes {children : List (Future L)} {child : Future L}
    (member : child ∈ children) : child.size ≤ sizes children := by
  induction children with
  | nil => cases member
  | cons first rest ih =>
      rw [sizes]
      rcases List.mem_cons.mp member with rfl | later
      · omega
      · have := ih later
        omega

end Future

namespace Running

variable {ask : Running L → World L → Visit L} {strict : Bool}

/-! ## Nothing restless -/

theorem askAll_calm {children : List (Running L)} (world : World L)
    (each : ∀ child ∈ children, ∀ world, (ask child world).restless = false) :
    (askAll ask strict children world).restless = false := by
  fun_induction askAll ask strict children world with
  | case1 world => rfl
  | case2 result rest world ih => exact ih (List.forall_mem_cons.mp each).2
  | case3 child rest world unfinished visit error ends is_strict =>
      exact each child List.mem_cons_self world
  | case4 child rest world unfinished visit passes ih =>
      obtain ⟨own, others⟩ := List.forall_mem_cons.mp each
      exact Bool.or_eq_false_iff.mpr ⟨own world, ih others⟩

theorem pollCall_calm {proceed : World L → Visit L}
    (goesOn : ∀ world, (proceed world).restless = false) (call : PendingCall L)
    (next : Future L) (world : World L) : (pollCall proceed call next world).restless = false := by
  unfold pollCall
  split
  · rfl
  · split
    · rfl
    · split
      · exact goesOn _
      · rfl

/-- Only large joins are restless. -/
theorem poll_calm (depth : Nat) {future : Future L} (traversal : future.Traversal)
    (shallow : future.nesting = 0) (world : World L) :
    (poll depth (fresh future) world).restless = false := by
  induction depth generalizing future world with
  | zero => rfl
  | succ depth ih =>
      have ends (result : Except PathError Doc) (world : World L) :
          (poll depth (fresh (.ofResult result)) world).restless = false :=
        ih (.atOnce result) (Future.nesting_ofResult result) world
      cases traversal with
      | atOnce result => cases result <;> rfl
      | call label notices result =>
          rw [poll]
          split
          · exact ends result _
          · exact pollCall_calm (ends result) _ _ _
      | @join children rebuild each =>
          obtain ⟨none, none'⟩ := Nat.add_eq_zero_iff.mp shallow
          have small : children.length ≤ Agenda.threshold := by
            by_contra large
            rw [if_neg large] at none'
            cases none'
          have calm : (askAll (poll depth) true (children.map fresh) world).restless = false := by
            refine askAll_calm world fun child member world => ?_
            obtain ⟨future, present, rfl⟩ := List.mem_map.mp member
            exact ih (each future present)
              (Nat.le_zero.mp (none ▸ Future.nesting_le_deepest present)) world
          rw [poll, Agenda.ofCount, if_pos small, pollJoin, inquire]
          generalize askAll (poll depth) true (children.map fresh) world = inquiry at calm
          cases failure : inquiry.failure with
          | some error => exact calm
          | none =>
              cases values? inquiry.children with
              | none => exact calm
              | some values =>
                  exact Bool.or_eq_false_iff.mpr ⟨calm, ends (.ok (rebuild values)) _⟩

/-! ## Nothing left to start -/

theorem allLabels_eq_nil {children : List (Running L)} :
    allLabels children = [] ↔ ∀ child ∈ children, child.labels = [] := by
  induction children with
  | nil => simp [allLabels]
  | cons child rest ih => simp [allLabels, ih]

/-- Asking starts all callbacks of each child that has any left. -/
theorem askAll_firm {children : List (Running L)} (world : World L)
    (each : ∀ child ∈ children, ∀ world, (ask child world).running.labels = [])
    (passes : (askAll ask strict children world).failure = none) :
    allLabels (askAll ask strict children world).children = [] := by
  fun_induction askAll ask strict children world with
  | case1 world => rfl
  | case2 result rest world ih => exact ih (List.forall_mem_cons.mp each).2 passes
  | case3 child rest world unfinished visit error ends is_strict => cases passes
  | case4 child rest world unfinished visit continues ih =>
      obtain ⟨own, others⟩ := List.forall_mem_cons.mp each
      show visit.running.labels ++ _ = []
      rw [own world, List.nil_append]
      exact ih others passes

/-- The children in a queue start all their callbacks when they are asked, and are not restless
then; the others have started all of theirs. -/
structure Steady (ask : Running L → World L → Visit L) (queue : List Nat)
    (children : List (Running L)) : Prop where
  nodup : queue.Nodup
  started : ∀ index child, children[index]? = some child → index ∈ queue ∨ child.labels = []
  steady : ∀ index ∈ queue, ∀ child, children[index]? = some child → ∀ world,
    (ask child world).restless = false ∧ (ask child world).running.labels = []

namespace Steady

variable {queue : List Nat} {index : Nat} {children : List (Running L)} {child : Running L}

theorem allLabels_eq_nil (steady : Steady ask [] children) : allLabels children = [] := by
  refine Running.allLabels_eq_nil.mpr fun child member => ?_
  obtain ⟨index, at_index⟩ := List.getElem?_of_mem member
  exact (steady.started index child at_index).resolve_left List.not_mem_nil

/-- Where there is no such child the queue may go on. -/
theorem skip (steady : Steady ask (index :: queue) children) (missing : children[index]? = none) :
    Steady ask queue children where
  nodup := (List.nodup_cons.mp steady.nodup).2
  started := by
    intro other child at_other
    refine (steady.started other child at_other).imp_left fun member => ?_
    rcases List.mem_cons.mp member with rfl | later
    · cases missing.symm.trans at_other
    · exact later
  steady := fun other member => steady.steady other (List.mem_cons_of_mem _ member)

/-- The child at the front of the queue is asked and leaves it. -/
theorem pop (steady : Steady ask (index :: queue) children)
    (at_index : children[index]? = some child) (world : World L) :
    Steady ask queue (children.set index (ask child world).running) where
  nodup := (List.nodup_cons.mp steady.nodup).2
  started := by
    intro other sibling at_other
    rw [getElem?_set_of_at at_index] at at_other
    by_cases same : other = index
    · rw [if_pos same] at at_other
      obtain rfl := Option.some.inj at_other
      exact .inr (steady.steady index List.mem_cons_self child at_index world).2
    · rw [if_neg same] at at_other
      refine (steady.started other sibling at_other).imp_left fun member => ?_
      exact (List.mem_cons.mp member).resolve_left same
  steady := by
    intro other member sibling at_other
    have differs : other ≠ index := fun same => (List.nodup_cons.mp steady.nodup).1 (same ▸ member)
    rw [getElem?_set_of_at at_index, if_neg differs] at at_other
    exact steady.steady other (List.mem_cons_of_mem _ member) sibling at_other

end Steady

/-- A join may ask as many children in a row as its queue has places. -/
theorem askUntil_firm {onward : List (Running L) → List Nat → World L → Inquiry L}
    {unfinished : Nat}
    (goesOn : ∀ children queue world, Steady ask queue children → queue.length ≤ unfinished →
      (onward children queue world).failure = none →
      allLabels (onward children queue world).children = [])
    (asks : Nat) (warned : Bool) (children : List (Running L)) (queue : List Nat) (world : World L)
    (steady : Steady ask queue children) (short : queue.length ≤ asks)
    (few : queue.length ≤ unfinished + 1)
    (passes : (askUntil ask strict onward asks warned children queue world).failure = none) :
    allLabels (askUntil ask strict onward asks warned children queue world).children = [] := by
  fun_induction askUntil ask strict onward asks warned children queue world with
  | case1 warned children queue world =>
      obtain rfl := List.length_eq_zero_iff.mp (Nat.le_zero.mp short)
      exact steady.allLabels_eq_nil
  | case2 asks warned children world => exact steady.allLabels_eq_nil
  | case3 asks warned children index queue world missing ih =>
      rw [List.length_cons] at short few
      exact ih (steady.skip missing) (by omega) (by omega) passes
  | case4 => cases passes
  | case5 asks warned children index queue world child at_index visit children' finished
      continues =>
      exact goesOn _ _ _ (steady.pop at_index world) (Nat.le_of_succ_le_succ few) passes
  | case6 asks children index queue world child at_index visit children' unfinished restless =>
      have calm := (steady.steady index List.mem_cons_self child at_index world).1
      cases calm.symm.trans restless
  | case7 asks warned children index queue world child at_index visit children' unfinished restless
      first ih =>
      have calm := (steady.steady index List.mem_cons_self child at_index world).1
      cases calm.symm.trans restless
  | case8 asks warned children index queue world child at_index visit children' unfinished calm
      ih =>
      rw [List.length_cons] at short few
      exact ih (steady.pop at_index world) (by omega) (by omega) passes

theorem askQueued_firm (unfinished : Nat) (children : List (Running L)) (queue : List Nat)
    (world : World L) (steady : Steady ask queue children) (short : queue.length ≤ unfinished)
    (passes : (askQueued ask strict unfinished children queue world).failure = none) :
    allLabels (askQueued ask strict unfinished children queue world).children = [] := by
  induction unfinished generalizing children queue world with
  | zero =>
      obtain rfl := List.length_eq_zero_iff.mp (Nat.le_zero.mp short)
      exact steady.allLabels_eq_nil
  | succ unfinished ih =>
      exact askUntil_firm ih (unfinished + 1) false children queue world steady short short passes

/-- A join whose children start all their callbacks when they are asked starts all its callbacks. A
large one must not have restless children. -/
theorem inquire_firm (futures : List (Future L)) (world : World L)
    (each : ∀ future ∈ futures, ∀ world, (ask (fresh future) world).running.labels = [])
    (calm : Agenda.threshold < futures.length → ∀ future ∈ futures, ∀ world,
      (ask (fresh future) world).restless = false)
    (passes : (inquire ask strict (futures.map fresh) (.ofCount futures.length) world).failure =
      none) :
    allLabels (inquire ask strict (futures.map fresh) (.ofCount futures.length) world).children =
      [] := by
  by_cases small : futures.length ≤ Agenda.threshold
  · rw [Agenda.ofCount, if_pos small] at passes ⊢
    refine askAll_firm world (fun child member => ?_) passes
    obtain ⟨future, present, rfl⟩ := List.mem_map.mp member
    exact each future present
  · rw [Agenda.ofCount, if_neg small] at passes ⊢
    have count : ((futures.map fresh).countP fun child : Running L => !child.isFinished) =
        futures.length := by
      rw [List.countP_map, List.countP_eq_length]
      exact fun _ _ => rfl
    refine askQueued_firm _ _ _ world ⟨List.nodup_range, fun index child at_index => ?_, ?_⟩
      (by rw [count, List.length_range]) passes
    · obtain ⟨inside, -⟩ := List.getElem?_eq_some_iff.mp at_index
      rw [List.length_map] at inside
      exact .inl (List.mem_range.mpr inside)
    · intro index _ child at_index world
      obtain ⟨future, present, rfl⟩ := List.mem_map.mp (List.mem_of_getElem? at_index)
      exact ⟨calm (by omega) future present world, each future present world⟩

theorem pollCall_firm {proceed : World L → Visit L}
    (goesOn : ∀ world, (proceed world).running.labels = []) (call : PendingCall L)
    (next : Future L) (world : World L) :
    (pollCall proceed call next world).running.labels = [] := by
  unfold pollCall
  split
  · rfl
  · split
    · rfl
    · split
      · exact goesOn _
      · rfl

/-- Unless large joins lie within each other all callbacks start at the first visit. -/
theorem poll_firm (depth : Nat) {future : Future L} (traversal : future.Traversal)
    (bound : future.size ≤ depth) (shallow : future.nesting ≤ 1) (world : World L) :
    (poll depth (fresh future) world).running.labels = [] := by
  induction depth generalizing future world with
  | zero =>
      have := future.size_pos
      omega
  | succ depth ih =>
      have ends (some : 0 < depth) (result : Except PathError Doc) (world : World L) :
          (poll depth (fresh (.ofResult result)) world).running.labels = [] := by
        rw [poll_ofResult depth some]
        rfl
      cases traversal with
      | atOnce result => cases result <;> rfl
      | call label notices result =>
          rw [Future.size] at bound
          rw [poll]
          split
          · exact ends (by omega) result _
          · exact pollCall_firm (ends (by omega) result) _ _ _
      | @join children rebuild each =>
          rw [Future.size_join] at bound
          rw [Future.nesting] at shallow
          have small {child : Future L} (present : child ∈ children) : child.size ≤ depth := by
            have := Future.size_le_sizes present
            omega
          have every (child : Future L) (present : child ∈ children) (world : World L) :
              (poll depth (fresh child) world).running.labels = [] := by
            have := Future.nesting_le_deepest present
            exact ih (each child present) (small present) (by omega) world
          have calm (large : Agenda.threshold < children.length) (child : Future L)
              (present : child ∈ children) (world : World L) :
              (poll depth (fresh child) world).restless = false := by
            rw [if_neg (by omega)] at shallow
            have := Future.nesting_le_deepest present
            exact poll_calm depth (each child present) (by omega) world
          have firm : (inquire (poll depth) true _ _ world).failure = none → _ :=
            inquire_firm children world every calm
          rw [poll, pollJoin]
          generalize inquire (poll depth) true (children.map fresh) (.ofCount children.length)
            world = inquiry at firm
          cases failure : inquiry.failure with
          | some error => rfl
          | none =>
              cases values? inquiry.children with
              | none => exact firm failure
              | some values => exact ends (by omega) (.ok (rebuild values)) inquiry.world

end Running

end Waypoint
