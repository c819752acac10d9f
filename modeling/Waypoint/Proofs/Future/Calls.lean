import Waypoint.Proofs.Future.Backlog

/-!
# The callbacks in a running future

`Running.calls` lists the callbacks that wait in a running future. The next deadline and the least
rank are the least ones in this list. Calling for joins changes their queues only: the callbacks,
the steps that are left and what a future comes to all stay.
-/

namespace Waypoint

variable {L : Type}

/-- A wait that is on the clock ends between two times. -/
structure PendingCall.EndsBetween (now later : Nat) (call : PendingCall L) : Prop where
  turn : call.turn ≠ none
  before : now < call.deadline
  after : call.deadline ≤ later

theorem PendingCall.EndsBetween.size_lt {now later : Nat} {call : PendingCall L}
    (ends : call.EndsBetween now later) : call.size later < call.size now := by
  obtain ⟨turn, before, after⟩ := ends
  unfold size
  split
  · contradiction
  · rw [if_pos before, if_neg (by omega)]
    omega

namespace Running

mutual

/-- The callbacks that wait in a running future. -/
def calls : Running L → List (PendingCall L)
  | fresh _ => []
  | waiting call _ => [call]
  | joining children _ _ => allCalls children
  | finished _ => []

def allCalls : List (Running L) → List (PendingCall L)
  | [] => []
  | child :: rest => calls child ++ allCalls rest

end

theorem mem_allCalls {call : PendingCall L} {children : List (Running L)} :
    call ∈ allCalls children ↔ ∃ child ∈ children, call ∈ child.calls := by
  induction children with
  | nil => simp [allCalls]
  | cons child rest ih => simp [allCalls, ih]

/-! ## Least ranks -/

theorem min?_append (xs ys : List Nat) :
    (xs ++ ys).min? = Option.merge min xs.min? ys.min? := by
  cases xs with
  | nil => simp
  | cons x xs =>
      cases ys with
      | nil => simp
      | cons y ys =>
          rw [List.cons_append, List.min?_cons', List.foldl_append, List.min?_cons',
            List.min?_cons', Option.merge_some_some, List.foldl_cons, List.foldl_assoc]

mutual

/-- The least rank is that of the callbacks that have one. -/
theorem rank?_eq (rank : PendingCall L → Option Nat) : (running : Running L) →
    running.rank? rank = (running.calls.filterMap rank).min?
  | fresh _ => rfl
  | waiting call _ => by
      rw [rank?, calls]
      cases given : rank call with
      | none => simp [given]
      | some n => simp [given]
  | joining children _ _ => leastRank?_eq rank children
  | finished _ => rfl

theorem leastRank?_eq (rank : PendingCall L → Option Nat) : (children : List (Running L)) →
    leastRank? rank children = ((allCalls children).filterMap rank).min?
  | [] => rfl
  | child :: rest => by
      rw [leastRank?, allCalls, List.filterMap_append, min?_append, rank?_eq rank child,
        leastRank?_eq rank rest]

end

mutual

/-- The next deadline is the least rank where every callback has its deadline for a rank. -/
theorem deadline?_eq : (running : Running L) →
    running.deadline? = running.rank? fun call => some call.deadline
  | fresh _ => rfl
  | waiting _ _ => rfl
  | joining children _ _ => deadlines?_eq children
  | finished _ => rfl

theorem deadlines?_eq : (children : List (Running L)) →
    deadlines? children = leastRank? (fun call => some call.deadline) children
  | [] => rfl
  | child :: rest => by rw [deadlines?, leastRank?, deadline?_eq child, deadlines?_eq rest]

end

theorem rank?_eq_none {rank : PendingCall L → Option Nat} {running : Running L}
    (none : running.rank? rank = none) {call : PendingCall L} (member : call ∈ running.calls) :
    rank call = .none := by
  rw [rank?_eq, List.min?_eq_none_iff, List.filterMap_eq_nil_iff] at none
  exact none call member

/-- What has a least rank has not finished. -/
theorem unfinished_of_rank? {rank : PendingCall L → Option Nat} {running : Running L}
    (some : (running.rank? rank).isSome) : running.isFinished = false := by
  cases running with
  | finished result => cases some
  | fresh _ | waiting _ _ | joining _ _ _ => rfl

/-- The next deadline is the deadline of a callback, and none comes before it. -/
theorem deadlines?_eq_some {children : List (Running L)} {time : Nat}
    (next : deadlines? children = some time) :
    (∃ call ∈ allCalls children, call.deadline = time) ∧
      ∀ call ∈ allCalls children, time ≤ call.deadline := by
  rw [deadlines?_eq, leastRank?_eq, List.filterMap_eq_map', List.min?_eq_some_iff] at next
  obtain ⟨member, least⟩ := next
  obtain ⟨call, present, rfl⟩ := List.mem_map.mp member
  exact ⟨⟨call, present, rfl⟩, fun other member =>
    least _ (List.mem_map.mpr ⟨other, member, rfl⟩)⟩

theorem deadlines?_ne_none {children : List (Running L)} {call : PendingCall L}
    (member : call ∈ allCalls children) : deadlines? children ≠ none := by
  rw [deadlines?_eq, leastRank?_eq]
  intro none
  rw [List.min?_eq_none_iff, List.filterMap_eq_nil_iff] at none
  cases none call member

/-! ## The passing of time -/

mutual

/-- No step is added by the passing of time. -/
theorem size_le_of_le {now later : Nat} (le : now ≤ later) : (running : Running L) →
    running.size later ≤ running.size now
  | fresh _ => Nat.le_refl _
  | waiting call next => by
      have := call.size_le_of_le le
      rw [size, size]
      omega
  | joining children _ next => by
      have := sizes_le_of_le le children
      rw [size, size]
      omega
  | finished _ => Nat.le_refl _

theorem sizes_le_of_le {now later : Nat} (le : now ≤ later) : (children : List (Running L)) →
    sizes later children ≤ sizes now children
  | [] => Nat.le_refl _
  | child :: rest => by
      have := size_le_of_le le child
      have := sizes_le_of_le le rest
      rw [sizes, sizes]
      omega

end

mutual

/-- A step is taken by the passing of time where a wait ends. -/
theorem size_lt_of_ends {now later : Nat} {call : PendingCall L}
    (ends : call.EndsBetween now later) : (running : Running L) → call ∈ running.calls →
    running.size later < running.size now
  | waiting call next, member => by
      obtain rfl := List.mem_singleton.mp member
      have := ends.size_lt
      rw [size, size]
      omega
  | joining children _ next, member => by
      have := sizes_lt_of_ends ends children member
      rw [size, size]
      omega

theorem sizes_lt_of_ends {now later : Nat} {call : PendingCall L}
    (ends : call.EndsBetween now later) : (children : List (Running L)) →
    call ∈ allCalls children → sizes later children < sizes now children
  | child :: rest, member => by
      have le : now ≤ later := Nat.le_of_lt (Nat.lt_of_lt_of_le ends.before ends.after)
      have own_le := size_le_of_le le child
      have rest_le := sizes_le_of_le le rest
      rw [sizes, sizes]
      rcases List.mem_append.mp member with own | others
      · have := size_lt_of_ends ends child own
        omega
      · have := sizes_lt_of_ends ends rest others
        omega

end

/-! ## Calling for joins -/

variable (rank : PendingCall L → Option Nat)

theorem arouseAll_eq_map (children : List (Running L)) :
    arouseAll rank children = children.map (arouse rank) := by
  induction children with
  | nil => rfl
  | cons child rest ih => rw [arouseAll, ih, List.map_cons]

mutual

theorem calls_arouse : (running : Running L) → (running.arouse rank).calls = running.calls
  | fresh _ => rfl
  | waiting _ _ => rfl
  | joining children _ _ => allCalls_arouse children
  | finished _ => rfl

theorem allCalls_arouse : (children : List (Running L)) →
    allCalls (arouseAll rank children) = allCalls children
  | [] => rfl
  | child :: rest => by
      rw [arouseAll, allCalls, allCalls, calls_arouse child, allCalls_arouse rest]

end

mutual

theorem arouse_refines : (running : Running L) → Refines running (running.arouse rank)
  | fresh _ => .refl _
  | waiting _ _ => .refl _
  | joining children _ _ => (arouseAll_refines children).joining _ _ _
  | finished _ => .refl _

theorem arouseAll_refines : (children : List (Running L)) →
    RefinesAll children (arouseAll rank children)
  | [] => .nil
  | child :: rest => .cons (arouse_refines child) (arouseAll_refines rest)

end

mutual

theorem size_arouse (now : Nat) : (running : Running L) →
    (running.arouse rank).size now = running.size now
  | fresh _ => rfl
  | waiting _ _ => rfl
  | joining children _ _ => by
      rw [arouse, size, size, sizes_arouse now children,
        (arouseAll_refines rank children).expectedAll_eq]
  | finished _ => rfl

theorem sizes_arouse (now : Nat) : (children : List (Running L)) →
    sizes now (arouseAll rank children) = sizes now children
  | [] => rfl
  | child :: rest => by
      rw [arouseAll, sizes, sizes, size_arouse now child, sizes_arouse now rest]

end

@[simp] theorem isFinished_arouse (running : Running L) :
    (running.arouse rank).isFinished = running.isFinished := by
  cases running <;> rfl

theorem arouse_eq_finished {rank : PendingCall L → Option Nat} {running : Running L}
    {result : Except PathError Doc} (same : running.arouse rank = finished result) :
    running = finished result := by
  cases running with
  | finished other => exact same
  | fresh _ | waiting _ _ | joining _ _ _ => cases same

theorem nextFailure_arouseAll (children : List (Running L)) :
    nextFailure (arouseAll rank children) = nextFailure children := by
  induction children with
  | nil => rfl
  | cons child rest ih =>
      match child with
      | finished (.ok value) => exact ih
      | finished (.error _) | fresh _ | waiting _ _ | joining _ _ _ => rfl

/-! ## Those that call -/

/-- The positions of the running futures in which a callback calls. -/
theorem mem_calling {rank : PendingCall L → Option Nat} {children : List (Running L)}
    {index : Nat} :
    index ∈ calling rank children ↔
      ∃ child, children[index]? = some child ∧ (child.rank? rank).isSome := by
  unfold calling
  simp only [List.mem_map, (sortBy_perm _ _).mem_iff, List.mem_filterMap, Prod.exists,
    Option.map_eq_some_iff, Prod.mk.injEq, List.mem_zipIdx_iff_getElem?, Option.isSome_iff_exists]
  constructor
  · rintro ⟨_, _, ⟨child, _, at_index, least, given, rfl, rfl⟩, rfl⟩
    exact ⟨child, at_index, least, given⟩
  · rintro ⟨child, at_index, least, given⟩
    exact ⟨least, index, ⟨child, index, at_index, least, given, rfl, rfl⟩, rfl⟩

theorem calling_nodup (children : List (Running L)) : (calling rank children).Nodup := by
  unfold calling
  rw [((sortBy_perm Prod.fst _).map Prod.snd).nodup_iff, List.Nodup, List.pairwise_map]
  -- the entries keep the positions of the children, so no two of them share one
  have indices : children.zipIdx.Pairwise fun one two => one.2 ≠ two.2 := by
    rw [← List.pairwise_map, List.zipIdx_map_snd]
    exact List.nodup_range'
  refine indices.filterMap _ fun one two distinct entry given entry' given' => ?_
  obtain ⟨_, _, rfl⟩ := Option.map_eq_some_iff.mp given
  obtain ⟨_, _, rfl⟩ := Option.map_eq_some_iff.mp given'
  exact distinct

end Running

end Waypoint
