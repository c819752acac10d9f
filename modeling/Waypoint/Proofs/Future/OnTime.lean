import Waypoint.Proofs.Future.Finish
import Waypoint.Proofs.Future.Ready

/-!
# Traversals on time

A traversal is a future in which nothing happens after callbacks and joins but that their values are
put together. When and with what it finishes is said by recursion, given the waits of its callbacks
(`Future.Finishes`). `Running.OnTime` is the invariant of its run: what has finished has done so in
time, and nothing is overdue. Where all that is left is quiet no finish is earlier than the next
deadline (`Running.OnTime.le_of_quiet`).
-/

namespace Waypoint

variable {L : Type} {wait : L → Nat}

/-- A traversal finishes in some way if its callbacks wait for some times. -/
inductive Future.Finishes (wait : L → Nat) : Future L → Finish Doc → Prop
  | atOnce (result : Except PathError Doc) : Finishes wait (.ofResult result) (.atOnce result)
  | call (label : L) (notices : List Notice) (result : Except PathError Doc) :
      Finishes wait (.call label notices (.ofResult result)) ⟨wait label, result, [], 0⟩
  | join {children : List (Future L)} {elements : List (Finish Doc)} (rebuild : List Doc → Doc)
      (length : elements.length = children.length)
      (each : ∀ element child, (element, child) ∈ elements.zip children →
        Finishes wait child element) :
      Finishes wait (.join children fun values => .done (rebuild values))
        ((Finish.gather elements).map rebuild)

/-- The kind of agenda that a join of some number of elements has. -/
def Agenda.Suits (agenda : Agenda) (count : Nat) : Prop :=
  match agenda with
  | all => count ≤ threshold
  | queued _ => ¬ count ≤ threshold

namespace Agenda.Suits

theorem ofCount (count : Nat) : (Agenda.ofCount count).Suits count := by
  unfold Agenda.ofCount
  split <;> assumption

theorem summon {agenda : Agenda} {count : Nat} (suits : agenda.Suits count) (called : List Nat) :
    (agenda.summon called).Suits count := by
  cases agenda <;> exact suits

end Agenda.Suits

namespace Running

/-- A running traversal is not behind the way in which it finishes. -/
inductive OnTime (wait : L → Nat) (now : Nat) : Finish Doc → Running L → Prop
  | fresh {future : Future L} {finish : Finish Doc} (finishes : future.Finishes wait finish)
      (start : now = 0) : OnTime wait now finish (.fresh future)
  | waiting {call : PendingCall L} (result : Except PathError Doc)
      (deadline : call.deadline = wait call.label) (positive : 0 < wait call.label)
      (le : now ≤ wait call.label) :
      OnTime wait now ⟨wait call.label, result, [], 0⟩ (.waiting call (.ofResult result))
  | joining {elements : List (Finish Doc)} {children : List (Running L)} {agenda : Agenda}
      (rebuild : List Doc → Doc) (length : elements.length = children.length)
      (each : ∀ element child, (element, child) ∈ elements.zip children →
        OnTime wait now element child)
      (suits : agenda.Suits elements.length) (positive : 0 < (Finish.gather elements).time)
      (le : now ≤ (Finish.gather elements).time) :
      OnTime wait now ((Finish.gather elements).map rebuild)
        (.joining children agenda fun values => .done (rebuild values))
  | finished {finish : Finish Doc} {result : Except PathError Doc} (le : finish.time ≤ now)
      (admits : finish.Admits result) : OnTime wait now finish (.finished result)

variable {now time : Nat} {finish : Finish Doc} {running : Running L}
  {elements : List (Finish Doc)} {children : List (Running L)} {agenda : Agenda}
  {world : World L}

/-- Children of a join on time. -/
def OnTimeAll (wait : L → Nat) (now : Nat) : List (Finish Doc) → List (Running L) → Prop :=
  List.Forall₂ (OnTime wait now)

theorem onTimeAll_iff : OnTimeAll wait now elements children ↔
    elements.length = children.length ∧ ∀ element child, (element, child) ∈ elements.zip children →
      OnTime wait now element child := by
  rw [OnTimeAll, List.forall₂_iff_zip]

theorem OnTime.le (onTime : OnTime wait now finish running)
    (unfinished : running.isFinished = false) : now ≤ finish.time := by
  cases onTime with
  | fresh finishes start => exact start ▸ Nat.zero_le _
  | waiting result deadline positive le => exact le
  | joining rebuild length each suits positive le => exact le
  | finished => cases unfinished

/-! ## Joins -/

/-- A join with a failure does not have all values. -/
theorem values?_of_nextFailure {error : PathError} (next : nextFailure children = some error) :
    values? children = none := by
  induction children with
  | nil => cases next
  | cons child rest ih =>
      match child with
      | .finished (.ok value) => exact Option.map_eq_none_iff.mpr (ih next)
      | .finished (.error _) | .fresh _ | .waiting _ _ | .joining _ _ _ => rfl

/-- The element of a child that has come to a value. -/
theorem OnTime.failing?_of_value {value : Doc}
    (onTime : OnTime wait now finish (.finished (.ok value) : Running L)) :
    finish.failing? = none ∧ finish.time ≤ now ∧ finish.outcome = .ok value := by
  cases onTime with
  | finished le admits => exact ⟨Finish.failing?_eq_none.mpr ⟨value, admits⟩, le, admits⟩

theorem OnTime.failing?_of_error {error : PathError}
    (onTime : OnTime wait now finish (.finished (.error error) : Running L)) :
    ∃ own, finish.failing? = some own ∧ own.time ≤ now ∧ error ∈ own.reports := by
  cases onTime with
  | finished le admits =>
      obtain ⟨own, fails, member⟩ := admits
      exact ⟨own, fails, (Finish.failing?_eq_some.mp fails).2.1 ▸ le, member⟩

namespace OnTimeAll

theorem of_mem_right {child : Running L} (onTime : OnTimeAll wait now elements children)
    (member : child ∈ children) :
    ∃ element, (element, child) ∈ elements.zip children := by
  induction onTime with
  | nil => cases member
  | @cons element first elements rest _ _ ih =>
      rcases List.mem_cons.mp member with rfl | later
      · exact ⟨element, List.mem_cons_self⟩
      · obtain ⟨other, inside⟩ := ih later
        exact ⟨other, List.mem_cons_of_mem _ inside⟩

theorem of_mem_left {element : Finish Doc} (onTime : OnTimeAll wait now elements children)
    (member : element ∈ elements) :
    ∃ child, (element, child) ∈ elements.zip children := by
  induction onTime with
  | nil => cases member
  | @cons first child elements rest _ _ ih =>
      rcases List.mem_cons.mp member with rfl | later
      · exact ⟨child, List.mem_cons_self⟩
      · obtain ⟨other, inside⟩ := ih later
        exact ⟨other, List.mem_cons_of_mem _ inside⟩

/-- The first child without a value comes after elements that have values in time. -/
theorem split (onTime : OnTimeAll wait now elements children) (missing : values? children = none) :
    ∃ before first after child, elements = before ++ first :: after ∧
      (∀ element ∈ before, element.failing? = none ∧ element.time ≤ now) ∧
      (first, child) ∈ elements.zip children ∧
      (nextFailure children = none ∧ child.isFinished = false ∨
        ∃ error, nextFailure children = some error ∧ child = .finished (.error error)) := by
  induction onTime with
  | nil => cases missing
  | @cons element child elements rest here _ ih =>
      match child with
      | .finished (.ok value) =>
        obtain ⟨before, first, after, child, rfl, ok, member, found⟩ :=
          ih (Option.map_eq_none_iff.mp missing)
        obtain ⟨passes, le, -⟩ := here.failing?_of_value
        exact ⟨element :: before, first, after, child, rfl,
          List.forall_mem_cons.mpr ⟨⟨passes, le⟩, ok⟩, List.mem_cons_of_mem _ member, found⟩
      | .finished (.error error) =>
        exact ⟨[], element, elements, _, rfl, List.forall_mem_nil _, List.mem_cons_self,
          .inr ⟨error, rfl, rfl⟩⟩
      | .fresh _ | .waiting _ _ | .joining _ _ _ =>
        exact ⟨[], element, elements, _, rfl, List.forall_mem_nil _, List.mem_cons_self,
          .inl ⟨rfl, rfl⟩⟩

/-- A join that has all values finishes with them, and in time. -/
theorem gather_of_values {values : List Doc} (onTime : OnTimeAll wait now elements children)
    (all : values? children = some values) :
    (Finish.gather elements).time ≤ now ∧ (Finish.gather elements).outcome = .ok values := by
  have each : (∀ element ∈ elements, element.failing? = none ∧ element.time ≤ now) ∧
      elements.filterMap (fun element => element.outcome.toOption) = values := by
    induction onTime generalizing values with
    | nil => exact ⟨List.forall_mem_nil _, Option.some.inj all⟩
    | @cons element child elements rest here _ ih =>
        match child with
        | .finished (.ok value) =>
          obtain ⟨others, tail, rfl⟩ := Option.map_eq_some_iff.mp all
          obtain ⟨passes, le, outcome⟩ := here.failing?_of_value
          obtain ⟨ok, outcomes⟩ := ih tail
          refine ⟨List.forall_mem_cons.mpr ⟨⟨passes, le⟩, ok⟩, ?_⟩
          rw [List.filterMap_cons, outcome, outcomes]
          rfl
        | .finished (.error _) | .fresh _ | .waiting _ _ | .joining _ _ _ => cases all
  obtain ⟨ok, outcomes⟩ := each
  obtain ⟨latest, outcome⟩ := Finish.gather_of_values fun element member => (ok element member).1
  rw [latest, outcome, outcomes]
  exact ⟨Finish.latest_le fun element member => (ok element member).2, rfl⟩

/-- A large join ends with its next failure, and in time. -/
theorem gather_of_nextFailure {error : PathError} (onTime : OnTimeAll wait now elements children)
    (large : ¬ elements.length ≤ Agenda.threshold) (next : nextFailure children = some error) :
    (Finish.gather elements).time ≤ now ∧ (Finish.gather elements).Admits (.error error) := by
  have missing := values?_of_nextFailure next
  obtain ⟨before, first, after, child, rfl, ok, member, ⟨none, -⟩ | ⟨other, same, rfl⟩⟩ :=
    onTime.split missing
  · cases next.symm.trans none
  · obtain rfl := Option.some.inj (same.symm.trans next)
    obtain ⟨own, fails, le, inside⟩ := ((onTimeAll_iff.mp onTime).2 _ _ member).failing?_of_error
    exact Finish.gather_large_fails large (fun element member => (ok element member).1)
      (fun element member => (ok element member).2) fails inside le

/-- A join that goes on finishes no sooner than its unfinished children. -/
theorem le_gather (onTime : OnTimeAll wait now elements children)
    (suits : agenda.Suits elements.length) (clear : agenda.Clear children)
    (missing : values? children = none)
    (each : ∀ element child, (element, child) ∈ elements.zip children →
      child.isFinished = false → time ≤ element.time) :
    time ≤ (Finish.gather elements).time := by
  cases agenda with
  | all =>
      refine Finish.le_gather_of_small suits (fun element member own fails => ?_) ?_
      · -- no child has failed, so the child of an element that fails is unfinished
        obtain ⟨child, pair⟩ := onTime.of_mem_left member
        have here := (onTimeAll_iff.mp onTime).2 _ _ pair
        rw [← (Finish.failing?_eq_some.mp fails).2.1]
        refine each element child pair ?_
        match child with
        | .finished (.ok value) => cases here.failing?_of_value.1.symm.trans fails
        | .finished (.error error) => exact absurd (List.of_mem_zip pair).2 (clear error)
        | .fresh _ | .waiting _ _ | .joining _ _ _ => rfl
      · obtain ⟨child, member, open_child⟩ := clear.exists_unfinished missing
        obtain ⟨element, pair⟩ := onTime.of_mem_right member
        exact ⟨element, (List.of_mem_zip pair).1, each element child pair open_child⟩
  | queued queue =>
      -- the first child without a value has not failed, or the join would have ended
      obtain ⟨before, first, after, child, rfl, ok, member, ⟨-, open_child⟩ | ⟨error, next, -⟩⟩ :=
        onTime.split missing
      · exact Finish.le_gather_of_large suits (fun element member => (ok element member).1)
          (each first child member open_child)
      · cases next.symm.trans clear

end OnTimeAll

/-! ## The passing of time -/

/-- Where nothing else can happen, nothing finishes before the next deadline. -/
theorem OnTime.le_of_quiet (onTime : OnTime wait now finish running) (ready : Ready world running)
    (quiet : Quiet world running) (unfinished : running.isFinished = false)
    (all : ∀ call ∈ running.calls, time ≤ call.deadline) : time ≤ finish.time := by
  induction onTime with
  | fresh finishes start => cases quiet
  | waiting result deadline positive le => exact deadline ▸ all _ List.mem_cons_self
  | joining rebuild length each suits positive le ih =>
      cases ready with
      | joining ready attended clear missing =>
          cases quiet with
          | joining quiet =>
              refine (onTimeAll_iff.mpr ⟨length, each⟩).le_gather suits clear missing
                fun element child pair open_child => ?_
              have member := (List.of_mem_zip pair).2
              exact ih element child pair (ready child member) (quiet child member) open_child
                fun call own => all call (mem_allCalls.mpr ⟨child, member, own⟩)
  | finished le admits => cases unfinished

/-- The clock may move up to the next deadline. -/
theorem OnTime.advance (onTime : OnTime wait now finish running) (ready : Ready world running)
    (quiet : Quiet world running) (all : ∀ call ∈ running.calls, time ≤ call.deadline) :
    OnTime wait (max now time) finish running := by
  induction onTime with
  | fresh finishes start => cases quiet
  | waiting result deadline positive le =>
      exact .waiting result deadline positive
        (Nat.max_le.mpr ⟨le, deadline ▸ all _ List.mem_cons_self⟩)
  | joining rebuild length each suits positive le ih =>
      -- the join as a whole does not finish before that time either
      have whole := OnTime.joining rebuild length each suits positive le
      refine .joining rebuild length (fun element child pair => ?_) suits positive
        (Nat.max_le.mpr ⟨le, whole.le_of_quiet ready quiet rfl all⟩)
      have member := (List.of_mem_zip pair).2
      cases ready with
      | joining ready attended clear missing =>
          cases quiet with
          | joining quiet =>
              exact ih element child pair (ready child member) (quiet child member)
                fun call own => all call (mem_allCalls.mpr ⟨child, member, own⟩)
  | finished le admits => exact .finished (Nat.le_trans le (Nat.le_max_left ..)) admits

/-- Calling for joins takes no time. -/
theorem OnTime.arouse (onTime : OnTime wait now finish running)
    (rank : PendingCall L → Option Nat) : OnTime wait now finish (running.arouse rank) := by
  induction onTime with
  | fresh finishes start => exact .fresh finishes start
  | waiting result deadline positive le => exact .waiting result deadline positive le
  | joining rebuild length each suits positive le ih =>
      refine .joining rebuild ?_ (fun element child pair => ?_) (suits.summon _) positive le
      · rw [arouseAll_eq_map, List.length_map, length]
      · rw [arouseAll_eq_map, List.zip_map_right] at pair
        obtain ⟨⟨element, child⟩, inside, same⟩ := List.mem_map.mp pair
        obtain ⟨rfl, rfl⟩ := Prod.mk.inj same
        exact ih _ _ inside
  | finished le admits => exact .finished le admits

end Running

end Waypoint
