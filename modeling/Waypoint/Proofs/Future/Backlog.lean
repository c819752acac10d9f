import Waypoint.Future.World
import Waypoint.Proofs.Future.Expected

/-!
# What is left of a run

The measure that bounds the rounds of a run. Its first part counts the steps that are left of a
running future (`Running.size`), the second one the places in the queues of its joins
(`Running.places`). Nothing that happens in a round lets the first part rise, and where it stays the
same the second one does not rise either, no wait has ended, and only what lets the second one fall
is restless (`Backlog.Falls`).
-/

namespace Waypoint

variable {L : Type}

namespace World

/-- One world is another one at the same time, and what was put off stays so. -/
structure Lasts (world later : World L) : Prop where
  now : later.now = world.now
  putOff : world.putOff ⊆ later.putOff

/-- One world is another one later in the same round: nothing is put off unless the allowance is
used up. -/
structure Later (world later : World L) : Prop extends Lasts world later where
  credit : later.credit ≤ world.credit
  used : later.putOff = world.putOff ∨ later.credit = 0

namespace Later

/-- Neither the clock, nor the allowance, nor what was put off changes. -/
theorem of_eq {world later : World L} (now : later.now = world.now)
    (credit : later.credit = world.credit) (putOff : later.putOff = world.putOff) :
    world.Later later :=
  ⟨⟨now, fun _ member => putOff ▸ member⟩, Nat.le_of_eq credit, .inl putOff⟩

theorem refl (world : World L) : world.Later world :=
  of_eq rfl rfl rfl

theorem trans {first second third : World L} (one : first.Later second)
    (two : second.Later third) : first.Later third where
  now := two.now.trans one.now
  credit := Nat.le_trans two.credit one.credit
  putOff := fun _ member => two.putOff (one.putOff member)
  used := by
    have fewer := two.credit
    rcases two.used with same | none
    · rcases one.used with same' | none'
      · exact .inl (same.trans same')
      · right
        omega
    · exact .inr none

theorem recordStart (label : L) (world : World L) : world.Later (world.recordStart label) :=
  of_eq rfl rfl rfl

theorem recordEnd (label : L) (notices : List Notice) (world : World L) :
    world.Later (world.recordEnd label notices) :=
  of_eq rfl rfl rfl

theorem putOnClock (world : World L) : world.Later world.putOnClock :=
  of_eq rfl rfl rfl

theorem spend (world : World L) : world.Later world.spend :=
  ⟨⟨rfl, fun _ member => member⟩, Nat.sub_le _ _, .inl rfl⟩

/-- A callback is put off only where no wait may end. -/
theorem postpone {world : World L} (none : world.credit = 0) (number : Nat) :
    world.Later (world.postpone number) :=
  ⟨⟨rfl, fun _ member => List.mem_cons_of_mem _ member⟩, Nat.le_refl _, .inr none⟩

end Later

end World

/-! ## Steps -/

/-- The steps that are left of a callback that waits. -/
def PendingCall.size (now : Nat) (call : PendingCall L) : Nat :=
  match call.turn with
  | none => 3
  | some _ => if now < call.deadline then 2 else 1

theorem PendingCall.size_pos (now : Nat) (call : PendingCall L) : 0 < call.size now := by
  unfold size
  split
  · omega
  · split <;> omega

theorem PendingCall.size_of_off {call : PendingCall L} (off : call.turn = none) (now : Nat) :
    call.size now = 3 := by
  rw [size, off]

theorem PendingCall.size_of_turn {call : PendingCall L} (turn : call.turn ≠ none) (now : Nat) :
    call.size now ≤ 2 := by
  unfold size
  split
  · contradiction
  · split <;> omega

theorem PendingCall.size_le_of_le {now later : Nat} (le : now ≤ later) (call : PendingCall L) :
    call.size later ≤ call.size now := by
  unfold size
  split
  · exact Nat.le_refl _
  · split <;> split <;> omega

namespace Future

theorem size_pos (future : Future L) : 0 < future.size := by
  cases future <;> simp [size]

/-- The steps after a join, by the values that its children come to. -/
def sizeAfter (next : List Doc → Future L) : Option (List Doc) → Nat
  | some values => (next values).size
  | none => 0

theorem size_join (children : List (Future L)) (next : List Doc → Future L) :
    (join children next).size =
      sizes children + sizeAfter next (outcomes children).toOption + 2 := by
  rw [size]
  cases outcomes children <;> rfl

end Future

namespace Running

mutual

/-- The steps that are left of a running future at a time. -/
def size (now : Nat) : Running L → Nat
  | fresh future => future.size
  | waiting call next => next.size + call.size now
  | joining children _ next =>
    sizes now children + Future.sizeAfter next (expectedAll children) + 1
  | finished _ => 0

def sizes (now : Nat) : List (Running L) → Nat
  | [] => 0
  | child :: rest => size now child + sizes now rest

end

/-- Only what has finished has no steps left. -/
theorem size_pos {running : Running L} (unfinished : running.isFinished = false) (now : Nat) :
    0 < running.size now := by
  cases running with
  | fresh future =>
      rw [size]
      exact future.size_pos
  | waiting call next =>
      have := call.size_pos now
      rw [size]
      omega
  | joining children agenda next =>
      rw [size]
      omega
  | finished result => cases unfinished

theorem sizes_map_fresh (now : Nat) (children : List (Future L)) :
    sizes now (children.map fresh) = Future.sizes children := by
  induction children with
  | nil => rfl
  | cons child rest ih => rw [List.map_cons, sizes, size, ih, Future.sizes]

theorem size_le_sizes {now : Nat} {children : List (Running L)} {child : Running L}
    (member : child ∈ children) : child.size now ≤ sizes now children := by
  induction children with
  | nil => cases member
  | cons first rest ih =>
      rw [sizes]
      rcases List.mem_cons.mp member with rfl | later
      · omega
      · have := ih later
        omega

theorem sizes_set {index : Nat} {children : List (Running L)} {child : Running L} (now : Nat)
    (child' : Running L) (at_index : children[index]? = some child) :
    sizes now (children.set index child') + child.size now =
      sizes now children + child'.size now := by
  induction children generalizing index with
  | nil => cases at_index
  | cons first rest ih =>
      cases index with
      | zero =>
          obtain rfl : first = child := Option.some.inj at_index
          rw [List.set_cons_zero, sizes, sizes]
          omega
      | succ index =>
          have := ih at_index
          rw [List.set_cons_succ, sizes, sizes]
          omega

/-! ## Places -/

end Running

def Agenda.length : Agenda → Nat
  | all => 0
  | queued queue => queue.length

namespace Running

mutual

/-- The places in the queues of the joins in a running future. -/
def places : Running L → Nat
  | fresh _ => 0
  | waiting _ _ => 0
  | joining children agenda _ => agenda.length + allPlaces children
  | finished _ => 0

def allPlaces : List (Running L) → Nat
  | [] => 0
  | child :: rest => places child + allPlaces rest

end

theorem allPlaces_set {index : Nat} {children : List (Running L)} {child : Running L}
    (child' : Running L) (at_index : children[index]? = some child) :
    allPlaces (children.set index child') + child.places =
      allPlaces children + child'.places := by
  induction children generalizing index with
  | nil => cases at_index
  | cons first rest ih =>
      cases index with
      | zero =>
          obtain rfl : first = child := Option.some.inj at_index
          rw [List.set_cons_zero, allPlaces, allPlaces]
          omega
      | succ index =>
          have := ih at_index
          rw [List.set_cons_succ, allPlaces, allPlaces]
          omega

end Running

/-! ## The measure -/

/-- What is left of a run: the steps, the places in queues, and the waits that may still end in this
round. -/
structure Backlog where
  steps : Nat
  places : Nat
  credit : Nat

/-- One backlog comes after another one in the same round; `busy` says that something is left
restless. -/
def Backlog.Falls (busy : Bool) (before after : Backlog) : Prop :=
  after.steps < before.steps ∨
    after.steps = before.steps ∧ after.credit = before.credit ∧ after.places ≤ before.places ∧
      (busy = true → after.places < before.places)

namespace Backlog.Falls

variable {busy : Bool} {before after : Backlog}

theorem refl (backlog : Backlog) : Falls false backlog backlog :=
  .inr ⟨rfl, rfl, Nat.le_refl _, fun busy => nomatch busy⟩

theorem steps_le (falls : Falls busy before after) : after.steps ≤ before.steps := by
  rcases falls with less | same
  · exact Nat.le_of_lt less
  · exact Nat.le_of_eq same.1

theorem trans {busy' : Bool} {first second third : Backlog} (one : Falls busy first second)
    (two : Falls busy' second third) : Falls (busy || busy') first third := by
  rcases one with less | ⟨steps, credit, places, strict⟩
  -- a step in either part is a step in both together
  · have := two.steps_le
    left
    omega
  · rcases two with less' | ⟨steps', credit', places', strict'⟩
    · left
      omega
    · refine .inr ⟨by omega, by omega, by omega, fun either => ?_⟩
      rcases (Bool.or_eq_true _ _).mp either with is_busy | is_busy'
      · have := strict is_busy
        omega
      · have := strict' is_busy'
        omega

/-- A fall to fewer places counts whatever is restless. -/
theorem of_busy (falls : Falls true before after) (busy : Bool) : Falls busy before after := by
  rcases falls with less | ⟨steps, credit, places, strict⟩
  · exact .inl less
  · exact .inr ⟨steps, credit, places, fun _ => strict rfl⟩

end Backlog.Falls

namespace Running

def backlog (running : Running L) (world : World L) : Backlog :=
  ⟨running.size world.now, running.places, world.credit⟩

/-- What is left of the children of a join with an agenda. -/
def backlogAll (children : List (Running L)) (agenda : Agenda) (world : World L) : Backlog :=
  ⟨sizes world.now children, agenda.length + allPlaces children, world.credit⟩

end Running

namespace Backlog.Falls

open Running

variable {busy : Bool} {children : List (Running L)} {child child' : Running L} {index : Nat}
  {agenda agenda' : Agenda} {world world' : World L}

/-- A child is taken further and the queue does not grow. -/
theorem set (falls : Falls busy (child.backlog world) (child'.backlog world'))
    (at_index : children[index]? = some child) (now : world'.now = world.now)
    (shorter : agenda'.length ≤ agenda.length) :
    Falls busy (backlogAll children agenda world)
      (backlogAll (children.set index child') agenda' world') := by
  have steps := sizes_set world.now child' at_index
  have places := allPlaces_set child' at_index
  simp only [Falls, backlog, backlogAll, now] at falls ⊢
  rcases falls with less | ⟨same, credit, fewer, strict⟩
  · left
    omega
  · refine .inr ⟨by omega, credit, by omega, fun is_busy => ?_⟩
    have := strict is_busy
    omega

/-- A child is taken further and loses its place in the queue. -/
theorem set_shorter (falls : Falls busy (child.backlog world) (child'.backlog world'))
    (at_index : children[index]? = some child) (now : world'.now = world.now)
    (shorter : agenda'.length < agenda.length) :
    Falls true (backlogAll children agenda world)
      (backlogAll (children.set index child') agenda' world') := by
  have steps := sizes_set world.now child' at_index
  have places := allPlaces_set child' at_index
  simp only [Falls, backlog, backlogAll, now] at falls ⊢
  rcases falls with less | ⟨same, credit, fewer, -⟩
  · left
    omega
  · exact .inr ⟨by omega, credit, by omega, fun _ => by omega⟩

/-- The children after the first one are taken further. -/
theorem tail {rest rest' : List (Running L)}
    (falls : Falls busy (backlogAll rest agenda world) (backlogAll rest' agenda' world'))
    (now : world'.now = world.now) (child : Running L) :
    Falls busy (backlogAll (child :: rest) agenda world)
      (backlogAll (child :: rest') agenda' world') := by
  simp only [Falls, backlogAll, now, sizes, allPlaces] at falls ⊢
  rcases falls with less | ⟨same, credit, fewer, strict⟩
  · left
    omega
  · refine .inr ⟨by omega, credit, by omega, fun is_busy => ?_⟩
    have := strict is_busy
    omega

/-- A join is taken further with its children. -/
theorem joining {children' : List (Running L)}
    (falls : Falls busy (backlogAll children agenda world) (backlogAll children' agenda' world'))
    (next : List Doc → Future L) (expected : expectedAll children' = expectedAll children) :
    Falls busy ((Running.joining children agenda next).backlog world)
      ((Running.joining children' agenda' next).backlog world') := by
  simp only [Falls, backlog, backlogAll, size, expected] at falls ⊢
  rcases falls with less | ⟨same, rest⟩
  · left
    omega
  · exact .inr ⟨by omega, rest⟩

end Backlog.Falls

end Waypoint
