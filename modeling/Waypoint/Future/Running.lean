import Waypoint.Future.Basic
import Waypoint.Future.World
import Waypoint.Sorting

/-!
# Running futures

A running future is a tree: its leaves are finished, wait in a callback or have not been asked for
anything yet, and its inner nodes are joins with children that are not all finished.

There are two kinds of join. One of at most thirty children asks all unfinished children every time.
A larger one has a queue: it asks a child once at the start, and from then on only when a callback
inside the child has called for it. `Running.arouse` is how callbacks call.
-/

namespace Waypoint

/-- A callback that has started and waits. -/
structure PendingCall (L : Type) where
  /-- The number of callbacks that started before it. -/
  number : Nat
  /-- Its place among the waits on the clock, once it is there. -/
  turn : Option Nat
  deadline : Nat
  label : L
  notices : List Notice

/-- Which unfinished children a join asks. -/
inductive Agenda where
  /-- All of them, in index order. -/
  | all
  /-- Those in a queue, from its front. -/
  | queued (queue : List Nat)
  deriving DecidableEq, Inhabited, Repr

namespace Agenda

/-- The largest number of children that are all asked every time. -/
def threshold : Nat :=
  30

/-- The agenda at the start of a join, by the number of its children. -/
def ofCount (count : Nat) : Agenda :=
  if count ≤ threshold then all else queued (List.range count)

end Agenda

/-- A future that has been started. -/
inductive Running (L : Type) where
  | fresh (future : Future L)
  /-- In a callback, with what comes after it. -/
  | waiting (call : PendingCall L) (next : Future L)
  /-- In a join, with what comes after it. -/
  | joining (children : List (Running L)) (agenda : Agenda) (next : List Doc → Future L)
  | finished (result : Except PathError Doc)

namespace Running

variable {L : Type}

/-! ## Results -/

def result? : Running L → Option (Except PathError Doc)
  | finished result => some result
  | _ => none

def isFinished (running : Running L) : Bool :=
  running.result?.isSome

/-- The values of the children, if all have one. -/
def values? : List (Running L) → Option (List Doc)
  | [] => some []
  | finished (.ok value) :: rest => (values? rest).map (value :: ·)
  | _ => none

/-- The failure that comes after nothing but values. -/
def nextFailure : List (Running L) → Option PathError
  | finished (.ok _) :: rest => nextFailure rest
  | finished (.error error) :: _ => some error
  | _ => none

/-! ## Deadlines -/

mutual

def deadline? : Running L → Option Nat
  | fresh _ => none
  | waiting call _ => some call.deadline
  | joining children _ _ => deadlines? children
  | finished _ => none

def deadlines? : List (Running L) → Option Nat
  | [] => none
  | first :: rest => Option.merge min (deadline? first) (deadlines? rest)

end

/-! ## Calling for joins -/

mutual

/-- The least rank of a callback, given the ranks of those that call. -/
def rank? (rank : PendingCall L → Option Nat) : Running L → Option Nat
  | fresh _ => none
  | waiting call _ => rank call
  | joining children _ _ => leastRank? rank children
  | finished _ => none

def leastRank? (rank : PendingCall L → Option Nat) : List (Running L) → Option Nat
  | [] => none
  | first :: rest => Option.merge min (rank? rank first) (leastRank? rank rest)

end

/-- The positions of the running futures with a callback that calls, by the least rank. -/
def calling (rank : PendingCall L → Option Nat) (children : List (Running L)) : List Nat :=
  let ranked := children.zipIdx.filterMap fun (child, index) =>
    (child.rank? rank).map fun least => (least, index)
  (sortBy Prod.fst ranked).map Prod.snd

end Running

/-- The agenda with the children that are called for; those in the queue keep their places. -/
def Agenda.summon (called : List Nat) : Agenda → Agenda
  | all => all
  | queued queue => queued (queue ++ called.filter fun index => !queue.contains index)

namespace Running

variable {L : Type}

mutual

/-- The running future in which callbacks have called, in the order of their ranks, for every join
that they are in. -/
def arouse (rank : PendingCall L → Option Nat) : Running L → Running L
  | fresh future => fresh future
  | waiting call next => waiting call next
  | joining children agenda next =>
    joining (arouseAll rank children) (agenda.summon (calling rank children)) next
  | finished result => finished result

def arouseAll (rank : PendingCall L → Option Nat) : List (Running L) → List (Running L)
  | [] => []
  | first :: rest => arouse rank first :: arouseAll rank rest

end

/-- The rank of a callback whose waiting is over at a time: its place among the waits on the
clock. -/
def dueRank (time : Nat) (call : PendingCall L) : Option Nat :=
  if call.deadline ≤ time then call.turn else none

/-- The rank of a callback that was put off: its place in the list of those. -/
def putOffRank (putOff : List Nat) (call : PendingCall L) : Option Nat :=
  putOff.idxOf? call.number

end Running

end Waypoint
