import Waypoint.Notice
import Waypoint.Wait

/-!
# The world of a run

Futures run against a clock that only moves when nothing else can happen, and a list of waiting
times from which the callbacks take theirs in the order in which they start. Everything that happens
is recorded.

A run goes in rounds. In one round at most `World.allowance` waits end; the callbacks that come
after them are put off to another round at the same time.
-/

namespace Waypoint

/-- What is seen of a callback: its start and its end, with the time. -/
inductive CallEvent (L : Type) where
  | started (label : L) (time : Nat)
  | ended (label : L) (time : Nat)
  deriving DecidableEq, Inhabited, Repr

/-- The state that all futures of a run share. -/
structure World (L : Type) where
  now : Nat
  delays : List Nat
  /-- The number of callbacks started so far. -/
  started : Nat
  /-- The number of waits put on the clock so far. -/
  timed : Nat
  /-- The number of waits that may still end in this round. -/
  credit : Nat
  /-- The callbacks put off in this round, the latest first. -/
  putOff : List Nat
  log : List (Entry (CallEvent L))

namespace World

variable {L : Type}

/-- The number of waits that may end in one round. -/
def allowance : Nat :=
  128

/-- The world before anything has happened. -/
def fresh (delays : List Nat) : World L :=
  ⟨0, delays, 0, 0, allowance, [], []⟩

/-- How long the next callback to start waits. -/
def nextWait (world : World L) : Nat :=
  waitOf world.delays world.started

def recordStart (label : L) (world : World L) : World L :=
  { world with
    started := world.started + 1
    log := world.log ++ [.call (.started label world.now)] }

/-- A callback ends, and gives its notices. -/
def recordEnd (label : L) (notices : List Notice) (world : World L) : World L :=
  { world with
    log := world.log ++ .call (.ended label world.now) :: notices.map .notice }

def putOnClock (world : World L) : World L :=
  { world with timed := world.timed + 1 }

def spend (world : World L) : World L :=
  { world with credit := world.credit - 1 }

/-- A callback is put off to another round. -/
def postpone (number : Nat) (world : World L) : World L :=
  { world with putOff := number :: world.putOff }

/-- A new round at the same time. -/
def newRound (world : World L) : World L :=
  { world with credit := allowance, putOff := [] }

/-- The clock moves on, and a new round begins. -/
def advanceTo (time : Nat) (world : World L) : World L :=
  { world.newRound with now := max world.now time }

/-- The same world at the start of another run, with an empty record. What is left of the round's
allowance stays. -/
def nextRun (world : World L) : World L :=
  { world with putOff := [], log := [] }

end World

end Waypoint
