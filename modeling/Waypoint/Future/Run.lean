import Waypoint.Future.Poll

/-!
# Runs

A run takes its futures further in rounds until all have finished. After a round there are three
cases. If callbacks were put off, they call for their joins, the latest first, and another round
follows at the same time. If a join is restless, another round follows too. Otherwise the clock
jumps to the next deadline, where the callbacks whose waiting is over call for their joins in the
order in which they were put on the clock.

The number of rounds is bounded by the sizes of the futures. A jump of the clock ends a wait. A
round that puts callbacks off has used up its allowance on the ends of others, unless it is the
first one. Every other round takes a step too, or leaves fewer places in the queues of the joins.
-/

namespace Waypoint

/-- Futures that run side by side, and which of them are asked. Unlike the children of a join they
never end one another. -/
structure Roster (L : Type) where
  running : List (Running L)
  agenda : Agenda

namespace Roster

variable {L : Type}

def ofFutures (futures : List (Future L)) : Roster L :=
  ⟨futures.map .fresh, .ofCount futures.length⟩

/-- The roster in which callbacks have called, in the order of their ranks. -/
def arouse (rank : PendingCall L → Option Nat) (roster : Roster L) : Roster L :=
  ⟨Running.arouseAll rank roster.running,
    roster.agenda.summon (Running.calling rank roster.running)⟩

/-- What the next round begins with, if there is one: the roster, and the world, given whether
something in the roster is restless. -/
def next? (restless : Bool) (roster : Roster L) (world : World L) : Option (Roster L × World L) :=
  if roster.running.all Running.isFinished then none
  else if !world.putOff.isEmpty then
    some (roster.arouse (Running.putOffRank world.putOff), world.newRound)
  else if restless then some (roster, world.newRound)
  else
    (Running.deadlines? roster.running).map fun time =>
      (roster.arouse (Running.dueRank time), world.advanceTo time)

/-- Takes the futures further for at most `rounds` rounds. -/
def settle (depth : Nat) : (rounds : Nat) → Roster L → World L → Roster L × World L
  | 0, roster, world => (roster, world)
  | rounds + 1, roster, world =>
    let inquiry := Running.inquire (Running.poll depth) false roster.running roster.agenda world
    let roster : Roster L := ⟨inquiry.children, inquiry.agenda⟩
    match roster.next? inquiry.restless inquiry.world with
    | none => (roster, inquiry.world)
    | some (roster, world) => settle depth rounds roster world

end Roster

/-- The outcome of a run of one future, with its record and the time at its end. The result is
missing only where the run was cut short. -/
structure Report (L : Type) where
  result : Option (Except PathError Doc)
  log : List (Entry (CallEvent L))
  elapsed : Nat

/-- The outcome of futures that ran together. -/
structure JointReport (L : Type) where
  results : List (Option (Except PathError Doc))
  log : List (Entry (CallEvent L))
  elapsed : Nat

namespace Future

variable {L : Type}

/-- More rounds than futures of a total size can need: between two rounds that take a step there are
at most `size` others, one for each place in a queue, and the first round may take none. -/
def enoughRounds (size : Nat) : Nat :=
  (size + 1) * (size + 1) + 1

/-- Runs futures side by side to their ends. -/
def runTogether (futures : List (Future L)) (world : World L) :
    List (Option (Except PathError Doc)) × World L :=
  let size := sizes futures
  let (roster, world) := (Roster.ofFutures futures).settle size (enoughRounds size) world
  (roster.running.map Running.result?, world)

def run (future : Future L) (world : World L) : Option (Except PathError Doc) × World L :=
  let (results, world) := runTogether [future] world
  (results.head?.join, world)

/-- Runs futures one after another; the clock and the count of callbacks go on, each future has its
own record. -/
def runInTurn : List (Future L) → World L → List (Report L)
  | [], _ => []
  | first :: rest, world =>
    let (result, world) := first.run world.nextRun
    ⟨result, world.log, world.now⟩ :: runInTurn rest world

def runJointly (futures : List (Future L)) (world : World L) : JointReport L :=
  let (results, world) := runTogether futures world
  ⟨results, world.log, world.now⟩

/-- Runs one future in a fresh world. -/
def report (future : Future L) (delays : List Nat) : Report L :=
  let (result, world) := future.run (World.fresh delays)
  ⟨result, world.log, world.now⟩

end Future

end Waypoint
