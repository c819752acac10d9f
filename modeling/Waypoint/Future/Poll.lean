import Waypoint.Future.Running

/-!
# Asking running futures

`Running.poll` takes a running future as far as it goes at the present time. A callback that waits
for no time starts and ends at once; any other starts, is put on the clock and ends when it is asked
at its deadline or later. One that is asked when the round's allowance is used up is put off.

A join asks its children by its agenda. If it asks all of them, it ends with the first failure that
it meets. If it asks those in its queue, it takes the results in index order: a failure counts only
once all children before it have a value.

A join with a queue need not come to its end in one round. Of the children that it asks in a row
without seeing one finish there are at most two that stay restless, and at most as many as are
unfinished; after that it stops and is restless itself, which means that it wants to be asked again
in another round. What contains something restless is restless too.
-/

namespace Waypoint

/-- A running future after it was asked. -/
structure Visit (L : Type) where
  running : Running L
  world : World L
  /-- Whether it wants to be asked again at the same time. -/
  restless : Bool

/-- The children of a join after they were asked. -/
structure Inquiry (L : Type) where
  children : List (Running L)
  agenda : Agenda
  failure : Option PathError
  world : World L
  restless : Bool

namespace Inquiry

variable {L : Type}

/-- The same with one more child at the front, which is not asked. -/
def behind (child : Running L) (inquiry : Inquiry L) : Inquiry L :=
  { inquiry with children := child :: inquiry.children }

/-- The same after something restless, if it was. -/
def after (restless : Bool) (inquiry : Inquiry L) : Inquiry L :=
  { inquiry with restless := restless || inquiry.restless }

end Inquiry

namespace Running

variable {L : Type}

/-! ## The children of a join -/

/-- Asks all unfinished children in index order. With `strict` it ends at the first failure, and the
children after it are dropped. -/
def askAll (ask : Running L → World L → Visit L) (strict : Bool) :
    List (Running L) → World L → Inquiry L
  | [], world => ⟨[], .all, none, world, false⟩
  | finished result :: rest, world => (askAll ask strict rest world).behind (finished result)
  | child :: rest, world =>
    let visit := ask child world
    match strict, visit.running with
    | true, finished (.error error) =>
      ⟨[visit.running], .all, some error, visit.world, visit.restless⟩
    | _, _ =>
      ((askAll ask strict rest visit.world).behind visit.running).after visit.restless

/-- Asks the children in the queue until one finishes, and goes on with `onward` from there. It may
ask `asks` more children; `warned` says whether one of those asked before stayed restless. -/
def askUntil (ask : Running L → World L → Visit L) (strict : Bool)
    (onward : List (Running L) → List Nat → World L → Inquiry L) :
    (asks : Nat) → (warned : Bool) → List (Running L) → (queue : List Nat) → World L → Inquiry L
  | 0, _, children, queue, world => ⟨children, .queued queue, none, world, true⟩
  | _ + 1, _, children, [], world => ⟨children, .queued [], none, world, false⟩
  | asks + 1, warned, children, index :: queue, world =>
    match children[index]? with
    | none => askUntil ask strict onward asks warned children queue world
    | some child =>
      let visit := ask child world
      let children := children.set index visit.running
      if visit.running.isFinished then
        match strict, nextFailure children with
        | true, some error => ⟨children, .queued queue, some error, visit.world, visit.restless⟩
        | _, _ => (onward children queue visit.world).after visit.restless
      else if visit.restless then
        if warned then ⟨children, .queued (queue ++ [index]), none, visit.world, true⟩
        else
          (askUntil ask strict onward asks true children (queue ++ [index]) visit.world).after true
      else askUntil ask strict onward asks warned children queue visit.world

/-- Asks the children in the queue, given how many are unfinished. With `strict` it ends at the
first failure that comes after nothing but values. -/
def askQueued (ask : Running L → World L → Visit L) (strict : Bool) :
    (unfinished : Nat) → List (Running L) → (queue : List Nat) → World L → Inquiry L
  | 0, children, queue, world => ⟨children, .queued queue, none, world, false⟩
  | unfinished + 1, children, queue, world =>
    askUntil ask strict (askQueued ask strict unfinished) (unfinished + 1) false children queue
      world

def inquire (ask : Running L → World L → Visit L) (strict : Bool) (children : List (Running L))
    (agenda : Agenda) (world : World L) : Inquiry L :=
  match agenda with
  | .all => askAll ask strict children world
  | .queued queue =>
    askQueued ask strict (children.countP fun child => !child.isFinished) children queue world

/-! ## Asking a running future -/

/-- Asks a callback that waits; `proceed` goes on after its end. -/
def pollCall (proceed : World L → Visit L) (call : PendingCall L) (next : Future L)
    (world : World L) : Visit L :=
  if world.credit = 0 then ⟨waiting call next, world.postpone call.number, false⟩
  else
    match call.turn with
    | none => ⟨waiting { call with turn := some world.timed } next, world.putOnClock, false⟩
    | some _ =>
      if call.deadline ≤ world.now then
        proceed (world.spend.recordEnd call.label call.notices)
      else ⟨waiting call next, world, false⟩

def pollJoin (ask : Running L → World L → Visit L) (children : List (Running L)) (agenda : Agenda)
    (next : List Doc → Future L) (world : World L) : Visit L :=
  let inquiry := inquire ask true children agenda world
  match inquiry.failure with
  | some error => ⟨finished (.error error), inquiry.world, inquiry.restless⟩
  | none =>
    match values? inquiry.children with
    | none => ⟨joining inquiry.children inquiry.agenda next, inquiry.world, inquiry.restless⟩
    | some values =>
      let visit := ask (fresh (next values)) inquiry.world
      ⟨visit.running, visit.world, inquiry.restless || visit.restless⟩

/-- Takes a running future as far as it goes at the present time, at most `depth` levels deep. The
size of the future it came from is deep enough. -/
def poll : (depth : Nat) → Running L → World L → Visit L
  | 0, running, world => ⟨running, world, false⟩
  | depth + 1, running, world =>
    match running with
    | finished result => ⟨finished result, world, false⟩
    | fresh (.done value) => ⟨finished (.ok value), world, false⟩
    | fresh (.fail error) => ⟨finished (.error error), world, false⟩
    | fresh (.call label notices next) =>
      let begun := world.recordStart label
      if world.nextWait = 0 then poll depth (fresh next) (begun.recordEnd label notices)
      else
        pollCall (poll depth (fresh next))
          ⟨world.started, none, world.now + world.nextWait, label, notices⟩ next begun
    | waiting call next => pollCall (poll depth (fresh next)) call next world
    | fresh (.join children next) =>
      pollJoin (poll depth) (children.map fresh) (.ofCount children.length) next world
    | joining children agenda next => pollJoin (poll depth) children agenda next world

end Running

end Waypoint
