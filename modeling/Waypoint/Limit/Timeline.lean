import Waypoint.Limit.Pool

/-!
# Bounded runs on the clock

The timeline of a bounded run: when each task starts and ends, and in which order the pool joins
them. Two things have to be done for a task: it starts after its launch, and it ends when its time
is over. What is to be done stands in line, and the pool and the line alternate. The pool takes the
tasks that have ended, in the order in which they did, and refills after each one. From the line at
most `Timeline.batch` turns are taken before the pool looks again. The clock moves, to the next end
of a task, only when the line is empty and the pool has nothing to take.

After a failure the tasks in flight go on. They are watched for some time, the drain.
-/

namespace Waypoint

/-- What is seen of a bounded run. -/
inductive TaskEvent where
  | started (index time : Nat)
  | ended (index time : Nat)
  /-- The run has its result. -/
  | resolved (time : Nat)
  deriving DecidableEq, Inhabited, Repr

/-- A task on the clock, with the time of its end. -/
structure Timed (V ε : Type) where
  index : Nat
  finish : Nat
  completion : Completion V ε

inductive Turn (V ε : Type) where
  | start (index : Nat) (task : Task V ε)
  | finish (task : Timed V ε)

/-- The tasks of a bounded run as the clock sees them: what is to be done for those that stand in
line, those that sleep, in the order in which they began to, and those that have ended but are not
yet joined. -/
structure Timeline (V ε : Type) where
  now : Nat
  line : List (Turn V ε)
  asleep : List (Timed V ε)
  ended : List (Timed V ε)
  log : List (Entry TaskEvent)

namespace Timeline

variable {V ε : Type}

def empty : Timeline V ε :=
  ⟨0, [], [], [], []⟩

/-- The number of turns that are taken before the pool looks for tasks that have ended. -/
def batch : Nat :=
  61

/-- Puts a line at the end of the record. -/
def record (entry : Entry TaskEvent) (timeline : Timeline V ε) : Timeline V ε :=
  { timeline with log := timeline.log ++ [entry] }

def finish (task : Timed V ε) (timeline : Timeline V ε) : Timeline V ε :=
  { timeline.record (.call (.ended task.index timeline.now)) with
    ended := timeline.ended ++ [task] }

/-- A task starts; one that takes no time ends at once. -/
def start (index : Nat) (task : Task V ε) (timeline : Timeline V ε) : Timeline V ε :=
  let timed : Timed V ε := ⟨index, timeline.now + task.duration, task.completion⟩
  let begun := timeline.record (.call (.started index timeline.now))
  if task.duration = 0 then begun.finish timed
  else { begun with asleep := timeline.asleep ++ [timed] }

/-- Does what is to be done for a task. -/
def takeTurn (timeline : Timeline V ε) : Turn V ε → Timeline V ε
  | .start index task => timeline.start index task
  | .finish task => timeline.finish task

/-- Takes the first `count` turns in the line. -/
def takeTurns (count : Nat) (timeline : Timeline V ε) : Timeline V ε :=
  (timeline.line.take count).foldl takeTurn { timeline with line := timeline.line.drop count }

def nextEnd? (timeline : Timeline V ε) : Option Nat :=
  (timeline.asleep.map Timed.finish).min?

/-- The clock moves to a time, and the tasks whose time is over then get in line. -/
def advanceTo (time : Nat) (timeline : Timeline V ε) : Timeline V ε :=
  { timeline with
    now := time
    line := timeline.line ++
      (timeline.asleep.filter fun task => task.finish ≤ time).map .finish
    asleep := timeline.asleep.filter fun task => time < task.finish }

def advance (timeline : Timeline V ε) : Timeline V ε :=
  match timeline.nextEnd? with
  | none => timeline
  | some time => timeline.advanceTo time

/-- The pool launches into its free slots. -/
def refill (pool : Pool V ε) (timeline : Timeline V ε) : Pool V ε × Timeline V ε :=
  (pool.refill,
    { timeline with
      line := timeline.line ++ pool.launchable.map fun (index, task) => .start index task
      log := timeline.log ++ pool.launchNotices.map .notice })

/-- The pool takes the ended tasks in order and refills after each one. -/
def joinEnded : List (Timed V ε) → Pool V ε → Timeline V ε →
    Except (LimitError ε) (Pool V ε) × Timeline V ε
  | [], pool, timeline => (.ok pool, timeline)
  | task :: rest, pool, timeline =>
    match pool.join task.index task.completion with
    | .error (error, notice) =>
      (.error error, { timeline.record (.notice notice) with ended := rest })
    | .ok pool =>
      let (pool, timeline) := refill pool timeline
      joinEnded rest pool timeline

/-- Alternates between the line and the pool until nothing is in flight or a join fails. Every round
takes a turn or moves the clock to the end of a task, so three rounds for every task are enough. -/
def settle : (rounds : Nat) → Pool V ε → Timeline V ε →
    Except (LimitError ε) (Pool V ε) × Timeline V ε
  | 0, pool, timeline => (.ok pool, timeline)
  | rounds + 1, pool, timeline =>
    if pool.running.isEmpty then (.ok pool, timeline)
    else if timeline.line.isEmpty then settle rounds pool timeline.advance
    else
      let ran := timeline.takeTurns batch
      match joinEnded ran.ended pool { ran with ended := [] } with
      | (.error error, timeline) => (.error error, timeline)
      | (.ok pool, timeline) => settle rounds pool timeline

/-- What the tasks still in flight are seen to do within the time `drain`. Without any time nothing
is done even for those in line. A task that would end at the very end of the drain is not seen to
do so. -/
def drained (drain : Nat) (timeline : Timeline V ε) : Timeline V ε :=
  if drain = 0 then timeline
  else
    let ran := timeline.takeTurns timeline.line.length
    let due := sortBy Timed.finish
      (ran.asleep.filter fun task => task.finish < timeline.now + boundedWait drain)
    { ran with
      log := ran.log ++ due.map fun task => .call (.ended task.index task.finish) }

end Timeline

/-- The outcome of a bounded run, with the record of its tasks. -/
structure LimitReport (V ε : Type) where
  result : Except (LimitError ε) (List V)
  log : List (Entry TaskEvent)

namespace LimitReport

variable {V ε : Type}

/-- The report of a run of `count` tasks whose rounds have led to an outcome. The tasks that a
failure leaves in flight are watched for the time `drain`. -/
def ofRounds (count drain : Nat) :
    Except (LimitError ε) (Pool V ε) × Timeline V ε → LimitReport V ε
  | (.ok pool, timeline) =>
    let closed := timeline.record (.notice (.allCompleted count))
    ⟨.ok pool.results, (closed.record (.call (.resolved timeline.now))).log⟩
  | (.error error, timeline) =>
    ⟨.error error, ((timeline.record (.call (.resolved timeline.now))).drained drain).log⟩

/-- The most tasks of a record that are between start and end at once, given how many already
are. -/
def peakFrom : List TaskEvent → (active : Nat) → Nat
  | [], active => active
  | .started .. :: rest, active => max active (peakFrom rest (active + 1))
  | .ended .. :: rest, active => max active (peakFrom rest (active - 1))
  | .resolved _ :: rest, active => peakFrom rest active

/-- The most tasks between start and end at once. -/
def peak (report : LimitReport V ε) : Nat :=
  peakFrom (Entry.calls report.log) 0

end LimitReport

/-- Runs tasks with at most `limit` of them in flight and gives their values in input order, or the
first failure. The tasks left in flight are watched for the time `drain`. -/
def runLimited {V ε : Type} (limit : Nat) (tasks : List (Task V ε)) (drain : Nat) :
    LimitReport V ε :=
  if limit = 0 then ⟨.error .invalidLimit, [.call (.resolved 0)]⟩
  else
    let (pool, timeline) := Timeline.refill (Pool.new limit tasks) Timeline.empty
    .ofRounds tasks.length drain (Timeline.settle (3 * tasks.length) pool timeline)

/-- Maps a function over a list with at most `limit` calls in flight. The call on the element at an
index takes the time that `waits` gives for that index. -/
def mapLimited {α V ε : Type} (limit : Nat) (f : α → Except ε V) (waits : Nat → Nat) (list : List α)
    (drain : Nat) : LimitReport V ε :=
  runLimited limit (list.zipIdx.map fun (element, index) => ⟨waits index, .ofResult (f element)⟩)
    drain

end Waypoint
