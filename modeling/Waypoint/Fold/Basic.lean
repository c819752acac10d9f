import Waypoint.Future.World
import Waypoint.Trace

/-!
# Folds

A fold walks over a sequence by index. Each round takes one step on the element at the index, waits
for it, asks whether to go on and moves to the next index; it ends when it is told to stop, when a
step fails and when the index leaves the sequence. Steps never overlap.

Where the index goes is up to the caller, so a fold need not end: `Fold.run` is given a number of
rounds and has no answer when they do not suffice.
-/

namespace Waypoint

/-- The three decisions of a fold over elements `α` with an accumulator `β`. Its steps fail with
errors `ε`, those of paths where nothing else is said. -/
structure Fold (α β : Type) (ε : Type := PathError) where
  /-- Whether to go on, given the number of times it was asked before, the index and the
  accumulator. -/
  goesOn : (asked index : Nat) → β → Bool
  next : Nat → Nat
  step : β → α → Recorded ε Notice β

namespace Fold

/-- What is seen of a fold. -/
inductive Event (α β : Type) where
  | step (event : CallEvent α)
  /-- It is asked whether to go on after an index. -/
  | checked (index : Nat) (accumulator : β) (answer : Bool)
  | moved (index next : Nat)
  deriving DecidableEq, Inhabited

/-- A fold that has ended: its result, its record and the time at its end. -/
structure Run (α β : Type) (ε : Type := PathError) where
  result : Except ε β
  log : List (Entry (Event α β))
  elapsed : Nat

variable {α β γ ε : Type}

/-- The run with lines put before its record. -/
def Run.after (lines : List (Entry (Event α β))) (run : Run α β ε) : Run α β ε :=
  { run with log := lines ++ run.log }

/-- The start and end of a step, if the event is one. -/
def Event.step? : Event α β → Option (CallEvent α)
  | step event => some event
  | _ => none

/-- The starts and ends of the steps of a run, in order. -/
def Run.steps (run : Run α β ε) : List (CallEvent α) :=
  (Entry.calls run.log).filterMap Event.step?

/-- The record of one step: the notice before it, its start and its end, and the notices it
gives. -/
def stepRecord (index : Nat) (element : α) (start finish : Nat) (notices : List Notice) :
    List (Entry (Event α β)) :=
  .notice (.foldStep index) :: .call (.step (.started element start)) ::
    .call (.step (.ended element finish)) :: notices.map .notice

/-- Runs the fold from a round on: `round` steps have been taken, and the next one is at `index` and
starts at `now`. The `n`-th step waits `waits n`. At most `rounds` steps are taken. -/
def runFrom (fold : Fold α β ε) (waits : Nat → Nat) (sequence : List α) :
    (rounds round index now : Nat) → β → Option (Run α β ε)
  | rounds, round, index, now, accumulator =>
    match sequence[index]? with
    | none => some ⟨.ok accumulator, [], now⟩
    | some element =>
      match rounds with
      | 0 => none
      | rounds + 1 =>
        let finish := now + waits round
        let step := fold.step accumulator element
        let lines := stepRecord index element now finish step.log
        match step.result with
        | .error error => some ⟨.error error, lines, finish⟩
        | .ok accumulator =>
          if fold.goesOn round index accumulator then
            let next := fold.next index
            (fold.runFrom waits sequence rounds (round + 1) next finish accumulator).map
              (Run.after (lines ++
                [.call (.checked index accumulator true), .call (.moved index next)]))
          else
            some ⟨.ok accumulator, lines ++ [.call (.checked index accumulator false)], finish⟩

/-- Runs the fold from an index with an accumulator. -/
def run (fold : Fold α β ε) (waits : Nat → Nat) (sequence : List α) (rounds start : Nat)
    (initial : β) : Option (Run α β ε) :=
  fold.runFrom waits sequence rounds 0 start 0 initial

end Fold

end Waypoint
