import Waypoint.Fold.Basic

/-!
# Folds move by move

A fold as a system of moves: it begins a step and waits for it, asks whether to go on, and moves its
index. What its callbacks answer and how long a step takes is left open, so
`Fold.Course sequence start initial moves progress` holds for everything that callbacks may let a
fold do, also if they answer differently from one call to the next. A course is followed up to any
of its moves, and need not come to an end.

The clock moves only while a step is pending, and no further than to the end of that step.
-/

namespace Waypoint

namespace Fold

/-- Where a fold stands between two moves. -/
inductive State (α β ε : Type) where
  /-- The index is set, and what happens there has not begun. -/
  | ready (index : Nat) (accumulator : β)
  /-- A step is pending that ends at `deadline`. -/
  | stepping (index : Nat) (element : α) (deadline : Nat)
  /-- The step has come to a value. -/
  | asking (index : Nat) (accumulator : β)
  /-- The fold was told to go on. -/
  | moving (index : Nat) (accumulator : β)
  | finished (result : Except ε β)

/-- What comes after a step at an index. -/
def State.afterStep {α β ε : Type} (index : Nat) : Except ε β → State α β ε
  | .ok accumulator => asking index accumulator
  | .error error => finished (.error error)

inductive Move (α β ε : Type) where
  /-- The step on an element begins, and will take the time `wait`. -/
  | begin (element : α) (wait : Nat)
  /-- The clock moves while the step is pending. -/
  | pass (time : Nat)
  | finish (outcome : Recorded ε Notice β)
  | answer (goesOn : Bool)
  | goTo (next : Nat)
  /-- The index is outside the sequence. -/
  | leave

/-- The element and the waiting time of a step that begins. -/
def Move.begun? {α β ε : Type} : Move α β ε → Option (α × Nat)
  | begin element wait => some (element, wait)
  | _ => none

/-- The steps that have begun, with their waiting times. -/
def begun {α β ε : Type} (moves : List (Move α β ε)) : List (α × Nat) :=
  moves.filterMap Move.begun?

/-- A fold between two moves: where it stands, the time and the record so far. -/
structure Progress (α β ε : Type) where
  state : State α β ε
  now : Nat
  log : List (Entry (Event α β))

variable {α β ε : Type}

/-- The starts and ends of steps so far. -/
def Progress.steps (progress : Progress α β ε) : List (CallEvent α) :=
  (Entry.calls progress.log).filterMap Event.step?

/-- The moves that are possible, and what they lead to. -/
inductive Progress.Step (sequence : List α) : Progress α β ε → Move α β ε → Progress α β ε → Prop
  | begin {index element accumulator now log} (inside : sequence[index]? = some element)
      (wait : Nat) :
      Step sequence ⟨.ready index accumulator, now, log⟩ (.begin element wait)
        ⟨.stepping index element (now + wait), now,
          log ++ [.notice (.foldStep index), .call (.step (.started element now))]⟩
  | pass {index element deadline now log} (time : Nat) (later : now < time)
      (inTime : time ≤ deadline) :
      Step sequence ⟨.stepping index element deadline, now, log⟩ (.pass time)
        ⟨.stepping index element deadline, time, log⟩
  | finish {index element now log} (outcome : Recorded ε Notice β) :
      Step sequence ⟨.stepping index element now, now, log⟩ (.finish outcome)
        ⟨.afterStep index outcome.result, now,
          log ++ .call (.step (.ended element now)) :: outcome.log.map .notice⟩
  | goOn {index accumulator now log} :
      Step sequence ⟨.asking index accumulator, now, log⟩ (.answer true)
        ⟨.moving index accumulator, now, log ++ [.call (.checked index accumulator true)]⟩
  | stop {index accumulator now log} :
      Step sequence ⟨.asking index accumulator, now, log⟩ (.answer false)
        ⟨.finished (.ok accumulator), now, log ++ [.call (.checked index accumulator false)]⟩
  | goTo {index accumulator now log} (next : Nat) :
      Step sequence ⟨.moving index accumulator, now, log⟩ (.goTo next)
        ⟨.ready next accumulator, now, log ++ [.call (.moved index next)]⟩
  | leave {index accumulator now log} (outside : sequence[index]? = none) :
      Step sequence ⟨.ready index accumulator, now, log⟩ .leave
        ⟨.finished (.ok accumulator), now, log⟩

/-- `Course sequence start initial moves progress`: the moves lead a fold from its beginning to
`progress`. -/
inductive Course (sequence : List α) (start : Nat) (initial : β) :
    List (Move α β ε) → Progress α β ε → Prop
  | nil : Course sequence start initial [] ⟨.ready start initial, 0, []⟩
  | snoc {moves move progress next} (before : Course sequence start initial moves progress)
      (step : progress.Step sequence move next) :
      Course sequence start initial (moves ++ [move]) next

end Fold

end Waypoint
