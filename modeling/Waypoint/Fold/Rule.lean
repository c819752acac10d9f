import Waypoint.Fold.Basic
import Waypoint.Transform

/-!
# Rules for folds over documents

The decisions of a fold as data: when to go on, where the index goes and what a step does. Indices
are unsigned 64-bit numbers, and arithmetic on them wraps around.
-/

namespace Waypoint

/-- When a fold goes on. -/
inductive GoingOn where
  | always
  | never
  | indexBelow (bound : Nat)
  | indexAbove (bound : Nat)
  /-- The index moved by `offset` is below the length of the sequence. -/
  | offsetInside (offset : Nat)
  /-- It was asked fewer than `bound` times, this time included. -/
  | asksBelow (bound : Nat)
  /-- The accumulator passes a predicate. -/
  | accumulator (test : Predicate)
  | all (rules : List GoingOn)
  deriving Inhabited

/-- Where the index of a fold goes. -/
inductive IndexMove where
  | add (amount : Nat)
  | sub (amount : Nat)
  | mul (factor : Nat)
  | set (index : Nat)
  /-- The index listed for an index; past the end of the list, the largest number. -/
  | table (targets : List Nat)
  deriving Inhabited

/-- What a step of a fold does. -/
inductive StepRule where
  | sum
  /-- Joins the texts of the accumulator and the element. -/
  | concat
  | count
  | last
  /-- Puts the element at the end of the accumulator. -/
  | push
  /-- Puts the transformed element at the end of the accumulator. -/
  | pushMap (transform : Transform)
  deriving Inhabited

namespace GoingOn

mutual

/-- The answer of a rule for a sequence of some length. -/
def holds (length asked index : Nat) (accumulated : Doc) : GoingOn → Bool
  | always => true
  | never => false
  | indexBelow bound => index < bound
  | indexAbove bound => bound < index
  | offsetInside offset => (index + offset) % UInt64.size < length
  | asksBelow bound => asked + 1 < bound
  | accumulator test => test.holds accumulated
  | all rules => allHold length asked index accumulated rules

/-- Whether all rules hold. -/
def allHold (length asked index : Nat) (accumulated : Doc) : List GoingOn → Bool
  | [] => true
  | rule :: rest =>
    rule.holds length asked index accumulated && allHold length asked index accumulated rest

end

end GoingOn

def IndexMove.next : IndexMove → Nat → Nat
  | add amount, index => (index + amount) % UInt64.size
  | sub amount, index => (index + (UInt64.size - amount % UInt64.size)) % UInt64.size
  | mul factor, index => index * factor % UInt64.size
  | set target, _ => target
  | table targets, index => targets[index]?.getD (UInt64.size - 1)

namespace StepRule

/-- Puts a document at the end of an array; anything else gives way to an array of it. -/
def append (accumulated item : Doc) : Doc :=
  match accumulated with
  | .arr items => .arr (items ++ [item])
  | _ => .arr [item]

def apply : StepRule → Doc → Doc → Trace Notice Doc
  | sum, accumulated, element => pure (.int (Doc.wrap (accumulated.toInt + element.toInt)))
  | concat, accumulated, element => pure (.str (accumulated.toText ++ element.toText))
  | count, accumulated, _ => pure (.int (Doc.wrap (accumulated.toInt + 1)))
  | last, _, element => pure element
  | push, accumulated, element => pure (append accumulated element)
  | pushMap transform, accumulated, element =>
    (transform.run element).andThen fun result => pure (append accumulated result)

end StepRule

/-- The number of rounds given to a fold of rules, which may well ask for endless ones. -/
def Fold.patience : Nat :=
  1024 * 1024

/-- The fold of three rules over a sequence of some length. -/
def Fold.ofRules (length : Nat) (goingOn : GoingOn) (move : IndexMove) (step : StepRule) :
    Fold Doc Doc where
  goesOn asked index accumulated := goingOn.holds length asked index accumulated
  next := move.next
  step := step.apply

end Waypoint
