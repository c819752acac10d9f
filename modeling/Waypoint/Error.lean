import Waypoint.Doc.Basic

/-!
# Failures

`PathError` says why a path could not be applied to a document, `LimitError` why a bounded run of
tasks was given up. The wording of each is in one place, its `message`.
-/

namespace Waypoint

/-- Why a path could not be applied. A missing key on the way reads as null, so it shows as
`notAnObject` at the next step. -/
inductive PathError where
  /-- A step to a member met something that is no object. -/
  | notAnObject (key : String) (found : Kind)
  /-- An array step met something that is no array. -/
  | notAnArray (key : String) (found : Kind)
  /-- The transform refused the value it was given. -/
  | transform (reason : String)
  deriving DecidableEq, Inhabited, Repr

namespace PathError

def key? : PathError → Option String
  | notAnObject key _ => some key
  | notAnArray key _ => some key
  | transform _ => none

def message : PathError → String
  | notAnObject key found => "segment `" ++ key ++ "` expected an object, found " ++ found.name
  | notAnArray key found => "segment `" ++ key ++ "[]` expected an array, found " ++ found.name
  | transform reason => "transform failed: " ++ reason

end PathError

/-- Why a bounded run of tasks was given up. -/
inductive LimitError (ε : Type) where
  | invalidLimit
  | task (index : Nat) (error : ε)
  /-- A task panicked. -/
  | join
  deriving DecidableEq, Inhabited, Repr

namespace LimitError

variable {ε : Type}

def index? : LimitError ε → Option Nat
  | task index _ => some index
  | _ => none

def taskError? : LimitError ε → Option ε
  | task _ error => some error
  | _ => none

/-- The text of the failure, given the text of a task's own failure. A panic has none. -/
def message? (describe : ε → String) : LimitError ε → Option String
  | invalidLimit => some "concurrency limit must be greater than 0"
  | task index error => some ("task " ++ toString index ++ " failed: " ++ describe error)
  | join => none

end LimitError

end Waypoint
