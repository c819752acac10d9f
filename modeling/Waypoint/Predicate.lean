import Waypoint.Error

/-!
# Predicates

Tests on documents as data, so that a test can be read, stored and combined. A test may itself fail.
-/

namespace Waypoint

/-- A test on a document. -/
inductive Predicate where
  | always
  | never
  | even
  | negative
  | greater (bound : Int)
  | less (bound : Int)
  /-- A document of a kind. -/
  | hasKind (kind : Kind)
  /-- Equality with `value`, the order of keys aside. -/
  | equals (value : Doc)
  | negation (test : Predicate)
  /-- Fails with `reason` where `test` holds, and is `otherwise` elsewhere. -/
  | errorIf (test : Predicate) (reason : String) (otherwise : Predicate)
  deriving Inhabited

namespace Predicate

def eval : Predicate → Doc → Except PathError Bool
  | always, _ => .ok true
  | never, _ => .ok false
  | even, doc => .ok (doc.int?.any (· % 2 = 0))
  | negative, doc => .ok (doc.int?.any (· < 0))
  | greater bound, doc => .ok (doc.int?.any (bound < ·))
  | less bound, doc => .ok (doc.int?.any (· < bound))
  | hasKind kind, doc => .ok (doc.kind = kind)
  | equals value, doc => .ok (doc.agrees value)
  | negation test, doc => (test.eval doc).map (!·)
  | errorIf test reason otherwise, doc =>
    match test.eval doc with
    | .error error => .error error
    | .ok true => .error (.transform reason)
    | .ok false => otherwise.eval doc

/-- Whether a test holds, where one that fails does not. -/
def holds (test : Predicate) (doc : Doc) : Bool :=
  match test.eval doc with
  | .ok answer => answer
  | .error _ => false

end Predicate

end Waypoint
