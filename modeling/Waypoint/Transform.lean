import Waypoint.Path.Accessor
import Waypoint.Predicate

/-!
# Transforms

Functions on documents as data. A transform may fail, and one that goes through a path of its own
reports the compilation of that path.
-/

namespace Waypoint

/-- A function on documents. Arithmetic is on signed 64-bit numbers, and what is no such number
counts as 0. -/
inductive Transform where
  | identity
  | constant (value : Doc)
  | double
  | increment
  | negate
  | square
  | add (amount : Int)
  /-- A string with its ASCII letters in upper case. -/
  | upper
  /-- Characters of a string, items of an array, members of an object; 0 for the rest. -/
  | length
  | wrap
  | reverse
  | keys
  | get (key : String)
  | fail (reason : String)
  /-- Fails where the test holds. -/
  | failIf (test : Predicate) (reason : String)
  /-- Applies where the test holds. -/
  | when (test : Predicate) (inner : Transform)
  | path (object : ObjectStrategy) (path : Path) (inner : Transform)
  | seq (list : List Transform)
  deriving Inhabited

namespace Transform

/-- Arithmetic on the integer of a document. -/
def onInt (f : Int → Int) (doc : Doc) : Doc :=
  .int (Doc.wrap (f doc.toInt))

/-- A string with its ASCII letters in upper case; other documents stay. -/
def upperDoc : Doc → Doc
  | .str text => .str (text.map Char.toUpper)
  | other => other

/-- Number of characters, items or members. -/
def lengthDoc : Doc → Doc
  | .str text => .int text.length
  | .arr items => .int items.length
  | .obj members => .int members.length
  | _ => .int 0

/-- An array or a string backwards; other documents stay. -/
def reverseDoc : Doc → Doc
  | .arr items => .arr items.reverse
  | .str text => .str (String.ofList text.toList.reverse)
  | other => other

/-- The keys of an object in order; null for the rest. -/
def keysDoc : Doc → Doc
  | .obj members => .arr (members.map fun member => .str member.1)
  | _ => .null

/-- The member of an object; null for the rest. -/
def getDoc (key : String) : Doc → Doc
  | .obj members => Doc.member key members
  | _ => .null

mutual

def run : Transform → Doc → Trace Notice Doc
  | identity, doc => pure doc
  | constant value, _ => pure value
  | double, doc => pure (onInt (· * 2) doc)
  | increment, doc => pure (onInt (· + 1) doc)
  | negate, doc => pure (onInt (- ·) doc)
  | square, doc => pure (onInt (fun n => n * n) doc)
  | add amount, doc => pure (onInt (· + amount) doc)
  | upper, doc => pure (upperDoc doc)
  | length, doc => pure (lengthDoc doc)
  | wrap, doc => pure (.arr [doc])
  | reverse, doc => pure (reverseDoc doc)
  | keys, doc => pure (keysDoc doc)
  | get key, doc => pure (getDoc key doc)
  | fail reason, _ => Recorded.fail (.transform reason)
  | failIf test reason, doc =>
    (Trace.ofResult (test.eval doc)).andThen fun holds =>
      if holds then Recorded.fail (.transform reason) else pure doc
  | when test inner, doc =>
    (Trace.ofResult (test.eval doc)).andThen fun holds =>
      if holds then inner.run doc else pure doc
  | path object p inner, doc =>
    (Recorded.record (.compiled p)).andThen fun _ =>
      p.accessor (Strategies.wrapping ⟨object, .each⟩) inner.run doc
  | seq list, doc => runAll list doc

/-- Applies transforms one after another, up to the first failure. -/
def runAll : List Transform → Doc → Trace Notice Doc
  | [], doc => pure doc
  | first :: rest, doc => (first.run doc).andThen (runAll rest)

end

end Transform

/-- How a transform is handed to an accessor: as one that may fail, or as one that cannot, where
null takes the place of a failure. -/
inductive Totality where
  | fallible
  | total
  deriving DecidableEq, Inhabited, Repr

/-- A transform as an accessor is given it. -/
def Totality.adapt (totality : Totality) (transform : Doc → Trace Notice Doc) (doc : Doc) :
    Trace Notice Doc :=
  match totality with
  | .fallible => transform doc
  | .total => (transform doc).orNull

end Waypoint
