/-!
# Paths

A path is written as keys separated by dots; a key followed by `[]` marks an array step, where the
rest of the path applies to every element. `Path.parse` reads a path from any text, `Path.text`
writes it again, and `Path.parse` never fails: empty pieces are steps with an empty key.
-/

namespace Waypoint

/-- One step of a path: the key to look up, and whether the value found there is traversed element
by element. -/
structure Segment where
  key : String
  isArray : Bool
  deriving DecidableEq, Inhabited, Repr

namespace Segment

def field (key : String) : Segment :=
  ⟨key, false⟩

/-- A step to every element of the array under a key. -/
def array (key : String) : Segment :=
  ⟨key, true⟩

/-- What stands before a final `[]`, if the text ends in one. -/
def beforeMarker : List Char → Option (List Char)
  | [] => none
  | c :: cs =>
    if c :: cs = ['[', ']'] then some [] else (beforeMarker cs).map (c :: ·)

/-- Reads one step. Only the last marker is taken off, so `grid[][]` steps into the array under
the key `grid[]`. -/
def ofChars (cs : List Char) : Segment :=
  match beforeMarker cs with
  | some key => array (String.ofList key)
  | none => field (String.ofList cs)

def parse (raw : String) : Segment :=
  ofChars raw.toList

def text (segment : Segment) : String :=
  if segment.isArray then segment.key ++ "[]" else segment.key

end Segment

/-- A sequence of steps, root first. Parsed paths have at least one step; a path put together from
steps may have none. -/
structure Path where
  segments : List Segment
  deriving DecidableEq, Inhabited, Repr

namespace Path

/-- The pieces between the dots. There is always one more piece than there are dots. -/
def pieces : List Char → List (List Char)
  | [] => [[]]
  | c :: cs =>
    if c = '.' then [] :: pieces cs
    else
      match pieces cs with
      | [] => [[c]]
      | piece :: rest => (c :: piece) :: rest

/-- Reads a path: one step for every piece between the dots. -/
def parse (source : String) : Path :=
  ⟨(pieces source.toList).map Segment.ofChars⟩

def text (path : Path) : String :=
  ".".intercalate (path.segments.map Segment.text)

def length (path : Path) : Nat :=
  path.segments.length

def isEmpty (path : Path) : Bool :=
  path.segments.isEmpty

def arrayDepth (path : Path) : Nat :=
  path.segments.countP (·.isArray)

instance : Append Path where
  append p q := ⟨p.segments ++ q.segments⟩

/-- For every path of a list the position of the first path equal to it. -/
def firstEqual (paths : List Path) : List Nat :=
  paths.map fun path => paths.idxOf path

/-- How many different paths a list holds. -/
def distinctCount (paths : List Path) : Nat :=
  paths.eraseDups.length

end Path

end Waypoint
