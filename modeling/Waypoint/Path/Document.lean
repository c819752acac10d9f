import Waypoint.Doc.Basic
import Waypoint.Path.Basic

/-!
# Paths as documents

A path is kept in a document as its text. Every string is a path; no other document is.
-/

namespace Waypoint

def Path.toDoc (path : Path) : Doc :=
  .str path.text

def Path.ofDoc? : Doc → Option Path
  | .str source => some (Path.parse source)
  | _ => none

end Waypoint
