import Waypoint.Path.Stage

/-!
# Summaries of compiled paths

A compiled path is shown as a record of its text and its number of stages, on one line or over
several. The text is quoted: quotes and backslashes are escaped, and so is every character without
a visible form.
-/

namespace Waypoint

/-- The two families of compiled paths, told apart by the name of the record. -/
inductive AccessKind where
  | immediate
  | deferred
  deriving DecidableEq, Inhabited, Repr

/-- The name of the record in a summary. -/
def AccessKind.recordName : AccessKind → String
  | .immediate => "PropPath"
  | .deferred => "AsyncPropPath"

/-- The characters that stand for `c` between quotes. The four control characters with a letter of
their own use it, the other control characters are written with their code in hexadecimal. The rule
is for the characters up to `0x7f`; those above stand for themselves. -/
def escapeChar (c : Char) : List Char :=
  if c = '"' then ['\\', '"']
  else if c = '\\' then ['\\', '\\']
  else if c = '\n' then ['\\', 'n']
  else if c = '\t' then ['\\', 't']
  else if c = '\r' then ['\\', 'r']
  else if c.toNat = 0 then ['\\', '0']
  else if c.toNat < 0x20 ∨ c.toNat = 0x7f then
    ['\\', 'u', '\x7b'] ++ Nat.toDigits 16 c.toNat ++ ['\x7d']
  else [c]

def quote (text : String) : String :=
  String.ofList ('"' :: (text.toList.flatMap escapeChar ++ ['"']))

/-- The summary of a compiled path on one line. -/
def Path.summary (path : Path) (kind : AccessKind) : String :=
  kind.recordName ++ " \x7b path: " ++ quote path.text ++ ", stages: " ++ toString path.stageCount
    ++ ", .. \x7d"

/-- The summary with a line for each field. -/
def Path.longSummary (path : Path) (kind : AccessKind) : String :=
  kind.recordName ++ " \x7b\n    path: " ++ quote path.text ++ ",\n    stages: "
    ++ toString path.stageCount ++ ",\n    ..\n\x7d"

end Waypoint
