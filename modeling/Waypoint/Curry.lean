import Waypoint.Strategy.Answer

/-!
# Currying

A function of several arguments taken one at a time. Every application but the last only binds its
argument, and what it gives can be applied again and again.
-/

namespace Waypoint

/-- A function that waits for its next argument. -/
inductive Curried (α β : Type) where
  | last (call : α → β)
  | more (bind : α → Curried α β)

namespace Curried

variable {α β : Type}

/-- The curried form of a function with `missing + 1` arguments left, the others being bound. -/
def ofFunction (f : List α → β) : (missing : Nat) → (bound : List α) → Curried α β
  | 0, bound => last fun argument => f (bound ++ [argument])
  | missing + 1, bound => more fun argument => ofFunction f missing (bound ++ [argument])

variable {R : Type} [Answer R]

/-- Applies a curried function to every choice of one argument per level, an application at a level
being used for all choices below it. The results are nested as the levels are. -/
def spread : Curried Doc R → List (List Doc) → R
  | last call, level :: _ =>
    Answer.gather (level.map call) fun results => Answer.value (.arr results)
  | more bind, level :: rest =>
    Answer.gather (level.map fun argument => (bind argument).spread rest)
      fun results => Answer.value (.arr results)
  | _, [] => Answer.value .null

end Curried

/-- The functions that can be curried, of any number of arguments. -/
inductive ManyFunction where
  | list
  | sum
  /-- The first integer less all others. -/
  | sub
  /-- Their texts with hyphens between them. -/
  | join
  deriving DecidableEq, Inhabited, Repr

namespace ManyFunction

/-- The integers of documents put together from the left. -/
def foldInts (f : Int → Int → Int) : List Doc → Doc
  | [] => .int 0
  | first :: rest => .int (rest.foldl (fun total doc => Doc.wrap (f total doc.toInt)) first.toInt)

def apply : ManyFunction → List Doc → Doc
  | list, arguments => .arr arguments
  | sum, arguments => foldInts (· + ·) arguments
  | sub, arguments => foldInts (· - ·) arguments
  | join, arguments => .str ("-".intercalate (arguments.map Doc.toText))

/-- The result of a function, with its arguments on record. -/
def call (function : ManyFunction) (arguments : List Doc) : Trace (List Doc) Doc :=
  (Recorded.record arguments).andThen fun _ => pure (function.apply arguments)

/-- Curries a function over the levels of arguments and applies it to all choices. -/
def spread (function : ManyFunction) (levels : List (List Doc)) : Trace (List Doc) Doc :=
  (Curried.ofFunction function.call (levels.length - 1) []).spread levels

end ManyFunction

end Waypoint
