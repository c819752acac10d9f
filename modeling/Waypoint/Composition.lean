import Waypoint.Future.Basic
import Waypoint.Transform

/-!
# Compositions

A composition of functions applies the innermost function first and hands each result outwards. It
may be grouped in any way; `Grouped` holds functions in groups as they are written, and
`Composition` is the tree that a grouping comes to. What a function of a composition does is left
open up to an answer, so the same composition serves functions that wait and functions that do not.
-/

namespace Waypoint

/-- A grouping of functions, outermost first. -/
inductive Composition (F : Type) where
  | function (f : F)
  | compose (outer inner : Composition F)
  deriving Inhabited

namespace Composition

variable {F R : Type} [Answer R]

/-- The composition of a function with those inside it, grouped from the right. -/
def ofList : F → List F → Composition F
  | f, [] => function f
  | f, g :: rest => compose (function f) (ofList g rest)

def functions : Composition F → List F
  | function f => [f]
  | compose outer inner => outer.functions ++ inner.functions

/-- The composition of several compositions, outermost first: one alone stays as it is, two are put
together, and more are grouped from the right. -/
def ofParts : Composition F → List (Composition F) → Composition F
  | only, [] => only
  | outer, [inner] => compose outer inner
  | outer, inner :: rest => compose outer (ofParts inner rest)

theorem ofParts_cons (outer inner : Composition F) (rest : List (Composition F)) :
    ofParts outer (inner :: rest) = compose outer (ofParts inner rest) := by
  cases rest <;> rfl

theorem ofParts_functions (f : F) (rest : List F) :
    ofParts (function f) (rest.map function) = ofList f rest := by
  induction rest generalizing f with
  | nil => rfl
  | cons g rest ih => rw [List.map_cons, ofParts_cons, ih, ofList]

/-- Applies a composition, given how one of its functions is called. -/
def apply (call : F → Doc → R) : Composition F → Doc → R
  | function f, doc => call f doc
  | compose outer inner, doc => Answer.andThen (inner.apply call doc) (outer.apply call)

end Composition

/-! ## Groups -/

/-- Functions in groups within groups, outermost first. -/
inductive Grouped (F : Type) where
  | function (f : F)
  | group (outermost : Grouped F) (rest : List (Grouped F))
  deriving Inhabited

namespace Grouped

variable {F : Type}

mutual

/-- The functions of all groups in the order in which they are written. -/
def functions : Grouped F → List F
  | function f => [f]
  | group outermost rest => outermost.functions ++ allFunctions rest

def allFunctions : List (Grouped F) → List F
  | [] => []
  | first :: rest => first.functions ++ allFunctions rest

end

mutual

/-- Composes the functions, every group on its own. -/
def composition : Grouped F → Composition F
  | function f => .function f
  | group outermost rest => .ofParts outermost.composition (compositions rest)

def compositions : List (Grouped F) → List (Composition F)
  | [] => []
  | first :: rest => first.composition :: compositions rest

end

/-- All functions in one group. -/
def flat (f : F) (rest : List F) : Grouped F :=
  group (function f) (rest.map function)

theorem compositions_functions (list : List F) :
    compositions (list.map function) = list.map .function := by
  induction list with
  | nil => rfl
  | cons f rest ih => exact congrArg (.function f :: ·) ih

theorem composition_flat (f : F) (rest : List F) : (flat f rest).composition = .ofList f rest := by
  rw [flat, composition, compositions_functions]
  exact Composition.ofParts_functions f rest

end Grouped

/-- How the functions of a composition are put together. -/
inductive Grouping where
  /-- From the right, without inner groups. -/
  | flat
  /-- Of three functions, the first two on their own. -/
  | left
  /-- Of three functions, the last two on their own. -/
  | right
  /-- Of four functions, the first two and the last two on their own. -/
  | middle
  deriving DecidableEq, Inhabited, Repr

/-- The functions of a list in groups; the list must not be empty. A grouping that does not fit
their number counts as flat. -/
def Grouping.group? {F : Type} : Grouping → List F → Option (Grouped F)
  | left, [f, g, h] => some (.group (.group (.function f) [.function g]) [.function h])
  | right, [f, g, h] => some (.group (.function f) [.group (.function g) [.function h]])
  | middle, [f, g, h, i] =>
    some (.group (.group (.function f) [.function g]) [.group (.function h) [.function i]])
  | _, f :: rest => some (.flat f rest)
  | _, [] => none

/-- The composition of a list of functions, which must not be empty. -/
def Grouping.compose? {F : Type} (grouping : Grouping) (functions : List F) :
    Option (Composition F) :=
  (grouping.group? functions).map Grouped.composition

/-! ## Compositions of transforms -/

/-- A function of a composition: the bare identity, or a transform known by its position. -/
inductive ComposedFunction where
  | bareIdentity
  | transform (index : Nat) (transform : Transform)
  deriving Inhabited

/-- The call of a composed function: its position and its argument. -/
structure ComposedCall where
  index : Nat
  argument : Doc
  deriving DecidableEq, Inhabited

namespace ComposedFunction

/-- Calls a function without waiting; a failure becomes null. The bare identity leaves no trace. -/
def call : ComposedFunction → Doc → Trace (Entry ComposedCall) Doc
  | bareIdentity, doc => pure doc
  | transform index t, doc =>
    (Recorded.record (.call ⟨index, doc⟩)).andThen fun _ => (t.run doc).orNull.mapLog .notice

/-- Calls a function that may wait; a failure becomes null. -/
def callLater : ComposedFunction → Doc → Future ComposedCall
  | bareIdentity, doc => .done doc
  | transform index t, doc => .callback ⟨index, doc⟩ (t.run doc).orNull

end ComposedFunction

end Waypoint
