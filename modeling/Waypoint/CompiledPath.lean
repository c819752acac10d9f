import Waypoint.Future.Run
import Waypoint.Transform

/-!
# Compiled paths

A path together with its two strategies, applied to roots with or without waiting.
-/

namespace Waypoint

/-- A path compiled against two strategies. -/
structure CompiledPath where
  path : Path
  strategies : Strategies
  deriving DecidableEq, Inhabited, Repr

/-- The transform at the leaves of an access that waits: a callback with the leaf as its label. -/
def deferredLeaf (transform : Doc → Trace Notice Doc) (doc : Doc) : Future Doc :=
  .callback doc (transform doc)

namespace CompiledPath

/-- The notice given when the path is compiled. -/
def notice (compiled : CompiledPath) : Notice :=
  .compiled compiled.path

/-- Applies the path to a root without waiting. -/
def access (compiled : CompiledPath) (transform : Doc → Trace Notice Doc) (root : Doc) :
    PathTrace :=
  compiled.path.accessor compiled.strategies.wrapping (recordedLeaf transform) root

/-- Applies the path to a root without waiting, with every strategy call on record. -/
def accessRecorded (compiled : CompiledPath) (transform : Doc → Trace Notice Doc) (root : Doc) :
    PathTrace :=
  compiled.path.accessor compiled.strategies.wrapping.recorded (recordedLeaf transform) root

/-- Applies the path to a root as a future. -/
def accessLater (compiled : CompiledPath) (transform : Doc → Trace Notice Doc) (root : Doc) :
    Future Doc :=
  compiled.path.accessor compiled.strategies.wrapping (deferredLeaf transform) root

end CompiledPath

/-! ## Single stages -/

/-- A strategy of either kind. -/
inductive StageStrategy where
  | object (strategy : ObjectStrategy)
  | array (strategy : ArrayStrategy)
  deriving DecidableEq, Inhabited, Repr

def StageStrategy.apply {R : Type} [Answer R] :
    StageStrategy → String → (Doc → R) → Doc → R
  | object strategy => strategy.focus
  | array strategy => strategy.lift

end Waypoint
