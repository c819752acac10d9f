import Waypoint.Doc.Equality
import Waypoint.Path.Stage
import Waypoint.Strategy.Basic

/-!
# Accessors

A path compiled against two strategies gives an accessor: a function from the root to an answer,
with a transform at the leaves. It is built position by position, the last one first: the stage at a
position wraps those after it. This only needs to know how a stage wraps, so it is stated for any
pair of wrappers.
-/

namespace Waypoint

/-- How each kind of stage wraps the rest of the chain. -/
structure Wrapping (A : Type) where
  focus : String → A → A
  lift : String → A → A

/-- A stage around the rest of the chain. -/
def Stage.wrap {A : Type} (wrapping : Wrapping A) : Stage → A → A
  | .focus key => wrapping.focus key
  | .lift key => wrapping.lift key

namespace Path

variable {A : Type}

/-- The stage at a position around the rest of the chain. -/
def runStage (wrapping : Wrapping A) (path : Path) (position : Fin path.stages.length) (next : A) :
    A :=
  path.stages[position].wrap wrapping next

/-- The accessor of a path: from the last position to the first one, the stage there is put around
what is around the leaf already. -/
def accessor (wrapping : Wrapping A) (path : Path) (leaf : A) : A :=
  (List.finRange path.stages.length).reverse.foldl
    (fun next position => path.runStage wrapping position next) leaf

theorem map_getElem_stages (path : Path) :
    (List.finRange path.stages.length).map (path.stages[·]) = path.stages :=
  List.ext_getElem (by simp) (by simp)

/-- Position by position the stages themselves are put around the leaf. -/
theorem accessor_eq_foldr (wrapping : Wrapping A) (path : Path) (leaf : A) :
    path.accessor wrapping leaf = path.stages.foldr (Stage.wrap wrapping) leaf := by
  calc path.accessor wrapping leaf
    _ = (List.finRange path.stages.length).foldr (path.runStage wrapping) leaf :=
      List.foldl_reverse
    _ = ((List.finRange path.stages.length).map (path.stages[·])).foldr (Stage.wrap wrapping)
        leaf := by
      rw [List.foldr_map]
      rfl
    _ = path.stages.foldr (Stage.wrap wrapping) leaf := by rw [map_getElem_stages]

@[simp] theorem accessor_empty (wrapping : Wrapping A) (leaf : A) :
    Path.accessor wrapping ⟨[]⟩ leaf = leaf := rfl

end Path

/-- The two strategies of an accessor. -/
structure Strategies where
  object : ObjectStrategy
  array : ArrayStrategy
  deriving DecidableEq, Inhabited, Repr

namespace Strategies

/-- Reads the leaves. -/
def read : Strategies :=
  ⟨.read, .each⟩

/-- Rebuilds the root with the leaves transformed. -/
def update : Strategies :=
  ⟨.update, .each⟩

def wrapping {R : Type} [Answer R] (strategies : Strategies) : Wrapping (Doc → R) :=
  ⟨strategies.object.focus, strategies.array.lift⟩

end Strategies

/-! ## Recorded accessors -/

/-- What an accessor that does not wait is seen to do. -/
inductive PathCall where
  | leaf (value : Doc)
  | enter (stage : Stage)
  /-- The strategy of a stage returns, with a value or a failure. -/
  | leave (stage : Stage) (ok : Bool)
  deriving DecidableEq, Inhabited

/-- The record of a path access: calls with notices among them. -/
abbrev PathTrace : Type :=
  Trace (Entry PathCall) Doc

/-- The transform at the leaves, recorded. -/
def recordedLeaf (transform : Doc → Trace Notice Doc) (doc : Doc) : PathTrace :=
  (Recorded.record (.call (.leaf doc))).andThen fun _ => (transform doc).mapLog .notice

/-- The return of a stage is recorded also when it fails. -/
def PathTrace.bracket (stage : Stage) (inner : PathTrace) : PathTrace :=
  ⟨.call (.enter stage) :: (inner.log ++ [.call (.leave stage inner.ok)]), inner.result⟩

/-- Stages as `wrapping` carries them out, every call and return recorded. -/
def Wrapping.recorded (wrapping : Wrapping (Doc → PathTrace)) : Wrapping (Doc → PathTrace) where
  focus key next doc := PathTrace.bracket (.focus key) (wrapping.focus key next doc)
  lift key next doc := PathTrace.bracket (.lift key) (wrapping.lift key next doc)

end Waypoint
