import Mathlib
import Waypoint.Proofs.Path.Walk

/-!
# Levels of arrays in the value of a read

A read that succeeds leaves the keys of its path behind and keeps the arrays, so its value has one
level of arrays for each array step. A location of the root leads to the same place in the value
once its keys are left out (`Strategies.read_at`). What is done with the leaves depends on nothing
else: a read with a transform is the transform on all elements at the innermost level of what the
read finds (`Strategies.read_eq_traverse`).
-/

namespace Waypoint

/-! ## Nested arrays -/

def Hop.isIndex : Hop → Bool
  | .key _ => false
  | .index _ => true

/-- A location without its keys. -/
def Location.indices (location : Location) : Location :=
  location.filter Hop.isIndex

/-- Calls a function on the elements at a depth of nested arrays, from left to right and up to the
first failure, and puts the results in their places. -/
def Doc.traverse {κ : Type} (f : Doc → Trace κ Doc) : Nat → Doc → Trace κ Doc
  | 0, doc => f doc
  | depth + 1, .arr items =>
    (Recorded.sequence (items.map (traverse f depth))).andThen fun results => pure (.arr results)
  | _ + 1, doc => pure doc

/-- Each array step of a path is a lift. -/
theorem Path.lifts_stages (path : Path) : lifts path.stages = path.arrayDepth := by
  obtain ⟨segments⟩ := path
  show lifts (segments.flatMap Segment.stages) = segments.countP (·.isArray)
  induction segments with
  | nil => rfl
  | cons segment rest ih =>
      obtain ⟨key, isArray⟩ := segment
      rw [List.flatMap_cons, lifts, List.countP_append, List.countP_cons]
      cases isArray with
      | false => exact (Nat.zero_add _).trans ih
      | true => exact (Nat.add_comm _ _).trans (congrArg (· + 1) ih)

/-- A way along stages goes into an array for each lift. -/
theorem length_indices {stages : List Stage} {location : Location}
    (hops : List.Forall₂ Stage.Makes stages location) :
    location.indices.length = lifts stages := by
  induction hops with
  | nil => rfl
  | cons makes _ ih =>
      cases makes with
      | focus key => exact ih
      | lift key index =>
          rw [lifts_lift, ← ih]
          rfl

namespace Strategies

/-! ## The value of a read -/

/-- What a read has made of a position stands where the location leads without its keys. -/
theorem read_at {stages rest : List Stage} {root doc a : Doc} {location : Location}
    (reaches : ReachesAt stages root location rest doc) (ok : found stages root = .ok a) :
    ∃ inner, a.at? location.indices = some inner ∧ found rest doc = .ok inner := by
  induction reaches generalizing a with
  | here stages doc => exact ⟨a, rfl, ok⟩
  | focus _ ih =>
      obtain ⟨_, shape, inside⟩ := read_focus_eq_ok.mp ok
      obtain rfl := Doc.obj.inj shape
      exact ih inside
  | lift element _ ih =>
      obtain ⟨_, values, shape, inside, rfl⟩ := (lift_eq_ok rfl).mp ok
      obtain rfl := Doc.arr.inj shape
      obtain ⟨value, there, ok⟩ := exists_getElem?_of_forall₂ inside element
      obtain ⟨inner, below, done⟩ := ih ok
      refine ⟨inner, ?_, done⟩
      show (Doc.arr values).at? (.index _ :: Location.indices _) = some inner
      rw [Doc.at?_index, there]
      exact below

/-- A read with a function at the leaves is the function on what the read finds there. -/
theorem read_eq_traverse {stages : List Stage} {doc a : Doc} (ok : found stages doc = .ok a)
    (leafOf : Doc → PathTrace) :
    read.chain stages leafOf doc = a.traverse leafOf (lifts stages) := by
  induction stages generalizing doc a with
  | nil =>
      obtain rfl := Except.ok.inj ok
      rfl
  | cons stage rest ih =>
      cases stage with
      | focus key =>
          obtain ⟨members, rfl, inside⟩ := read_focus_eq_ok.mp ok
          exact ih inside
      | lift key =>
          obtain ⟨items, values, rfl, inside, rfl⟩ := (lift_eq_ok rfl).mp ok
          have elements : items.map (read.chain rest leafOf) =
              values.map (Doc.traverse leafOf (lifts rest)) := by
            rw [← List.forall₂_eq_eq_eq, List.forall₂_map_left_iff, List.forall₂_map_right_iff]
            exact inside.imp fun _ _ => ih
          show (Recorded.sequence (items.map (read.chain rest leafOf))).andThen _ = _
          rw [elements, lifts_lift]
          rfl

end Strategies

/-! ## Findings of a read that succeeds -/

section Identity

variable {findings : List Finding} {leaves : List Doc}

/-- Where nothing fails there are leaves only. -/
theorem eq_map_leaf (ok : (Recorded.sequence (findings.map
      (Finding.visit (recordedLeaf Transform.identity.run)))).result = .ok leaves) :
    findings = leaves.map .leaf := by
  rw [Recorded.result_sequence, allValues_eq_ok, List.forall₂_map_left_iff,
    List.forall₂_map_left_iff] at ok
  rw [← List.forall₂_eq_eq_eq, List.forall₂_map_right_iff]
  refine ok.imp fun finding value same => ?_
  cases finding with
  | leaf doc => exact congrArg Finding.leaf (Except.ok.inj same)
  | mismatch error => cases same

/-- The identity is called on the leaves one after another, and leaves them as they are. -/
theorem sequence_identity (leaves : List Doc) :
    Recorded.sequence (leaves.map (recordedLeaf Transform.identity.run)) =
      ⟨leaves.map fun leaf => .call (.leaf leaf), .ok leaves⟩ := by
  rw [Recorded.sequence_map_of_ok id fun _ => rfl, List.map_id]
  exact congrArg (Recorded.mk · _) List.map_eq_flatMap.symm

end Identity

/-- Where a read with the identity succeeds, a walk finds leaves only, and these are the elements of
its value at the depth of the path. -/
theorem CompiledPath.visits_of_read {path : Path} {root a : Doc}
    (ok : (access ⟨path, .read⟩ Transform.identity.run root).result = .ok a) :
    ∃ leaves, a.atDepth path.arrayDepth = some leaves ∧
      ∀ transform, (path.walk root).map (fun found => found.2.visit (recordedLeaf transform)) =
        leaves.map (recordedLeaf transform) := by
  have split (transform : Doc → Trace Notice Doc) :
      (path.walk root).map (fun found => found.2.visit (recordedLeaf transform)) =
        ((path.walk root).map Prod.snd).map (Finding.visit (recordedLeaf transform)) := by
    rw [List.map_map]
    rfl
  rw [access_eq_chain] at ok
  have along := Strategies.read_alike_walk path.stages (recordedLeaf Transform.identity.run) root
  obtain ⟨leaves, values, nested⟩ := along.exists_value ok
  rw [path.lifts_stages] at nested
  refine ⟨leaves, nested, fun transform => ?_⟩
  have only : (path.walk root).map Prod.snd = leaves.map .leaf := by
    apply eq_map_leaf
    rw [← split]
    exact values
  rw [split, only, List.map_map]
  rfl

/-- A read keeps the arrays of the root and nothing else of it. Where the read with the identity
succeeds, its value has as many levels of arrays as the path has array steps, with the leaves at the
innermost one in the order in which the transform is called on them; each array that the path goes
into has its counterpart of the same length there, and each leaf its place. The read with any
transform is the transform on the elements at that level of the value, from left to right and up to
the first failure. -/
theorem reads_have_the_shape_of_the_root (path : Path) (root a : Doc)
    (ok : (CompiledPath.access ⟨path, .read⟩ Transform.identity.run root).result = .ok a) :
    let read := CompiledPath.access ⟨path, .read⟩
    let calls := (read Transform.identity.run root).log.filterMap PathCall.leaf?
    a.atDepth path.arrayDepth = some calls ∧
      (∀ location key rest items,
        ReachesAt path.stages root location (.lift key :: rest) (.arr items) →
          ∃ results, a.at? location.indices = some (.arr results) ∧
            results.length = items.length) ∧
      (∀ location leaf, ReachesAt path.stages root location [] leaf →
        location.indices.length = path.arrayDepth ∧ a.at? location.indices = some leaf) ∧
      ∀ transform,
        read transform root = a.traverse (recordedLeaf transform) path.arrayDepth ∧
          Recorded.Alike (fun b results => b.atDepth path.arrayDepth = some results)
            (read transform root) (Recorded.sequence (calls.map (recordedLeaf transform))) := by
  intro read calls
  have found : Strategies.found path.stages root = .ok a := by
    rw [CompiledPath.result_access] at ok
    exact ok
  obtain ⟨leaves, nested, visits⟩ := CompiledPath.visits_of_read ok
  have along (transform : Doc → Trace Notice Doc) :
      Recorded.Alike (fun b results => b.atDepth path.arrayDepth = some results)
        (read transform root) (Recorded.sequence (leaves.map (recordedLeaf transform))) := by
    rw [← visits, ← path.lifts_stages]
    simp only [read, CompiledPath.access_eq_chain]
    exact Strategies.read_alike_walk path.stages (recordedLeaf transform) root
  have same : calls = leaves := by
    show (read Transform.identity.run root).log.filterMap PathCall.leaf? = leaves
    rw [(along Transform.identity.run).log_eq, sequence_identity, List.filterMap_map]
    exact List.filterMap_some
  rw [same]
  refine ⟨nested, ?_, ?_, ?_⟩
  · intro location key rest items reaches
    obtain ⟨inner, there, inside⟩ := Strategies.read_at reaches found
    obtain ⟨_, results, shape, each, rfl⟩ := (Strategies.lift_eq_ok rfl).mp inside
    obtain rfl := Doc.arr.inj shape
    exact ⟨results, there, each.length_eq.symm⟩
  · intro location leaf reaches
    obtain ⟨inner, there, inside⟩ := Strategies.read_at reaches found
    obtain rfl := Except.ok.inj inside
    obtain ⟨taken, all, hops⟩ := reaches.hops
    rw [List.append_nil] at all
    refine ⟨?_, there⟩
    rw [length_indices hops, ← all, path.lifts_stages]
  · intro transform
    refine ⟨?_, along transform⟩
    rw [← path.lifts_stages]
    simp only [read, CompiledPath.access_eq_chain]
    exact Strategies.read_eq_traverse found (recordedLeaf transform)

/-- Leaves may be arrays themselves, one row has no cells, and the transform refuses the last
leaf. -/
theorem read_of_rows_has_their_shape :
    let path := Path.parse "rows[].cells[].n"
    let cell (n : Doc) := Doc.obj [("n", n)]
    let row (cells : List Doc) := Doc.obj [("cells", .arr cells)]
    let root := Doc.obj [("rows", .arr [row [cell (.int 1), cell (.arr [.int 2])], row [],
      row [.obj []]])]
    let a := Doc.arr [.arr [.int 1, .arr [.int 2]], .arr [], .arr [.null]]
    let read := CompiledPath.access ⟨path, .read⟩
    let transform := (Transform.failIf (.hasKind .null) "nothing").run
    (read Transform.identity.run root).result = .ok a ∧ path.arrayDepth = 2 ∧
      a.atDepth 2 = some [.int 1, .arr [.int 2], .null] ∧
      read transform root = a.traverse (recordedLeaf transform) 2 ∧
      (read transform root).result = .error (.transform "nothing") := by
  intro path cell row root a read transform
  have ok : (read Transform.identity.run root).result = .ok a := by decide +kernel
  have depth : path.arrayDepth = 2 := by decide +kernel
  obtain ⟨levels, -, -, natural⟩ := reads_have_the_shape_of_the_root path root a ok
  rw [depth] at levels natural
  refine ⟨ok, depth, levels.trans ?_, (natural transform).1, ?_⟩
  · decide +kernel
  · decide +kernel

end Waypoint
