import Mathlib
import Waypoint.Proofs.Path.Leaves
import Waypoint.Proofs.Path.ReadAfterUpdate

/-!
# The walk along a path

A walk goes from the root along the stages of a path, into every element of an array, and comes to
an end at leaves and at documents that do not have the shape that the next stage asks for
(`Path.walk`). It finds them depth first and from left to right, and looks at no transform. An
access is what happens if the transform is called at one finding after another: it ends with the
first finding that fails, and the value of a read holds the results of the leaves in the order of
the walk (`Strategies.read_alike_walk`).
-/

namespace Waypoint

/-! ## Traces in a row -/

namespace Recorded

variable {ε κ α : Type}

def error? (trace : Recorded ε κ α) : Option ε :=
  match trace.result with
  | .ok _ => none
  | .error error => some error

theorem sequence_append (traces more : List (Recorded ε κ α)) :
    sequence (traces ++ more) = (sequence traces).andThen fun values =>
      (sequence more).andThen fun others => pure (values ++ others) := by
  induction traces with
  | nil => exact (andThen_pure _).symm
  | cons first rest ih =>
      simp only [List.cons_append, sequence, ih, andThen_assoc, pure_andThen]

/-- Traces may be taken group by group. -/
theorem sequence_flatten (groups : List (List (Recorded ε κ α))) :
    sequence groups.flatten =
      (sequence (groups.map sequence)).andThen fun values => pure values.flatten := by
  induction groups with
  | nil => rfl
  | cons group rest ih =>
      simp only [List.flatten_cons, List.map_cons, sequence, sequence_append, ih, andThen_assoc,
        pure_andThen]

/-- Of traces in a row the first failure counts. -/
theorem sequence_eq_error {traces : List (Recorded ε κ α)} {error : ε} :
    (sequence traces).result = .error error ↔ traces.findSome? error? = some error := by
  induction traces with
  | nil => simp [sequence]
  | cons first rest ih =>
      rw [sequence, List.findSome?_cons]
      cases ends : first.result with
      | error other => simp [andThen_of_error ends, error?, ends]
      | ok value =>
          rw [andThen_of_ok ends]
          cases later : (sequence rest).result with
          | error other =>
              rw [andThen_of_error later]
              simp [error?, ends, ← ih, later]
          | ok values =>
              rw [andThen_of_ok later]
              simp [error?, ends, ← ih, later]

/-- What is on record of traces in a row: nothing after the first one that fails. -/
theorem log_sequence (traces : List (Recorded ε κ α)) :
    (sequence traces).log =
      (traces.take (traces.findIdx (fun trace => trace.error?.isSome) + 1)).flatMap log := by
  induction traces with
  | nil => rfl
  | cons first rest ih =>
      rw [sequence, List.findIdx_cons]
      cases ends : first.result with
      | error error => simp [andThen_of_error ends, error?, ends]
      | ok value =>
          rw [andThen_of_ok ends]
          have same : ((sequence rest).andThen fun values =>
              (pure (value :: values) : Recorded ε κ (List α))).log = (sequence rest).log := by
            cases later : (sequence rest).result with
            | error error => rw [andThen_of_error later]
            | ok values => simp [andThen_of_ok later]
          simp [error?, ends, same, ih]

end Recorded

/-! ## Findings -/

/-- What a walk comes to where it does not go on. -/
inductive Finding where
  /-- No stage is left. -/
  | leaf (doc : Doc)
  /-- The document is not of the kind that the next stage asks for. -/
  | mismatch (error : PathError)
  deriving DecidableEq

namespace Finding

/-- What is found at a position, if the stages do not lead on from there. -/
def at? : List Stage → Doc → Option Finding
  | [], doc => some (leaf doc)
  | .focus _ :: _, .obj _ => none
  | .focus key :: _, doc => some (mismatch (.notAnObject key doc.kind))
  | .lift _ :: _, .arr _ => none
  | .lift key :: _, doc => some (mismatch (.notAnArray key doc.kind))

def leaf? : Finding → Option Doc
  | leaf doc => some doc
  | mismatch _ => none

/-- The failure that an access has at a finding. -/
def error? (transform : Doc → Trace Notice Doc) : Finding → Option PathError
  | leaf doc => (transform doc).error?
  | mismatch error => some error

/-- What an access does at a finding. -/
def visit (leafOf : Doc → PathTrace) : Finding → PathTrace
  | leaf doc => leafOf doc
  | mismatch error => Recorded.fail error

end Finding

/-- What lies below a hop, seen from above it. -/
def below {α : Type} (hop : Hop) (found : Location × α) : Location × α :=
  (hop :: found.1, found.2)

/-- What is found along the stages, and where: depth first, arrays from left to right. -/
def walk : List Stage → Doc → List (Location × Finding)
  | .focus key :: rest, .obj members =>
    (walk rest (Doc.member key members)).map (below (.key key))
  | .lift _ :: rest, .arr items =>
    (items.mapIdx fun index item => (walk rest item).map (below (.index index))).flatten
  | stages, doc => (Finding.at? stages doc).toList.map fun finding => ([], finding)

def Path.walk (path : Path) (root : Doc) : List (Location × Finding) :=
  Waypoint.walk path.stages root

section Below

variable {α : Type} {location : Location} {what : α}

theorem mem_map_below {hop : Hop} {found : List (Location × α)} :
    (location, what) ∈ found.map (below hop) ↔
      ∃ inner, location = hop :: inner ∧ (inner, what) ∈ found := by
  constructor
  · intro member
    obtain ⟨⟨inner, _⟩, inside, same⟩ := List.mem_map.mp member
    obtain ⟨rfl, rfl⟩ := Prod.mk.inj same
    exact ⟨inner, rfl, inside⟩
  · rintro ⟨inner, rfl, inside⟩
    exact List.mem_map_of_mem inside

/-- What lies below the elements of an array. -/
theorem mem_elements {f : Doc → List (Location × α)} {items : List Doc} :
    (location, what) ∈
        (items.mapIdx fun index item => (f item).map (below (.index index))).flatten ↔
      ∃ index item inner, items[index]? = some item ∧ location = .index index :: inner ∧
        (inner, what) ∈ f item := by
  constructor
  · intro member
    obtain ⟨_, element, among⟩ := List.mem_flatten.mp member
    obtain ⟨index, bound, rfl⟩ := List.mem_mapIdx.mp element
    obtain ⟨inner, rfl, inside⟩ := mem_map_below.mp among
    exact ⟨index, _, inner, List.getElem?_eq_getElem bound, rfl, inside⟩
  · rintro ⟨index, item, inner, element, rfl, inside⟩
    obtain ⟨bound, rfl⟩ := List.getElem?_eq_some_iff.mp element
    refine List.mem_flatten.mpr ⟨_, List.mem_mapIdx.mpr ⟨index, bound, rfl⟩, ?_⟩
    exact mem_map_below.mpr ⟨inner, rfl, inside⟩

end Below

/-- Where stages lead on from a document, it has the shape that the first of them asks for. -/
theorem Finding.exists_at? {stages : List Stage} {doc : Doc}
    (noObject : ∀ key rest members, stages = .focus key :: rest → doc = .obj members → False)
    (noArray : ∀ key rest items, stages = .lift key :: rest → doc = .arr items → False) :
    ∃ finding, at? stages doc = some finding := by
  cases stages with
  | nil => exact ⟨_, rfl⟩
  | cons stage rest =>
      cases stage with
      | focus key =>
          cases doc with
          | obj members => exact (noObject _ _ _ rfl rfl).elim
          | null | bool _ | int _ | float _ | str _ | arr _ => exact ⟨_, rfl⟩
      | lift key =>
          cases doc with
          | arr items => exact (noArray _ _ _ rfl rfl).elim
          | null | bool _ | int _ | float _ | str _ | obj _ => exact ⟨_, rfl⟩

theorem Finding.of_leaf {stages : List Stage} {doc found : Doc}
    (here : at? stages doc = some (leaf found)) : stages = [] ∧ found = doc := by
  cases stages with
  | nil => exact ⟨rfl, (leaf.inj (Option.some.inj here)).symm⟩
  | cons stage rest => cases stage <;> cases doc <;> cases here

/-- No stage leads on from a finding. -/
theorem ReachesAt.of_found {stages rest : List Stage} {doc other : Doc} {location : Location}
    {finding : Finding} (here : Finding.at? stages doc = some finding)
    (reaches : ReachesAt stages doc location rest other) :
    location = [] ∧ rest = stages ∧ other = doc := by
  cases reaches with
  | here => exact ⟨rfl, rfl, rfl⟩
  | focus _ => cases here
  | lift _ _ => cases here

/-- What a walk finds is what is at the positions of the path. -/
theorem mem_walk {stages : List Stage} {doc : Doc} {location : Location} {finding : Finding} :
    (location, finding) ∈ walk stages doc ↔ ∃ rest found,
      ReachesAt stages doc location rest found ∧ Finding.at? rest found = some finding := by
  fun_induction walk stages doc generalizing location with
  | case1 key rest members ih =>
      rw [mem_map_below]
      constructor
      · rintro ⟨inner, rfl, inside⟩
        obtain ⟨left, found, reaches, here⟩ := ih.mp inside
        exact ⟨left, found, .focus reaches, here⟩
      · rintro ⟨left, found, reaches, here⟩
        cases reaches with
        | here => cases here
        | focus inside => exact ⟨_, rfl, ih.mpr ⟨left, found, inside, here⟩⟩
  | case2 key rest items ih =>
      rw [mem_elements]
      constructor
      · rintro ⟨index, item, inner, element, rfl, inside⟩
        obtain ⟨left, found, reaches, here⟩ := (ih item).mp inside
        exact ⟨left, found, .lift element reaches, here⟩
      · rintro ⟨left, found, reaches, here⟩
        cases reaches with
        | here => cases here
        | lift element inside =>
            exact ⟨_, _, _, element, rfl, (ih _).mpr ⟨left, found, inside, here⟩⟩
  | case3 stages doc noObject noArray =>
      obtain ⟨only, here⟩ := Finding.exists_at? noObject noArray
      simp only [here, Option.toList_some, List.map_cons, List.map_nil, List.mem_singleton]
      constructor
      · intro same
        obtain ⟨rfl, rfl⟩ := Prod.mk.inj same
        exact ⟨stages, doc, .here stages doc, here⟩
      · rintro ⟨rest, found, reaches, last⟩
        obtain ⟨rfl, rfl, rfl⟩ := reaches.of_found here
        rw [Option.some.inj (here.symm.trans last)]

theorem DepthFirst.below {first second : Location} (ordered : DepthFirst first second) (hop : Hop) :
    DepthFirst (hop :: first) (hop :: second) := by
  obtain ⟨above, i, j, less, inner, inner', rfl, rfl⟩ := ordered
  exact ⟨hop :: above, i, j, less, inner, inner', rfl, rfl⟩

/-- A walk goes depth first and from left to right. -/
theorem walk_depthFirst (stages : List Stage) (doc : Doc) :
    (walk stages doc).Pairwise fun first second => DepthFirst first.1 second.1 := by
  fun_induction walk stages doc with
  | case1 key rest members ih =>
      exact List.pairwise_map.mpr (ih.imp fun ordered => ordered.below _)
  | case2 key rest items ih =>
      refine List.pairwise_flatten.mpr ⟨?_, List.pairwise_iff_getElem.mpr ?_⟩
      · intro group element
        obtain ⟨index, bound, rfl⟩ := List.mem_mapIdx.mp element
        exact List.pairwise_map.mpr ((ih _).imp fun ordered => ordered.below _)
      · intro i j bound bound' less first member second member'
        rw [List.getElem_mapIdx] at member member'
        obtain ⟨⟨inner, _⟩, -, rfl⟩ := List.mem_map.mp member
        obtain ⟨⟨inner', _⟩, -, rfl⟩ := List.mem_map.mp member'
        exact ⟨[], i, j, less, inner, inner', rfl, rfl⟩
  | case3 stages doc noObject noArray =>
      obtain ⟨only, here⟩ := Finding.exists_at? noObject noArray
      rw [here]
      exact List.pairwise_singleton _ _

/-! ## Values in the order of the walk -/

/-- The elements at a depth of nested arrays from left to right, if there are as many levels. -/
def Doc.atDepth : Nat → Doc → Option (List Doc)
  | 0, doc => some [doc]
  | depth + 1, .arr items => (items.mapM (atDepth depth)).map List.flatten
  | _ + 1, _ => none

/-- Each of some elements has a value. -/
theorem mapM_eq_some {α β : Type} {f : α → Option β} {items : List α} {values : List β} :
    items.mapM f = some values ↔
      List.Forall₂ (fun item value => f item = some value) items values := by
  induction items generalizing values with
  | nil => simp [eq_comm]
  | cons item rest ih =>
      simp [List.forall₂_cons_left_iff, Option.bind_eq_some_iff, ih, eq_comm (b := values)]

theorem Doc.atDepth_arr {depth : Nat} {items leaves : List Doc} :
    (Doc.arr items).atDepth (depth + 1) = some leaves ↔ ∃ groups,
      List.Forall₂ (fun item group => item.atDepth depth = some group) items groups ∧
        groups.flatten = leaves := by
  rw [atDepth, Option.map_eq_some_iff]
  exact exists_congr fun groups => and_congr_left' mapM_eq_some

def Stage.isLift : Stage → Bool
  | .focus _ => false
  | .lift _ => true

/-- How deep the arrays lie within each other that stages go into. -/
def lifts (stages : List Stage) : Nat :=
  stages.countP Stage.isLift

theorem lifts_lift (key : String) (rest : List Stage) :
    lifts (.lift key :: rest) = lifts rest + 1 :=
  List.countP_cons_of_pos rfl

namespace Strategies

/-- Where something is found an access does nothing else. -/
theorem read_of_found {stages : List Stage} {doc : Doc} {finding : Finding}
    (here : Finding.at? stages doc = some finding) (leafOf : Doc → PathTrace) :
    read.chain stages leafOf doc = finding.visit leafOf := by
  cases stages with
  | nil =>
      obtain rfl := Option.some.inj here
      rfl
  | cons stage rest =>
      cases stage <;> cases doc <;> cases here <;> rfl

/-- A read calls the transform at one finding after another. Its value has the results of the
leaves at the depth of the arrays that it went into. -/
theorem read_alike_walk (stages : List Stage) (leafOf : Doc → PathTrace) (doc : Doc) :
    Recorded.Alike (fun value results => value.atDepth (lifts stages) = some results)
      (read.chain stages leafOf doc)
      (Recorded.sequence ((walk stages doc).map fun found => found.2.visit leafOf)) := by
  fun_induction walk stages doc with
  | case1 key rest members ih =>
      rw [List.map_map]
      exact ih
  | case2 key rest items ih =>
      have groups : (items.mapIdx fun index item => (walk rest item).map (below (.index index))).map
          (List.map fun found => found.2.visit leafOf) =
            items.map fun item => (walk rest item).map fun found => found.2.visit leafOf := by
        refine List.ext_getElem? fun index => ?_
        rw [List.getElem?_map, List.getElem?_mapIdx, List.getElem?_map, Option.map_map]
        congr 1
        funext item
        exact List.map_map
      rw [List.map_flatten, groups, Recorded.sequence_flatten, List.map_map]
      have elements : List.Forall₂
          (Recorded.Alike fun value results => value.atDepth (lifts rest) = some results)
          (items.map (read.chain rest leafOf))
          (items.map fun item => Recorded.sequence
            ((walk rest item).map fun found => found.2.visit leafOf)) := by
        rw [List.forall₂_map_left_iff, List.forall₂_map_right_iff, List.forall₂_same]
        exact fun item _ => ih item
      refine (Recorded.Alike.sequence elements).andThen fun values results nested => .ok ?_
      rw [lifts_lift]
      exact Doc.atDepth_arr.mpr ⟨results, nested, rfl⟩
  | case3 stages doc noObject noArray =>
      obtain ⟨only, here⟩ := Finding.exists_at? noObject noArray
      rw [read_of_found here, here]
      cases only with
      | mismatch error => exact .error
      | leaf found =>
          obtain ⟨rfl, rfl⟩ := Finding.of_leaf here
          have same : Recorded.Alike (· = ·) (leafOf found) (leafOf found) := .refl (fun _ => rfl) _
          have alone : Recorded.Alike (fun value results => value.atDepth 0 = some results)
              ((leafOf found).andThen pure) ((leafOf found).andThen fun value => pure [value]) :=
            same.andThen fun value _ eq => eq ▸ .ok rfl
          rwa [Recorded.andThen_pure] at alone

end Strategies

/-! ## The first failure -/

namespace Finding

variable (transform : Doc → Trace Notice Doc)

theorem error?_visit (finding : Finding) :
    (finding.visit (recordedLeaf transform)).error? = finding.error? transform := by
  cases finding with
  | mismatch error => rfl
  | leaf doc =>
      rw [visit, recordedLeaf, Recorded.error?, Recorded.result_andThen]
      rfl

/-- The transform is called at a leaf and nowhere else. -/
theorem leaves_visit (finding : Finding) :
    (finding.visit (recordedLeaf transform)).log.filterMap PathCall.leaf? =
      finding.leaf?.toList := by
  cases finding with
  | mismatch error => rfl
  | leaf doc =>
      have notices (lines : List Notice) :
          (lines.map .notice : List (Entry PathCall)).filterMap PathCall.leaf? = [] := by
        simp [List.filterMap_eq_nil_iff, PathCall.leaf?]
      exact congrArg (doc :: ·) (notices (transform doc).log)

end Finding

/-- Along one location there is one way. -/
theorem ReachesAt.onwards {stages rest rest' : List Stage} {root doc doc' : Doc}
    {location more : Location} (reaches : ReachesAt stages root location rest doc)
    (further : ReachesAt stages root (location ++ more) rest' doc') :
    ReachesAt rest doc more rest' doc' := by
  induction reaches with
  | here stages doc => exact further
  | focus _ ih =>
      cases further with
      | focus inside => exact ih inside
  | lift element _ ih =>
      cases further with
      | lift element' inside =>
          obtain rfl := Option.some.inj (element.symm.trans element')
          exact ih inside

/-- Nothing is found below an array without elements. -/
theorem not_prefix_of_mem_walk {stages rest : List Stage} {root : Doc} {location : Location}
    {key : String} {found : Location × Finding}
    (empty : ReachesAt stages root location (.lift key :: rest) (.arr []))
    (member : found ∈ walk stages root) : ¬ location <+: found.1 := by
  rintro ⟨more, whole⟩
  obtain ⟨left, doc, reaches, here⟩ := mem_walk.mp (show (found.1, found.2) ∈ _ from member)
  rw [← whole] at reaches
  cases empty.onwards reaches with
  | here => cases here
  | lift element _ => cases element

/-- An access goes along the walk. -/
theorem CompiledPath.access_of_walk {compiled : CompiledPath} (plain : compiled.strategies.Plain)
    (transform : Doc → Trace Notice Doc) (root : Doc) :
    let visits := (compiled.path.walk root).map fun found => found.2.visit (recordedLeaf transform)
    (compiled.access transform root).log = (Recorded.sequence visits).log ∧
      ∀ error, (compiled.access transform root).result = .error error ↔
        (Recorded.sequence visits).result = .error error := by
  intro visits
  obtain ⟨path, strategies⟩ := compiled
  rw [CompiledPath.access_eq_chain]
  have along := Strategies.read_alike_walk path.stages (recordedLeaf transform) root
  have alike := Strategies.read_alike_update path.stages (recordedLeaf transform) root
  rcases plain with rfl | rfl
  · exact ⟨along.log_eq, along.error_iff⟩
  · exact ⟨alike.log_eq.symm.trans along.log_eq, fun error =>
      (alike.error_iff error).symm.trans (along.error_iff error)⟩

/-- The failure of an access is the first one in the document. What a walk finds is what is at the
positions of the path, depth first and from left to right, and nothing below an array without
elements. An access fails where something in the walk fails, with the failure of the first such
finding, and calls the transform on the leaves up to there, in the order of the walk. -/
theorem first_failure_in_document_order (compiled : CompiledPath)
    (plain : compiled.strategies.Plain) (transform : Doc → Trace Notice Doc) (root : Doc) :
    let access := compiled.access transform root
    let walk := compiled.path.walk root
    let failure (found : Location × Finding) := found.2.error? transform
    (∀ location finding, (location, finding) ∈ walk ↔ ∃ rest doc,
      ReachesAt compiled.path.stages root location rest doc ∧
        Finding.at? rest doc = some finding) ∧
    walk.Pairwise (fun first second => DepthFirst first.1 second.1) ∧
    (∀ location key rest,
      ReachesAt compiled.path.stages root location (.lift key :: rest) (.arr []) →
        ∀ found ∈ walk, ¬ location <+: found.1) ∧
    ((∃ error, access.result = .error error) ↔ ∃ found ∈ walk, failure found ≠ none) ∧
    (∀ error, access.result = .error error ↔ walk.findSome? failure = some error) ∧
    access.log.filterMap PathCall.leaf? =
      (walk.take (walk.findIdx (fun found => (failure found).isSome) + 1)).filterMap
        fun found => found.2.leaf? := by
  intro access walk failure
  obtain ⟨log, fails⟩ := compiled.access_of_walk plain transform root
  have first : ∀ error, access.result = .error error ↔ walk.findSome? failure = some error := by
    intro error
    rw [fails, Recorded.sequence_eq_error, List.findSome?_map]
    simp only [Function.comp_def, Finding.error?_visit]
    rfl
  refine ⟨fun _ _ => mem_walk, walk_depthFirst _ _, ?_, ?_, first, ?_⟩
  · intro location key rest empty found member
    exact not_prefix_of_mem_walk empty member
  · rw [exists_congr first, ← Option.isSome_iff_exists, List.findSome?_isSome_iff]
    simp only [Option.isSome_iff_ne_none]
  · rw [log, Recorded.log_sequence, List.findIdx_map, ← List.map_take, List.flatMap_map,
      List.filterMap_flatMap, List.filterMap_eq_flatMap_toList]
    simp only [Finding.leaves_visit, Function.comp_def, Finding.error?_visit]
    rfl

/-- The first row has no cells, the second one has a cell that the transform refuses, and in the
third one the cells are no array. -/
theorem failure_in_rows_is_the_first :
    let compiled : CompiledPath := ⟨Path.parse "rows[].cells[].n", .update⟩
    let transform := (Transform.failIf (.hasKind .string) "text").run
    let cell (n : Doc) := Doc.obj [("n", n)]
    let row (cells : Doc) := Doc.obj [("cells", cells)]
    let cells := [cell (.int 1), cell (.str "x"), cell (.int 2)]
    let root := Doc.obj [("rows", .arr [row (.arr []), row (.arr cells), row .null])]
    let access := compiled.access transform root
    let walk := compiled.path.walk root
    compiled.strategies.Plain ∧ access.result = .error (.transform "text") ∧
      walk.findSome? (fun found => found.2.error? transform) = some (.transform "text") ∧
      access.log.filterMap PathCall.leaf? = [.int 1, .str "x"] ∧
      walk.map Prod.snd = [.leaf (.int 1), .leaf (.str "x"), .leaf (.int 2),
        .mismatch (.notAnArray "cells" .null)] := by
  intro compiled transform cell row cells root access walk
  have plain : compiled.strategies.Plain := .inr rfl
  have fails : access.result = .error (.transform "text") := by decide +kernel
  obtain ⟨-, -, -, -, first, leaves⟩ :=
    first_failure_in_document_order compiled plain transform root
  exact ⟨plain, fails, (first _).mp fails, leaves.trans (by decide +kernel), by decide +kernel⟩

end Waypoint
