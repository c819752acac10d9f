import Waypoint.Proofs.Future.InTurn
import Waypoint.Proofs.Path.Instant
import Waypoint.Proofs.Path.Located

/-!
# The leaves of an access

The leaves of an access in depth-first order (`Path.leaves`) are the locations of its callbacks, and
an access that does not wait and comes to a value hands the documents there to the transform in that
order (`CompiledPath.leaves_of_value`). An access that waits may start its leaves in another order
where lifts are nested that are too large to ask all their elements every time
(`Path.MayStartBefore`).
-/

namespace Waypoint

variable {L M : Type}

/-! ## Leaves and their order -/

/-- The locations of the leaves from a location on, depth first and from left to right. -/
def leavesFrom : List Stage → Location → Doc → List Location
  | [], location, _ => [location]
  | .focus key :: rest, location, .obj members =>
    leavesFrom rest (location ++ [.key key]) (Doc.member key members)
  | .lift _ :: rest, location, .arr items =>
    (items.mapIdx fun index item => leavesFrom rest (location ++ [.index index]) item).flatten
  | _ :: _, _, _ => []

def Path.leaves (path : Path) (root : Doc) : List Location :=
  leavesFrom path.stages [] root

/-- How deep lifts of more elements than are all asked every time lie within each other. -/
def largeLifts : List Stage → Doc → Nat
  | .focus key :: rest, .obj members => largeLifts rest (Doc.member key members)
  | .lift _ :: rest, .arr items =>
    (items.map (largeLifts rest)).foldr max 0 + if items.length ≤ Agenda.threshold then 0 else 1
  | _, _ => 0

/-- Two locations lie below elements of a lift, the first one below the element `i` and the second
one below the element `j`. -/
def Parts (above : Location) (i j : Nat) (first second : Location) : Prop :=
  ∃ below below', first = above ++ .index i :: below ∧ second = above ++ .index j :: below'

/-- The first location comes before the second one, depth first and from left to right. -/
def DepthFirst (first second : Location) : Prop :=
  ∃ above i j, i < j ∧ Parts above i j first second

/-- A leaf may start before another one if it comes before it, or if the other one lies below an
earlier element of a lift in which large lifts lie within each other. -/
def Path.MayStartBefore (path : Path) (root : Doc) (first second : Location) : Prop :=
  DepthFirst first second ∨ ∃ above i j stages element, j < i ∧ Parts above i j first second ∧
    ReachesAt path.stages root (above ++ [.index j]) stages element ∧
    2 ≤ largeLifts stages element

/-! ## Locations -/

/-- From one position to another one, and on from there. -/
theorem ReachesAt.trans {stages middle rest : List Stage} {root between doc : Doc}
    {location more : Location} (reaches : ReachesAt stages root location middle between)
    (further : ReachesAt middle between more rest doc) :
    ReachesAt stages root (location ++ more) rest doc := by
  induction reaches with
  | here stages doc => exact further
  | focus _ ih => exact .focus (ih further)
  | lift element _ ih => exact .lift element (ih further)

/-- No more large lifts lie within each other further down. -/
theorem ReachesAt.largeLifts_le {stages rest : List Stage} {root doc : Doc} {location : Location}
    (reaches : ReachesAt stages root location rest doc) :
    largeLifts rest doc ≤ largeLifts stages root := by
  induction reaches with
  | here stages doc => exact Nat.le_refl _
  | focus _ ih => exact ih
  | @lift key stages rest items index location item doc element _ ih =>
      have present := List.mem_map_of_mem (f := largeLifts stages) (List.mem_of_getElem? element)
      have own := List.le_max_of_le' 0 present (Nat.le_refl _)
      rw [largeLifts]
      omega

/-- Where no large lift lies within another one, leaves start depth first. -/
theorem Path.MayStartBefore.depthFirst {path : Path} {root : Doc} {first second : Location}
    (may : path.MayStartBefore root first second)
    (shallow : largeLifts path.stages root ≤ 1) : DepthFirst first second := by
  rcases may with ordered | ⟨above, i, j, stages, element, -, -, reaches, deep⟩
  · exact ordered
  · have := reaches.largeLifts_le
    omega

/-! ## The callbacks of an access -/

namespace Future

theorem deepest_eq (children : List (Future L)) :
    deepest children = (children.map nesting).foldr max 0 := by
  induction children with
  | nil => rfl
  | cons child rest ih => rw [deepest, ih, List.map_cons, List.foldr_cons]

/-- Rebuilding is no join. -/
theorem nesting_andThen_done (g : Doc → Doc) (future : Future L) :
    (future.andThen fun value => .done (g value)).nesting = future.nesting := by
  cases future with
  | done _ | fail _ => rfl
  | call _ _ _ | join _ _ => rfl

theorem Arranged.andThen_done {before : L → L → Prop} {future : Future L}
    (arranged : future.Arranged before) (g : Doc → Doc) :
    (future.andThen fun value => .done (g value)).Arranged before := by
  cases arranged with
  | atOnce result =>
      cases result with
      | ok value => exact .atOnce (.ok (g value))
      | error error => exact .atOnce (.error error)
  | call label notices result =>
      cases result with
      | ok value => exact .call label notices (.ok (g value))
      | error error => exact .call label notices (.error error)
  | join rebuild each apart => exact .join (g ∘ rebuild) each apart

end Future

namespace Strategies

variable {strategies : Strategies} {transform : Doc → Trace Notice Doc}

/-- The callbacks are those of the leaves. -/
theorem labels_located_eq (plain : strategies.Plain) (stages : List Stage) (location : Location)
    (doc : Doc) :
    (strategies.located transform stages location doc).labels = leavesFrom stages location doc := by
  induction stages generalizing location doc with
  | nil => rfl
  | cons stage rest ih =>
      cases stage with
      | focus key =>
          cases doc with
          | obj members =>
              have inner := ih (location ++ [.key key]) (Doc.member key members)
              rcases plain with rfl | rfl
              · exact inner
              · exact (labels_andThen_done _ _).trans inner
          | null | bool _ | int _ | float _ | str _ | arr _ => rcases plain with rfl | rfl <;> rfl
      | lift key =>
          cases doc with
          | arr items =>
              have elements : (items.mapIdx fun index item =>
                  strategies.located transform rest (location ++ [.index index]) item).map
                    Future.labels = items.mapIdx fun index item =>
                      leavesFrom rest (location ++ [.index index]) item := by
                refine List.ext_getElem? fun index => ?_
                rw [List.getElem?_map, List.getElem?_mapIdx, List.getElem?_mapIdx, Option.map_map]
                congr 1
                funext item
                exact ih _ item
              show Future.allLabels _ = List.flatten _
              rw [allLabels_eq_flatMap, List.flatMap_def, elements]
          | null | bool _ | int _ | float _ | str _ | obj _ => rfl

theorem nesting_located (plain : strategies.Plain) (stages : List Stage) (location : Location)
    (doc : Doc) :
    (strategies.located transform stages location doc).nesting = largeLifts stages doc := by
  induction stages generalizing location doc with
  | nil => rfl
  | cons stage rest ih =>
      cases stage with
      | focus key =>
          cases doc with
          | obj members =>
              have inner := ih (location ++ [.key key]) (Doc.member key members)
              rcases plain with rfl | rfl
              · exact inner
              · exact (Future.nesting_andThen_done _ _).trans inner
          | null | bool _ | int _ | float _ | str _ | arr _ => rcases plain with rfl | rfl <;> rfl
      | lift key =>
          cases doc with
          | arr items =>
              have elements : (items.mapIdx fun index item =>
                  strategies.located transform rest (location ++ [.index index]) item).map
                    Future.nesting = items.map (largeLifts rest) := by
                refine List.ext_getElem? fun index => ?_
                rw [List.getElem?_map, List.getElem?_mapIdx, List.getElem?_map, Option.map_map]
                congr 1
                funext item
                exact ih _ item
              show (Future.join _ _).nesting = _
              rw [Future.nesting, Future.deepest_eq, elements, List.length_mapIdx, largeLifts]
          | null | bool _ | int _ | float _ | str _ | obj _ => rfl

/-- The callbacks below a location of the root may start in the order of their leaves. -/
theorem located_arranged (plain : strategies.Plain) {path : Path} {root : Doc}
    (stages : List Stage) (location : Location) (doc : Doc)
    (reaches : ReachesAt path.stages root location stages doc) :
    (strategies.located transform stages location doc).Arranged (path.MayStartBefore root) := by
  induction stages generalizing location doc with
  | nil => exact .call location _ _
  | cons stage rest ih =>
      cases stage with
      | focus key =>
          cases doc with
          | obj members =>
              have inner := ih (location ++ [.key key]) (Doc.member key members)
                (reaches.trans (.focus (.here _ _)))
              rcases plain with rfl | rfl
              · exact inner
              · exact inner.andThen_done _
          | null | bool _ | int _ | float _ | str _ | arr _ =>
              rcases plain with rfl | rfl <;> exact .atOnce (.error _)
      | lift key =>
          cases doc with
          | arr items =>
              have inside {index : Nat} {item : Doc} (element : items[index]? = some item) :
                  ReachesAt path.stages root (location ++ [.index index]) rest item :=
                reaches.trans (.lift element (.here _ _))
              have below {index : Nat} {item : Doc} {label : Location} (member : label ∈
                  (strategies.located transform rest (location ++ [.index index]) item).labels) :
                  ∃ hops, label = location ++ .index index :: hops := by
                obtain ⟨hops, leaf, rfl, -⟩ := (labels_located plain rest _ item).2 label member
                exact ⟨hops, List.append_assoc ..⟩
              refine .join Doc.arr (fun child member => ?_) (List.pairwise_iff_getElem.mpr ?_)
              · obtain ⟨index, bound, rfl⟩ := List.mem_mapIdx.mp member
                exact ih _ _ (inside (List.getElem?_eq_getElem bound))
              · intro i j bound bound' less label member later member'
                rw [List.getElem_mapIdx] at member member' ⊢
                obtain ⟨hops, rfl⟩ := below member
                obtain ⟨hops', rfl⟩ := below member'
                refine ⟨.inl ⟨location, i, j, less, hops, hops', rfl, rfl⟩, fun deep => .inr ?_⟩
                rw [nesting_located plain] at deep
                rw [List.length_mapIdx] at bound
                exact ⟨location, j, i, rest, items[i], less, ⟨hops', hops, rfl, rfl⟩,
                  inside (List.getElem?_eq_getElem bound), deep⟩
          | null | bool _ | int _ | float _ | str _ | obj _ => exact .atOnce (.error _)

end Strategies

/-! ## Leaves without waiting -/

namespace Future

theorem starts_traces {children : List (Future L)} {values : List Doc} (time : Nat)
    (each : ∀ child ∈ children, ∀ value, child.outcome = .ok value →
      Entry.starts (child.trace time).log = child.labels)
    (ok : outcomes children = .ok values) :
    Entry.starts (traces time children).log = allLabels children := by
  induction children generalizing values with
  | nil => rfl
  | cons child rest ih =>
      rw [List.forall_mem_cons] at each
      rw [outcomes] at ok
      cases own : child.outcome with
      | error error =>
          rw [own] at ok
          cases ok
      | ok value =>
          cases others : outcomes rest with
          | error error =>
              rw [own, others] at ok
              cases ok
          | ok values =>
              have first := (result_trace time child).trans own
              have later := (result_traces time rest).trans others
              rw [traces, Recorded.andThen_of_ok first, Recorded.andThen_of_ok later, allLabels]
              simp [each.1 value own, ih each.2 others]

/-- A traversal that comes to a value starts all its callbacks, in order. -/
theorem starts_trace {future : Future L} (traversal : future.Traversal) {value : Doc}
    (ok : future.outcome = .ok value) (time : Nat) :
    Entry.starts (future.trace time).log = future.labels := by
  induction traversal generalizing value with
  | atOnce result => cases result <;> rfl
  | call label notices result => cases result <;> simp [trace, labels, ofResult, Recorded.fail]
  | @join children rebuild each ih =>
      rw [outcome] at ok
      cases all : outcomes children with
      | error error =>
          rw [all] at ok
          cases ok
      | ok values =>
          have together := (result_traces time children).trans all
          rw [trace, Recorded.andThen_of_ok together, labels]
          show Entry.starts ((traces time children).log ++ []) = _
          rw [List.append_nil]
          exact starts_traces time (fun child member value => ih child member) all

end Future

namespace CompiledPath

variable {compiled : CompiledPath} (plain : compiled.strategies.Plain)
  (transform : Doc → Trace Notice Doc) (root : Doc)

include plain

theorem labels_accessLocated :
    (compiled.accessLocated transform root).labels = compiled.path.leaves root :=
  Strategies.labels_located_eq plain _ _ _

theorem accessLocated_arranged :
    (compiled.accessLocated transform root).Arranged (compiled.path.MayStartBefore root) :=
  Strategies.located_arranged plain _ _ _ (.here _ _)

/-- An access that comes to a value hands all its leaves to the transform, depth first. -/
theorem leaves_of_value {value : Doc}
    (ok : (compiled.access transform root).result = .ok value) :
    (compiled.path.leaves root).map (fun location => (root.at? location).getD .null) =
      (compiled.access transform root).log.filterMap PathCall.leaf? := by
  let document (location : Location) := (root.at? location).getD .null
  have same : (compiled.accessLocated transform root).relabel document =
      compiled.accessLater transform root := relabel_accessLocated transform root plain
  have traversal : (compiled.accessLater transform root).Traversal := by
    rw [← same]
    exact (accessLocated_arranged plain transform root).traversal.relabel document
  have outcome : (compiled.accessLater transform root).outcome = .ok value := by
    rw [outcome_accessLater]
    exact ok
  have starts := Future.starts_trace traversal outcome 0
  rw [trace_accessLater, ← same, Future.labels_relabel, labels_accessLocated plain] at starts
  exact starts.symm.trans (PathCall.starts_flatMap_atOnce _)

end CompiledPath

end Waypoint
