import Waypoint.Proofs.Future.Order
import Waypoint.Proofs.Future.Relabel
import Waypoint.Proofs.Path.Location
import Waypoint.Proofs.Path.Translation

/-!
# Leaves by location

Equal documents may be leaves of one access several times. To tell them apart the callbacks of an
access are labelled by the locations of their leaves (`CompiledPath.accessLocated`), which all
differ (`Strategies.labels_located`). Where the locations are replaced by the documents found there,
the access runs as before (`CompiledPath.report_accessLocated`).
-/

namespace Waypoint

variable {L M : Type}

/-- Other labels make a future of the same parts. -/
theorem Future.relabel_translation (f : L → M) :
    Translation (Future.relabel f : Future L → Future M) where
  value := fun doc => by
    show (Future.done doc).relabel f = _
    rw [Future.relabel]
    rfl
  failure := fun error => by
    show (Future.fail error).relabel f = _
    rw [Future.relabel]
    rfl
  andThen := fun first next => Future.relabel_andThen next first
  gather := by
    intro futures next
    show (Future.join futures next).relabel f = _
    rw [Future.relabel, Future.relabelAll_eq_map]
    rfl

namespace Strategies

/-- The rest of an access from a location on, where the array strategy takes every element; its
callbacks are labelled by the locations of their leaves. -/
def located (strategies : Strategies) (transform : Doc → Trace Notice Doc) :
    List Stage → Location → Doc → Future Location
  | [], location, doc => .callback location (transform doc)
  | .focus key :: rest, location, doc =>
    strategies.object.focus key (strategies.located transform rest (location ++ [.key key])) doc
  | .lift key :: rest, location, doc =>
    withItems key doc fun items =>
      .join (items.mapIdx fun index item =>
          strategies.located transform rest (location ++ [.index index]) item)
        fun results => .done (.arr results)

variable {strategies : Strategies} {transform : Doc → Trace Notice Doc}

/-- With other labels it is an access as before, if each leaf has its document for a label. -/
theorem relabel_located (plain : strategies.Plain) {f : Location → Doc} (stages : List Stage)
    (location : Location) (doc : Doc)
    (found : ∀ hops leaf, ReachesAt stages doc hops [] leaf → f (location ++ hops) = leaf) :
    (strategies.located transform stages location doc).relabel f =
      stages.foldr (Stage.wrap strategies.wrapping) (deferredLeaf transform) doc := by
  induction stages generalizing location doc with
  | nil =>
      have here := found [] doc (.here [] doc)
      rw [List.append_nil] at here
      rw [located, Future.callback, Future.relabel, Future.relabel_ofResult, here]
      rfl
  | cons stage rest ih =>
      rw [List.foldr_cons]
      cases stage with
      | focus key =>
          rw [located, (Future.relabel_translation f).focus]
          show _ = strategies.object.focus key _ doc
          cases doc with
          | obj members =>
              have inner := ih (location ++ [.key key]) (Doc.member key members)
                fun hops leaf reaches => by
                  rw [List.append_assoc]
                  exact found _ leaf (.focus reaches)
              rcases plain with rfl | rfl
              · exact inner
              · exact congrArg (fun first : Future Doc => first.andThen fun result =>
                  .done (.obj (Doc.setMember key result members))) inner
          | null | bool _ | int _ | float _ | str _ | arr _ =>
              rcases plain with rfl | rfl <;> rfl
      | lift key =>
          rw [located, (Future.relabel_translation f).withItems]
          show _ = strategies.array.lift key _ doc
          rw [plain.array]
          cases doc with
          | arr items =>
              -- the leaves of an element are found at locations that lead through its index
              have inner : (items.mapIdx fun index item =>
                  strategies.located transform rest (location ++ [.index index]) item).map
                    (Future.relabel f) =
                  items.map (rest.foldr (Stage.wrap strategies.wrapping)
                    (deferredLeaf transform)) := by
                refine List.ext_getElem? fun index => ?_
                rw [List.getElem?_map, List.getElem?_mapIdx, List.getElem?_map, Option.map_map]
                cases element : items[index]? with
                | none => rfl
                | some item =>
                    refine congrArg some (ih _ item fun hops leaf reaches => ?_)
                    rw [List.append_assoc]
                    exact found _ leaf (.lift element reaches)
              show (Future.join _ _).relabel f = Future.join _ _
              rw [Future.relabel, Future.relabelAll_eq_map, inner]
              rfl
          | null | bool _ | int _ | float _ | str _ | obj _ =>
              show (Future.fail _).relabel f = _
              rw [Future.relabel]
              rfl

/-- Rebuilding starts no callbacks. -/
theorem labels_andThen_done (g : Doc → Doc) (future : Future L) :
    (future.andThen fun value => .done (g value)).labels = future.labels := by
  cases future with
  | done _ | fail _ => rfl
  | call _ _ _ | join _ _ => rfl

theorem allLabels_eq_flatMap (children : List (Future L)) :
    Future.allLabels children = children.flatMap Future.labels := by
  induction children with
  | nil => rfl
  | cons child rest ih => rw [Future.allLabels, List.flatMap_cons, ih]

/-- The labels are locations that the stages focus, each of them once. -/
theorem labels_located (plain : strategies.Plain) (stages : List Stage) (location : Location)
    (doc : Doc) :
    (strategies.located transform stages location doc).labels.Nodup ∧
      ∀ label ∈ (strategies.located transform stages location doc).labels,
        ∃ hops leaf, label = location ++ hops ∧ ReachesAt stages doc hops [] leaf := by
  induction stages generalizing location doc with
  | nil =>
      rw [located, Future.callback, Future.labels]
      refine ⟨List.nodup_singleton _, fun label member => ⟨[], doc, ?_, .here [] doc⟩⟩
      rw [List.append_nil]
      exact List.mem_singleton.mp member
  | cons stage rest ih =>
      cases stage with
      | focus key =>
          cases doc with
          | obj members =>
              obtain ⟨nodup, focused⟩ := ih (location ++ [.key key]) (Doc.member key members)
              have same : (strategies.located transform (.focus key :: rest) location
                  (.obj members)).labels = (strategies.located transform rest
                    (location ++ [.key key]) (Doc.member key members)).labels := by
                rcases plain with rfl | rfl
                · rfl
                · exact labels_andThen_done _ _
              rw [same]
              refine ⟨nodup, fun label member => ?_⟩
              obtain ⟨hops, leaf, rfl, reaches⟩ := focused label member
              exact ⟨.key key :: hops, leaf, List.append_assoc .., .focus reaches⟩
          | null | bool _ | int _ | float _ | str _ | arr _ =>
              rcases plain with rfl | rfl <;> exact ⟨List.nodup_nil, List.forall_mem_nil _⟩
      | lift key =>
          cases doc with
          | arr items =>
              have inside {index : Nat} {item : Doc} (element : items[index]? = some item)
                  {label : Location} (member : label ∈ (strategies.located transform rest
                    (location ++ [.index index]) item).labels) :
                  ∃ hops leaf, label = location ++ .index index :: hops ∧
                    ReachesAt (.lift key :: rest) (.arr items) (.index index :: hops) [] leaf := by
                obtain ⟨hops, leaf, rfl, reaches⟩ := (ih _ item).2 label member
                exact ⟨hops, leaf, List.append_assoc .., .lift element reaches⟩
              show (Future.allLabels _).Nodup ∧ ∀ label ∈ Future.allLabels _, _
              rw [allLabels_eq_flatMap]
              refine ⟨List.nodup_flatMap.mpr ⟨fun child present => ?_, ?_⟩, fun label member => ?_⟩
              · obtain ⟨index, bound, rfl⟩ := List.mem_mapIdx.mp present
                exact (ih _ _).1
              · -- the locations below two elements differ in the index of the element
                refine List.pairwise_iff_getElem.mpr
                  fun one two bound bound' less label here there => ?_
                rw [List.getElem_mapIdx] at here there
                obtain ⟨hops, -, rfl, -⟩ :=
                  inside (List.getElem?_eq_getElem (by simpa using bound)) here
                obtain ⟨hops', -, same, -⟩ :=
                  inside (List.getElem?_eq_getElem (by simpa using bound')) there
                have := List.append_cancel_left same
                simp only [List.cons.injEq, Hop.index.injEq] at this
                omega
              · obtain ⟨child, present, own⟩ := List.mem_flatMap.mp member
                obtain ⟨index, bound, rfl⟩ := List.mem_mapIdx.mp present
                obtain ⟨hops, leaf, rfl, reaches⟩ := inside (List.getElem?_eq_getElem bound) own
                exact ⟨_, leaf, rfl, reaches⟩
          | null | bool _ | int _ | float _ | str _ | obj _ =>
              exact ⟨List.nodup_nil, List.forall_mem_nil _⟩

end Strategies

namespace CompiledPath

variable (compiled : CompiledPath) (transform : Doc → Trace Notice Doc) (root : Doc)

/-- The access by a future, its callbacks labelled by the locations of their leaves. -/
def accessLocated : Future Location :=
  compiled.strategies.located transform compiled.path.stages [] root

/-- The locations of the leaves, in the order in which their callbacks start. -/
def startOrder (delays : List Nat) : List Location :=
  Entry.starts ((compiled.accessLocated transform root).report delays).log

variable {compiled} (plain : compiled.strategies.Plain)

include plain

/-- With the documents found at the locations for labels it is the access. -/
theorem relabel_accessLocated :
    (compiled.accessLocated transform root).relabel
        (fun location => (root.at? location).getD .null) =
      compiled.accessLater transform root := by
  rw [accessLater, Path.accessor_eq_foldr]
  exact Strategies.relabel_located plain compiled.path.stages [] root
    fun _ _ reaches => reaches.at?_getD

/-- So it runs as the access does. -/
theorem report_accessLocated (delays : List Nat) :
    (compiled.accessLater transform root).report delays =
      ((compiled.accessLocated transform root).report delays).relabel
        fun location => (root.at? location).getD .null := by
  rw [← Future.report_relabel, relabel_accessLocated transform root plain]

theorem starts_accessLater (delays : List Nat) :
    Entry.starts ((compiled.accessLater transform root).report delays).log =
      (compiled.startOrder transform root delays).map
        fun location => (root.at? location).getD .null := by
  rw [report_accessLocated transform root plain]
  exact Entry.starts_relabel _ _

end CompiledPath

end Waypoint
