import Waypoint.Proofs.Path.Leaves
import Waypoint.Proofs.Path.Waiting

/-!
# What accesses leave on record

Roots are accessed one after another, and every leaf is told apart by the position of its root and
its location. All leaves of a root start when its access begins. A leaf that has started ends after
its waiting time, or is dropped where the access has ended before, and is then not heard of again.
An access that comes to a value has started and ended all its leaves and takes as long as the
longest of them waits.
-/

namespace Waypoint

/-- The document of a leaf, by the position of its root and its location. -/
def leafAt (roots : List Doc) (leaf : Nat × Location) : Doc :=
  ((roots[leaf.1]?.getD .null).at? leaf.2).getD .null

namespace CompiledPath

variable (compiled : CompiledPath) (transform : Doc → Trace Notice Doc) (roots : List Doc)

/-- The accesses to many roots, their callbacks labelled by the positions of the roots and the
locations of the leaves. -/
def accessesLocated : List (Future (Nat × Location)) :=
  roots.mapIdx fun k root => (compiled.accessLocated transform root).relabel (Prod.mk k)

variable {compiled} (plain : compiled.strategies.Plain)

include plain

/-- With the documents of the leaves for labels they are the accesses. -/
theorem relabel_accessesLocated :
    (compiled.accessesLocated transform roots).map (Future.relabel (leafAt roots)) =
      roots.map (compiled.accessLater transform) := by
  refine List.ext_getElem? fun k => ?_
  rw [List.getElem?_map, accessesLocated, List.getElem?_mapIdx, List.getElem?_map, Option.map_map]
  cases at_k : roots[k]? with
  | none => rfl
  | some root =>
      refine congrArg some ?_
      rw [Function.comp_apply, Future.relabel_relabel, ← relabel_accessLocated transform root plain]
      congr 1
      funext location
      show ((roots[k]?.getD .null).at? location).getD .null = _
      rw [at_k]
      rfl

variable {transform roots} {k : Nat} {root : Doc} {future : Future (Nat × Location)}

omit plain in
theorem getElem?_accessesLocated (at_k : roots[k]? = some root) :
    (compiled.accessesLocated transform roots)[k]? =
      some ((compiled.accessLocated transform root).relabel (Prod.mk k)) := by
  rw [accessesLocated, List.getElem?_mapIdx, at_k]
  rfl

/-- The labels of an access are its leaves. -/
theorem labels_accessesLocated (k : Nat) (root : Doc) :
    ((compiled.accessLocated transform root).relabel (Prod.mk k)).labels =
      (compiled.path.leaves root).map (Prod.mk k) := by
  rw [Future.labels_relabel, labels_accessLocated plain]

theorem accessesLocated_nodup (transform : Doc → Trace Notice Doc) (roots : List Doc) :
    ((compiled.accessesLocated transform roots).flatMap Future.labels).Nodup := by
  refine List.nodup_flatMap.mpr ⟨fun future member => ?_, ?_⟩
  · obtain ⟨k, bound, rfl⟩ := List.mem_mapIdx.mp member
    rw [Future.labels_relabel]
    exact (Strategies.labels_located plain _ _ _).1.map (Prod.mk_right_injective k)
  · -- the labels of two accesses differ in the positions of the roots
    refine List.pairwise_iff_getElem.mpr fun i j bound bound' less label here there => ?_
    simp only [accessesLocated, List.getElem_mapIdx, Future.labels_relabel] at here there
    obtain ⟨location, -, rfl⟩ := List.mem_map.mp here
    obtain ⟨location', -, same⟩ := List.mem_map.mp there
    have := congrArg Prod.fst same
    omega

theorem accessesLocated_arranged (transform : Doc → Trace Notice Doc) (roots : List Doc) :
    ∀ future ∈ compiled.accessesLocated transform roots, future.Arranged fun one other =>
      compiled.path.MayStartBefore (roots[one.1]?.getD .null) one.2 other.2 := by
  intro future member
  obtain ⟨k, bound, rfl⟩ := List.mem_mapIdx.mp member
  have arranged := accessLocated_arranged plain transform roots[k]
  refine .relabel ?_
  simp only [List.getElem?_eq_getElem bound]
  exact arranged

/-! ## Runs -/

/-- The accesses are those that have the leaves for labels, shown with their documents. -/
theorem runInTurn_accessesLocated (transform : Doc → Trace Notice Doc) (roots : List Doc)
    (delays : List Nat) :
    Future.runInTurn (roots.map (compiled.accessLater transform)) (World.fresh delays) =
      (Future.runInTurn (compiled.accessesLocated transform roots) (World.fresh delays)).map
        (Report.relabel (leafAt roots)) := by
  rw [← relabel_accessesLocated transform roots plain]
  exact Future.runInTurn_relabel _ (World.fresh delays)

theorem accessesLocated_agree (transform : Doc → Trace Notice Doc) (roots : List Doc)
    (delays : List Nat) :
    List.Forall₂ (compiled.Agrees transform) roots
      ((Future.runInTurn (compiled.accessesLocated transform roots) (World.fresh delays)).map
        Report.result) := by
  have agree : List.Forall₂ (compiled.Agrees transform) roots _ :=
    runInTurn_agrees plain roots (World.fresh delays)
  rw [runInTurn_accessesLocated plain, List.map_map] at agree
  exact agree

/-- The records of the accesses, each one's leaves in an order of their own root. -/
theorem accessesLocated_logs (transform : Doc → Trace Notice Doc) (roots : List Doc)
    (delays : List Nat) :
    let reports :=
      Future.runInTurn (compiled.accessesLocated transform roots) (World.fresh delays)
    let order := reports.flatMap fun report => Entry.starts report.log
    let wait (leaf : Nat × Location) := waitOf delays (order.idxOf leaf)
    let begins := 0 :: reports.map Report.elapsed
    order.Nodup ∧ ∀ (k : Nat) (root : Doc) (report : Report (Nat × Location)) (begin : Nat),
      roots[k]? = some root → reports[k]? = some report → begins[k]? = some begin →
      report.Logs (fun one other => compiled.path.MayStartBefore root one.2 other.2)
        ((compiled.path.leaves root).map (Prod.mk k)) wait begin := by
  intro reports order wait begins
  obtain ⟨-, once, logs⟩ := Future.runInTurn_logs (accessesLocated_arranged plain transform roots)
    (accessesLocated_nodup plain transform roots) (World.fresh delays)
  refine ⟨once, fun k root report begin at_root at_report at_begin => ?_⟩
  have own := logs k _ report begin (getElem?_accessesLocated at_root) at_report at_begin
  rw [labels_accessesLocated plain] at own
  refine (own.imp fun one here other _ may => ?_).congr fun leaf _ => ?_
  · obtain ⟨location, -, rfl⟩ := List.mem_map.mp here
    simp only [at_root] at may
    exact may
  · show wait leaf = waitOf delays (0 + order.idxOf leaf)
    rw [Nat.zero_add]

end CompiledPath

/-- Roots are accessed one after another, and the documents that start and end are those of the
leaves `(k, location)` of the root `k` (`leafAt`). All leaves that start in an access do so when it
begins, each of them once. They start depth first and from left to right, except that within an
element of a lift in which large lifts lie within each other some leaves may start later than those
of later elements. A leaf that has started ends once at most and after its waiting time, but not
after the access has ended. If its waiting time reaches beyond that, it does not end at all, in no
later access either. An access that comes to a value starts and ends all the leaves that are called
without waiting, and takes as long as the longest of them waits. -/
theorem leaves_start_at_once_and_end_on_time (path : Path) (strategies : Strategies)
    (plain : strategies.Plain) (transform : Doc → Trace Notice Doc) (roots : List Doc)
    (delays : List Nat) :
    let compiled : CompiledPath := ⟨path, strategies⟩
    let reports :=
      Future.runInTurn (compiled.accessesLocated transform roots) (World.fresh delays)
    let order := reports.flatMap fun report => Entry.starts report.log
    let wait (leaf : Nat × Location) := waitOf delays (order.idxOf leaf)
    let begins := 0 :: reports.map Report.elapsed
    Future.runInTurn (roots.map (compiled.accessLater transform)) (World.fresh delays) =
        reports.map (Report.relabel (leafAt roots)) ∧
      reports.length = roots.length ∧ order.Nodup ∧
      ∀ (k : Nat) (root : Doc) (report : Report (Nat × Location)) (begin : Nat),
        roots[k]? = some root → reports[k]? = some report → begins[k]? = some begin →
        (∃ result, report.result = some result) ∧
          report.Logs (fun one other => path.MayStartBefore root one.2 other.2)
            ((path.leaves root).map (Prod.mk k)) wait begin ∧
          (largeLifts path.stages root ≤ 1 → (Entry.starts report.log).Pairwise
            fun one other => DepthFirst one.2 other.2) ∧
          (∀ leaf ∈ Entry.starts report.log, report.elapsed < begin + wait leaf →
            ∀ other ∈ reports, leaf ∉ Entry.ends other.log) ∧
          (∀ value, report.result = some (.ok value) →
            (path.leaves root).map (fun location => (root.at? location).getD .null) =
              (compiled.access transform root).log.filterMap PathCall.leaf?) := by
  intro compiled reports order wait begins
  have plain : compiled.strategies.Plain := plain
  have agree := CompiledPath.accessesLocated_agree plain transform roots delays
  have same_length : reports.length = roots.length := by
    rw [agree.length_eq, List.length_map]
  obtain ⟨once, logs⟩ := CompiledPath.accessesLocated_logs plain transform roots delays
  refine ⟨CompiledPath.runInTurn_accessesLocated plain transform roots delays, same_length, once,
    fun k root report begin at_root at_report at_begin => ?_⟩
  have own := logs k root report begin at_root at_report at_begin
  have agreed : compiled.Agrees transform root report.result := by
    obtain ⟨inside, rfl⟩ := List.getElem?_eq_some_iff.mp at_root
    obtain ⟨bound, rfl⟩ := List.getElem?_eq_some_iff.mp at_report
    have at_k := agree.get inside (by rwa [List.length_map])
    rw [List.get_eq_getElem, List.get_eq_getElem, List.getElem_map] at at_k
    exact at_k
  refine ⟨agreed.ends, own, fun shallow => ?_, fun leaf started beyond other member ended => ?_,
    fun value ok => ?_⟩
  · exact own.inOrder.imp fun may => may.depthFirst shallow
  · -- only the access to its root ends a leaf, and that one does not end this one
    obtain ⟨j, bound, rfl⟩ := List.getElem_of_mem member
    have begun : j < begins.length := by
      rw [List.length_cons, List.length_map]
      omega
    have theirs := logs j roots[j] reports[j] begins[j] (List.getElem?_eq_getElem _)
      (List.getElem?_eq_getElem bound) (List.getElem?_eq_getElem begun)
    obtain ⟨time, at_time⟩ := Entry.mem_ends_iff.mp ended
    obtain ⟨location, -, rfl⟩ := List.mem_map.mp (own.own started)
    obtain ⟨location', -, same⟩ := List.mem_map.mp (theirs.own (theirs.onTime _ _ at_time).1)
    obtain rfl : j = k := congrArg Prod.fst same
    obtain rfl : reports[j] = report := Option.some.inj
      ((List.getElem?_eq_getElem bound).symm.trans at_report)
    exact own.notMem_ends beyond ended
  · exact CompiledPath.leaves_of_value plain transform root ((agreed.value value).mp ok)

/-- The second of three rows fails before the first one has waited to its end. The first one has
started and does not end, though the next access is still under way when it would. -/
theorem leaf_of_failed_access_does_not_end :
    let path := Path.parse "rows[].n"
    let transform := (Transform.failIf .negative "negative").run
    let rows (numbers : List Int) : Doc :=
      .obj [("rows", .arr (numbers.map fun number => .obj [("n", .int number)]))]
    let roots := [rows [1, -1, 2], rows [3]]
    let compiled : CompiledPath := ⟨path, .read⟩
    let reports :=
      Future.runInTurn (compiled.accessesLocated transform roots) (World.fresh [7, 3, 5, 6])
    let first : Nat × Location := (0, [.key "rows", .index 0, .key "n"])
    Strategies.read.Plain ∧ reports.map Report.elapsed = [3, 9] ∧
      (∃ report, reports[0]? = some report ∧ first ∈ Entry.starts report.log) ∧
      ∀ report ∈ reports, first ∉ Entry.ends report.log := by
  intro path transform rows roots compiled reports first
  have elapsed : reports.map Report.elapsed = [3, 9] := by decide +kernel
  have starts : reports.map (fun report => Entry.starts report.log) =
      [[0, 1, 2].map fun row => (0, [.key "rows", .index row, .key "n"]),
        [(1, [.key "rows", .index 0, .key "n"])]] := by
    decide +kernel
  have waits : waitOf [7, 3, 5, 6]
      ((reports.flatMap fun report => Entry.starts report.log).idxOf first) = 7 := by
    decide +kernel
  obtain ⟨-, -, -, each⟩ := leaves_start_at_once_and_end_on_time path .read (.inl rfl) transform
    roots [7, 3, 5, 6]
  obtain ⟨report, at_report⟩ : ∃ report, reports[0]? = some report := by
    cases all : reports with
    | nil =>
        rw [all] at elapsed
        cases elapsed
    | cons report rest => exact ⟨report, rfl⟩
  have at_elapsed := congrArg (·[0]?) elapsed
  have at_starts := congrArg (·[0]?) starts
  simp only [List.getElem?_map, at_report, Option.map_some] at at_elapsed at_starts
  have started : first ∈ Entry.starts report.log := by
    rw [Option.some.inj at_starts]
    exact List.mem_cons_self
  obtain ⟨-, -, -, dropped, -⟩ := each 0 _ report 0 rfl at_report rfl
  refine ⟨.inl rfl, elapsed, ⟨report, at_report, started⟩, dropped first started ?_⟩
  have ended : report.elapsed = 3 := Option.some.inj at_elapsed
  show report.elapsed < 0 + waitOf _ _
  rw [ended, waits]
  decide

/-- An element of a lift contains a large lift inside an element of another large one. The leaf of
the next element starts before the last one of that element. -/
theorem leaf_starts_before_remaining_leaves :
    let path := Path.parse "a[].b[].c[].d[]"
    let compiled : CompiledPath := ⟨path, .read⟩
    let transform := Transform.increment.run
    let under (key : String) (items : List Doc) : Doc := .obj [(key, .arr items)]
    let many (number : Int) :=
      under "c" (List.replicate 30 (under "d" []) ++ [under "d" [.int number]])
    let rows := [many 1, many 2, under "c" [under "d" [.int 3]]] ++ List.replicate 28 (under "c" [])
    let root := under "a" [under "b" rows, under "b" [under "c" [under "d" [.int 4]]]]
    let leaf (i j k : Nat) : Location :=
      [.key "a", .index i, .key "b", .index j, .key "c", .index k, .key "d", .index 0]
    let report := (compiled.accessLater transform root).report [1]
    let access := compiled.access transform root
    report.result = some access.result ∧ access.result.toOption.isSome = true ∧
      path.leaves root = [leaf 0 0 30, leaf 0 1 30, leaf 0 2 0, leaf 1 0 0] ∧
      compiled.startOrder transform root [1] =
        [leaf 0 0 30, leaf 0 1 30, leaf 1 0 0, leaf 0 2 0] ∧
      Entry.starts report.log = [1, 2, 4, 3].map Doc.int ∧
      access.log.filterMap PathCall.leaf? = [1, 2, 3, 4].map Doc.int := by
  decide +kernel

end Waypoint
