import Waypoint.CompiledPath
import Waypoint.Proofs.Future.FirstRound
import Waypoint.Proofs.Future.InTurn
import Waypoint.Proofs.Future.Punctual

/-!
# Lifts with failing elements

The elements of a lift that waits start in index order, so the element at an index waits for the
time at that index. Its callbacks are told apart by these indices
(`ArrayStrategy.report_lift`). Where some elements fail, a lift of at most thirty elements ends with
the first failure in time, and a longer one with the failure of the lowest index, after all elements
before that one have finished. The two differ where an element up to that index waits longer than
the first one that fails.
-/

namespace Waypoint

/-- A run ends with a failure at a time, and nothing finishes after it. -/
structure Report.EndsWithFailure {L : Type} (report : Report L) (time : Nat) (error : PathError) :
    Prop where
  elapsed : report.elapsed = time
  result : report.result = some (.error error)
  dropped : ∀ label later, .call (.ended label later) ∈ report.log → later ≤ time

theorem Report.EndsWithFailure.relabel {L M : Type} {report : Report L} {time : Nat}
    {error : PathError} (ends : report.EndsWithFailure time error) (f : L → M) :
    (report.relabel f).EndsWithFailure time error := by
  refine ⟨ends.elapsed, ends.result, fun label later member => ?_⟩
  obtain ⟨entry, inside, same⟩ := List.mem_map.mp member
  match entry with
  | .call (.ended own time) =>
    cases same
    exact ends.dropped own later inside
  | .call (.started _ _) | .notice _ => cases same

namespace ArrayStrategy

/-- The elements of an array as callbacks, labelled by their indices. -/
def indexed (transform : Doc → Trace Notice Doc) (items : List Doc) : Future Nat :=
  .join (Future.callbacks (items.mapIdx fun index item => (index, transform item)))
    fun values => .done (.arr values)

variable (transform : Doc → Trace Notice Doc) (items : List Doc)

/-- With the elements for labels it is the lift. -/
theorem relabel_indexed (key : String) :
    (indexed transform items).relabel (fun index => items[index]?.getD .null) =
      ArrayStrategy.each.lift key (deferredLeaf transform) (.arr items) := by
  have inner : (Future.callbacks (items.mapIdx fun index item => (index, transform item))).map
      (Future.relabel fun index => items[index]?.getD .null) =
        items.map (deferredLeaf transform) := by
    refine List.ext_getElem? fun index => ?_
    rw [Future.callbacks, List.map_map, List.getElem?_map, List.getElem?_mapIdx, List.getElem?_map,
      Option.map_map]
    cases element : items[index]? with
    | none => rfl
    | some item =>
        refine congrArg some ?_
        show (Future.callback index (transform item)).relabel
          (fun index => items[index]?.getD .null) = deferredLeaf transform item
        rw [Future.callback, Future.relabel, Future.relabel_ofResult, element]
        rfl
  rw [indexed, Future.relabel, Future.relabelAll_eq_map, inner]
  rfl

/-- So it runs as the lift does. -/
theorem report_lift (key : String) (delays : List Nat) :
    (ArrayStrategy.each.lift key (deferredLeaf transform) (.arr items)).report delays =
      ((indexed transform items).report delays).relabel fun index => items[index]?.getD .null := by
  rw [← relabel_indexed, Future.report_relabel]

theorem map_fst_indexed :
    (items.mapIdx fun index item => (index, transform item)).map Prod.fst =
      List.range items.length := by
  refine List.ext_getElem (by simp) fun index bound bound' => ?_
  simp

/-- The elements start in index order, so each one waits for the time at its index. -/
theorem starts_indexed (delays : List Nat) :
    Entry.starts ((indexed transform items).report delays).log <+: List.range items.length := by
  rw [← map_fst_indexed transform items]
  refine Future.starts_of_callbacks ?_ delays
  rw [map_fst_indexed]
  exact List.nodup_range

theorem index_of_start {delays : List Nat} {place index : Nat}
    (started : (Entry.starts ((indexed transform items).report delays).log)[place]? = some index) :
    index = place := by
  have at_place : (List.range items.length)[place]? = some index := by
    obtain ⟨others, all⟩ := starts_indexed transform items delays
    obtain ⟨bound, -⟩ := List.getElem?_eq_some_iff.mp started
    rw [← all, List.getElem?_append_left bound, started]
  obtain ⟨inside, same⟩ := List.getElem?_eq_some_iff.mp at_place
  rw [← same, List.getElem_range]

theorem labels_indexed : (indexed transform items).labels = List.range items.length := by
  rw [indexed, Future.labels_callbacks, map_fst_indexed]

theorem indexed_arranged : (indexed transform items).Arranged (· < ·) := by
  refine .join Doc.arr (fun child member => ?_) ?_
  · obtain ⟨⟨index, trace⟩, -, rfl⟩ := List.mem_map.mp member
    exact .call index trace.log trace.result
  · refine List.pairwise_map.mpr (List.pairwise_iff_getElem.mpr fun i j bound bound' less => ?_)
    intro label here later there
    simp only [List.getElem_mapIdx, Future.callback, Future.labels, List.mem_singleton]
      at here there
    subst here
    subst there
    refine ⟨less, fun deep => ?_⟩
    simp [Future.callback, Future.nesting] at deep

/-- What the elements leave on record. -/
theorem indexed_logs (delays : List Nat) :
    ((indexed transform items).report delays).Logs (· < ·) (List.range items.length)
      (waitOf delays) 0 := by
  let world : World Nat := World.fresh delays
  have logs := Future.reportFrom_logs (indexed_arranged transform items)
    (labels_indexed transform items ▸ List.nodup_range) (show world.putOff = [] from rfl) rfl
  rw [labels_indexed] at logs
  refine logs.congr fun index member => ?_
  -- the place of an index among the starts is the index
  have place : index = (Entry.starts ((indexed transform items).report delays).log).idxOf index :=
    index_of_start transform items (List.getElem?_idxOf member)
  show waitOf delays index = waitOf delays (0 + _)
  rw [Nat.zero_add]
  exact congrArg (waitOf delays) place

/-! ## When and with what a lift finishes -/

/-- The element at an index fails with an error. -/
def FailsAt (index : Nat) (error : PathError) : Prop :=
  ∃ item, items[index]? = some item ∧ (transform item).result = .error error

/-- The element at an index is the first one in time that fails, and of several at the same time
the one of the lowest index. -/
structure FirstFailure (wait : Nat → Nat) (index : Nat) (error : PathError) : Prop where
  fails : FailsAt transform items index error
  first : ∀ other error', FailsAt transform items other error' →
    wait index < wait other ∨ wait index = wait other ∧ index ≤ other

/-- The element at an index is the one of the lowest index that fails. -/
structure LowestFailure (index : Nat) (error : PathError) : Prop where
  fails : FailsAt transform items index error
  lowest : ∀ other error', FailsAt transform items other error' → index ≤ other

/-- When and with what the elements finish. -/
def finishes (wait : Nat → Nat) : List (Finish Doc) :=
  items.mapIdx fun index item => ⟨wait index, (transform item).result, [], 0⟩

variable {transform items} {wait : Nat → Nat} {index : Nat} {error : PathError}
  {before after : List (Finish Doc)} {element : Finish Doc} {own : Failing}

theorem indexed_finishes (wait : Nat → Nat) : (indexed transform items).Finishes wait
    ((Finish.gather (finishes transform items wait)).map .arr) := by
  refine .join Doc.arr (by simp [finishes, Future.callbacks]) fun element child pair => ?_
  obtain ⟨index, here⟩ := List.mem_iff_getElem?.mp pair
  rw [List.getElem?_zip_eq_some, Future.callbacks, finishes, List.getElem?_map,
    List.getElem?_mapIdx, List.getElem?_mapIdx] at here
  obtain ⟨here, there⟩ := here
  obtain ⟨item, at_index, rfl⟩ := Option.map_eq_some_iff.mp here
  rw [at_index] at there
  obtain rfl := Option.some.inj there
  exact .call index (transform item).log (transform item).result

/-- The element at an index finishes after its wait. -/
theorem finishes_at (at_index : (finishes transform items wait)[index]? = some element) :
    ∃ item, items[index]? = some item ∧
      element = ⟨wait index, (transform item).result, [], 0⟩ := by
  rw [finishes, List.getElem?_mapIdx] at at_index
  obtain ⟨item, present, rfl⟩ := Option.map_eq_some_iff.mp at_index
  exact ⟨item, present, rfl⟩

theorem rivals_finishes (wait : Nat → Nat) :
    (Finish.gather (finishes transform items wait)).rivals = [] := by
  have each : ∀ element ∈ finishes transform items wait,
      element.nesting ≤ 0 ∧ element.rivals = [] := by
    intro element member
    obtain ⟨index, bound, rfl⟩ := List.mem_mapIdx.mp member
    exact ⟨Nat.le_refl 0, rfl⟩
  refine Finish.rivals_gather (fun element member _ => (each element member).2) ?_
  have flat := Finish.deepest_le fun element member => (each element member).1
  rw [Finish.nesting_gather, Finish.nestingOf]
  split <;> omega

theorem failsAt_iff (wait : Nat → Nat) : FailsAt transform items index error ↔
    ∃ element, (finishes transform items wait)[index]? = some element ∧
      element.failing? = some ⟨wait index, error, []⟩ := by
  constructor
  · rintro ⟨item, present, fails⟩
    refine ⟨⟨wait index, (transform item).result, [], 0⟩, ?_, ?_⟩
    · rw [finishes, List.getElem?_mapIdx, present]
      rfl
    · simp [Finish.failing?, fails]
  · rintro ⟨element, at_index, fails⟩
    obtain ⟨item, present, rfl⟩ := finishes_at at_index
    exact ⟨item, present, (Finish.failing?_eq_some.mp fails).1⟩

/-- The element at which its finishes are split. -/
theorem of_split (split : finishes transform items wait = before ++ element :: after)
    (fails : element.failing? = some own) :
    own.time = wait before.length ∧ FailsAt transform items before.length own.error := by
  have at_index : (finishes transform items wait)[before.length]? = some element := by
    rw [split, List.getElem?_append_right (Nat.le_refl _), Nat.sub_self]
    rfl
  obtain ⟨item, present, rfl⟩ := finishes_at at_index
  obtain ⟨result, time, -⟩ := Finish.failing?_eq_some.mp fails
  exact ⟨time.symm, item, present, result⟩

theorem firstFailure_of_race {failing : Failing}
    (raced : Finish.race (finishes transform items wait) = some failing) :
    ∃ first, FirstFailure transform items wait first failing.error ∧ failing.time = wait first := by
  obtain ⟨before, element, own, after, split, owns, time, error, earlier, later⟩ :=
    Finish.race_eq_some raced
  obtain ⟨waits, fails⟩ := of_split split owns
  rw [← time, waits] at earlier later ⊢
  rw [← error]
  refine ⟨before.length, ⟨fails, fun other error' others => ?_⟩, rfl⟩
  obtain ⟨element', at_other, fails'⟩ := (failsAt_iff wait).mp others
  rw [split] at at_other
  rcases Nat.lt_trichotomy other before.length with less | rfl | less
  · rw [List.getElem?_append_left less] at at_other
    exact .inl (earlier element' (List.mem_of_getElem? at_other) _ fails')
  · exact .inr ⟨rfl, Nat.le_refl _⟩
  · have member : element' ∈ after := by
      rw [List.getElem?_append_right (by omega)] at at_other
      obtain ⟨place, rfl⟩ := Nat.exists_eq_add_of_lt less
      rw [show before.length + place + 1 - before.length = place + 1 by omega] at at_other
      exact List.mem_of_getElem? at_other
    have le := later element' member _ fails'
    dsimp only at le
    omega

theorem lowestFailure_of_inTurn {failing : Failing}
    (fails : Finish.inTurn (finishes transform items wait) = some failing) :
    ∃ lowest, LowestFailure transform items lowest failing.error ∧
      failing.time = (Finset.range (lowest + 1)).sup wait := by
  obtain ⟨before, element, own, after, split, owns, rfl, ok⟩ := Finish.inTurn_eq_some fails
  obtain ⟨waits, fails⟩ := of_split split owns
  refine ⟨before.length, ⟨fails, fun other error' others => ?_⟩, ?_⟩
  · obtain ⟨element', at_other, fails'⟩ := (failsAt_iff wait).mp others
    by_contra less
    rw [split, List.getElem?_append_left (by omega)] at at_other
    cases (ok element' (List.mem_of_getElem? at_other)).symm.trans fails'
  · have times (place : Nat) (other : Finish Doc) (at_place : before[place]? = some other) :
        other.time = wait place := by
      obtain ⟨bound, -⟩ := List.getElem?_eq_some_iff.mp at_place
      have inside : (finishes transform items wait)[place]? = some other := by
        rw [split, List.getElem?_append_left bound, at_place]
      obtain ⟨item, -, rfl⟩ := finishes_at inside
      rfl
    show max _ own.time = _
    rw [Finish.latest_eq_sup times, waits, Finset.range_add_one, Finset.sup_insert, sup_comm]

/-- An element fails with one error. -/
theorem FailsAt.unique {error' : PathError} (one : FailsAt transform items index error)
    (other : FailsAt transform items index error') : error' = error := by
  obtain ⟨item, present, result⟩ := one
  obtain ⟨item', present', result'⟩ := other
  obtain rfl := Option.some.inj (present.symm.trans present')
  exact Except.error.inj (result'.symm.trans result)

/-- An element that fails is the first one if all others wait longer. -/
theorem FirstFailure.of_shortest (fails : FailsAt transform items index error)
    (longer : ∀ other < items.length, other = index ∨ wait index < wait other) :
    FirstFailure transform items wait index error := by
  refine ⟨fails, fun other error' ⟨item, at_other, _⟩ => ?_⟩
  obtain ⟨bound, -⟩ := List.getElem?_eq_some_iff.mp at_other
  rcases longer other bound with rfl | less
  · exact .inr ⟨rfl, Nat.le_refl _⟩
  · exact .inl less

theorem FirstFailure.unique {first first' : Nat} {error error' : PathError}
    (one : FirstFailure transform items wait first error)
    (other : FirstFailure transform items wait first' error') :
    first' = first ∧ error' = error := by
  obtain rfl : first' = first := by
    have := one.first first' error' other.fails
    have := other.first first error one.fails
    omega
  exact ⟨rfl, one.fails.unique other.fails⟩

theorem FirstFailure.eq_of_lowest {first lowest : Nat} {error error' : PathError}
    (one : FirstFailure transform items wait first error)
    (other : LowestFailure transform items lowest error') (le : wait lowest ≤ wait first) :
    lowest = first ∧ error' = error := by
  have not_before := other.lowest first error one.fails
  obtain rfl : lowest = first := by
    rcases one.first lowest error' other.fails with less | ⟨-, not_after⟩ <;> omega
  exact ⟨rfl, one.fails.unique other.fails⟩

variable (transform items) in
/-- The elements end with the failure that counts by their number. -/
theorem indexed_ends (delays : List Nat) {failing : Failing}
    (counts : Finish.failure? (finishes transform items (waitOf delays)) = some failing) :
    ((indexed transform items).report delays).EndsWithFailure failing.time failing.error := by
  obtain ⟨elapsed, result, ended, admits⟩ := Future.report_finishes
    (indexed_finishes (waitOf delays)) delays fun place index at_place => by
      rw [index_of_start transform items at_place]
  obtain ⟨error, time, -⟩ := Finish.failing?_eq_some.mp (Finish.gather_of_failure counts)
  have at_end := elapsed.trans time
  refine ⟨at_end, ended.trans ?_, fun index later member => ?_⟩
  · rw [admits.eq_outcome (rivals_finishes _)]
    show some (Except.map _ (Finish.gather _).outcome) = _
    rw [error]
    rfl
  · exact at_end ▸ ((indexed_logs transform items delays).onTime index later member).2.2

end ArrayStrategy

open ArrayStrategy in
/-- The elements of a lift start in index order, each one waits for its own time, and what has not
ended when the lift ends does not end. Some elements fail. A lift of at most thirty elements ends
with the first failure in time, and of several at the same time with that of the lowest index. A
longer lift ends with the failure of the lowest index, when all elements up to that one are over. So
it ends with the first failure in time only if none of these waits longer. -/
theorem lift_ends_with_first_failure_unless_long (key : String)
    (transform : Doc → Trace Notice Doc) (items : List Doc) (delays : List Nat)
    (fails : ∃ index error, FailsAt transform items index error) :
    let wait := waitOf delays
    let report := (ArrayStrategy.each.lift key (deferredLeaf transform) (.arr items)).report delays
    let own := (indexed transform items).report delays
    report = own.relabel (fun index => items[index]?.getD .null) ∧
      Entry.starts own.log <+: List.range items.length ∧
      own.Logs (· < ·) (List.range items.length) wait 0 ∧
      ∃ first error lowest error', FirstFailure transform items wait first error ∧
        LowestFailure transform items lowest error' ∧
        (items.length ≤ 30 → report.EndsWithFailure (wait first) error) ∧
        (30 < items.length →
          report.EndsWithFailure ((Finset.range (lowest + 1)).sup wait) error') ∧
        (report.EndsWithFailure (wait first) error ↔
          items.length ≤ 30 ∨ ∀ index ≤ lowest, wait index ≤ wait first) := by
  intro wait report own
  have shown : report = own.relabel fun index => items[index]?.getD .null :=
    report_lift transform items key delays
  have length : (finishes transform items wait).length = items.length := List.length_mapIdx
  -- there is an earliest failure, and one of the lowest index
  obtain ⟨index, error, fails⟩ := fails
  obtain ⟨element, at_index, fails⟩ := (failsAt_iff wait).mp fails
  have member := List.mem_of_getElem? at_index
  obtain ⟨earliest, raced, -⟩ := Finish.race_le member fails
  obtain ⟨first, isFirst, first_time⟩ := firstFailure_of_race raced
  obtain ⟨nearest, inTurn⟩ : ∃ nearest, Finish.inTurn (finishes transform items wait) =
      some nearest := by
    refine Option.ne_none_iff_exists'.mp fun none => ?_
    cases (Finish.inTurn_eq_none.mp none element member).symm.trans fails
  obtain ⟨lowest, isLowest, lowest_time⟩ := lowestFailure_of_inTurn inTurn
  have small (short : items.length ≤ 30) : report.EndsWithFailure (wait first) earliest.error := by
    rw [shown, ← first_time]
    have counts : Finish.failure? (finishes transform items wait) = some earliest :=
      (if_pos (length.trans_le short)).trans raced
    exact (indexed_ends transform items delays counts).relabel _
  have large (long : 30 < items.length) :
      report.EndsWithFailure ((Finset.range (lowest + 1)).sup wait) nearest.error := by
    rw [shown, ← lowest_time]
    have counts : Finish.failure? (finishes transform items wait) = some nearest :=
      (if_neg (Nat.not_le.mpr (length.symm ▸ long))).trans inTurn
    exact (indexed_ends transform items delays counts).relabel _
  refine ⟨shown, starts_indexed transform items delays, indexed_logs transform items delays,
    first, earliest.error, lowest, nearest.error, isFirst, isLowest, small, large, ?_⟩
  by_cases short : items.length ≤ 30
  · exact iff_of_true (small short) (.inl short)
  · have long := large (Nat.not_le.mp short)
    rw [or_iff_right short]
    constructor
    · intro asFirst index le
      rw [← asFirst.elapsed, long.elapsed]
      exact Finset.le_sup (Finset.mem_range_succ_iff.mpr le)
    · intro within
      obtain ⟨rfl, same⟩ := isFirst.eq_of_lowest isLowest (within lowest (Nat.le_refl _))
      rw [← same]
      convert long using 1
      refine Nat.le_antisymm (Finset.le_sup (Finset.self_mem_range_succ _)) ?_
      exact Finset.sup_le fun index member => within index (Finset.mem_range_succ_iff.mp member)

open ArrayStrategy in
/-- Two of three elements fail. The second one fails first, and ends the lift. -/
theorem short_lift_ends_with_second_failure :
    let refusals : List Transform :=
      [.failIf (.equals (.int (-1))) "slow", .failIf .negative "fast"]
    let transform := (Transform.seq refusals).run
    let items : List Doc := [.int (-1), .int (-2), .int 1]
    let lift := ArrayStrategy.each.lift "rows" (deferredLeaf transform) (.arr items)
    FailsAt transform items 1 (.transform "fast") ∧
      (lift.report [5, 1, 7]).EndsWithFailure 1 (.transform "fast") := by
  intro refusals transform items lift
  have fails : FailsAt transform items 1 (.transform "fast") := ⟨.int (-2), rfl, by decide +kernel⟩
  have isFirst : FirstFailure transform items (waitOf [5, 1, 7]) 1 (.transform "fast") :=
    .of_shortest fails (by decide)
  obtain ⟨-, -, -, first, error, -, -, isFirst', -, short, -⟩ :=
    lift_ends_with_first_failure_unless_long "rows" transform items [5, 1, 7] ⟨1, _, fails⟩
  obtain ⟨rfl, rfl⟩ := isFirst.unique isFirst'
  exact ⟨fails, short (by decide)⟩

open ArrayStrategy in
/-- Two of thirty-one elements fail. The second one fails first, and still the lift goes on until
the first one fails. -/
theorem long_lift_outlasts_first_failure :
    let refusals : List Transform :=
      [.failIf (.equals (.int (-1))) "slow", .failIf .negative "fast"]
    let transform := (Transform.seq refusals).run
    let items : List Doc := [.int (-1), .int (-2)] ++ List.replicate 29 (.int 1)
    let delays := [5, 1] ++ List.replicate 29 7
    let lift := ArrayStrategy.each.lift "rows" (deferredLeaf transform) (.arr items)
    FirstFailure transform items (waitOf delays) 1 (.transform "fast") ∧ waitOf delays 1 = 1 ∧
      ¬ (lift.report delays).EndsWithFailure 1 (.transform "fast") ∧
      (lift.report delays).elapsed = 5 ∧
      (lift.report delays).result = some (.error (.transform "slow")) ∧
      .call (.ended (.int (-1)) 5) ∈ (lift.report delays).log := by
  intro refusals transform items delays lift
  have fails : FailsAt transform items 1 (.transform "fast") := ⟨.int (-2), rfl, by decide +kernel⟩
  have elapsed : (lift.report delays).elapsed = 5 := by decide +kernel
  refine ⟨.of_shortest fails (by decide +kernel), by decide, fun ends => ?_, elapsed,
    by decide +kernel, by decide +kernel⟩
  cases elapsed.symm.trans ends.elapsed

end Waypoint
