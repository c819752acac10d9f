import Waypoint.Proofs.Future.Accounts
import Waypoint.Proofs.Future.Relabel

/-!
# The records of runs in turn

The books of a run leave on record when each of its callbacks starts and ends (`Report.Logs`). Runs
that follow one another have separate records and go on with the list of waiting times where the run
before left off, so a callback waits by its place among all that start
(`Future.runInTurn_logs`).
-/

namespace Waypoint

variable {L M : Type}

namespace Future

/-! ## Other labels -/

mutual

theorem labels_relabel (f : L → M) : (future : Future L) →
    (future.relabel f).labels = future.labels.map f
  | done _ => by rw [relabel, labels, labels, List.map_nil]
  | fail _ => by rw [relabel, labels, labels, List.map_nil]
  | call _ _ _ => by rw [relabel, labels, labels, List.map_singleton]
  | join children _ => by
      rw [relabel, labels, labels]
      exact allLabels_relabel f children

theorem allLabels_relabel (f : L → M) : (children : List (Future L)) →
    allLabels (relabelAll f children) = (allLabels children).map f
  | [] => rfl
  | child :: rest => by
      rw [relabelAll, allLabels, allLabels, labels_relabel f child, allLabels_relabel f rest,
        List.map_append]

end

mutual

theorem nesting_relabel (f : L → M) : (future : Future L) →
    (future.relabel f).nesting = future.nesting
  | done _ => by rw [relabel, nesting, nesting]
  | fail _ => by rw [relabel, nesting, nesting]
  | call _ _ _ => by rw [relabel, nesting, nesting]
  | join children _ => by
      rw [relabel, nesting, nesting, deepest_relabel f children, relabelAll_eq_map,
        List.length_map]

theorem deepest_relabel (f : L → M) : (children : List (Future L)) →
    deepest (relabelAll f children) = deepest children
  | [] => rfl
  | child :: rest => by
      rw [relabelAll, deepest, deepest, nesting_relabel f child, deepest_relabel f rest]

end

theorem Traversal.relabel {future : Future L} (traversal : future.Traversal) (f : L → M) :
    (future.relabel f).Traversal := by
  induction traversal with
  | atOnce result =>
      rw [relabel_ofResult]
      exact .atOnce result
  | call label notices result =>
      rw [Future.relabel, relabel_ofResult]
      exact .call (f label) notices result
  | join rebuild each ih =>
      simp only [Future.relabel, relabelAll_eq_map]
      exact .join rebuild (List.forall_mem_map.mpr ih)

/-- A traversal stays arranged with other labels. -/
theorem Arranged.relabel {before : M → M → Prop} {f : L → M} {future : Future L}
    (arranged : future.Arranged fun label later => before (f label) (f later)) :
    (future.relabel f).Arranged before := by
  induction arranged with
  | atOnce result =>
      rw [relabel_ofResult]
      exact .atOnce result
  | call label notices result =>
      rw [Future.relabel, relabel_ofResult]
      exact .call (f label) notices result
  | @join children rebuild each apart ih =>
      simp only [Future.relabel, relabelAll_eq_map]
      refine .join rebuild (List.forall_mem_map.mpr ih) (List.pairwise_map.mpr (apart.imp ?_))
      intro one other apart label member later member'
      rw [labels_relabel] at member member'
      obtain ⟨label, own, rfl⟩ := List.mem_map.mp member
      obtain ⟨later, own', rfl⟩ := List.mem_map.mp member'
      rw [nesting_relabel]
      exact apart label own later own'

end Future

/-! ## Records -/

/-- What a run leaves on record that begins at a time and has some callbacks to start, given how
long each of them waits and which may start before which. -/
structure Report.Logs (before : L → L → Prop) (labels : List L) (wait : L → Nat) (begin : Nat)
    (report : Report L) : Prop where
  atOnce : ∀ label time, .call (.started label time) ∈ report.log → time = begin
  inOrder : (Entry.starts report.log).Pairwise before
  startsOnce : (Entry.starts report.log).Nodup
  own : Entry.starts report.log ⊆ labels
  endsOnce : (Entry.ends report.log).Nodup
  onTime : ∀ label time, .call (.ended label time) ∈ report.log →
    label ∈ Entry.starts report.log ∧ time = begin + wait label ∧ time ≤ report.elapsed
  /-- Where the run comes to a value, nothing is missing. -/
  complete : ∀ value, report.result = some (.ok value) →
    (Entry.starts report.log).Perm labels ∧
      (Entry.ends report.log).Perm (Entry.starts report.log) ∧
      report.elapsed = begin + ((Entry.starts report.log).map wait).max?.getD 0

namespace Report.Logs

variable {before before' : L → L → Prop} {labels : List L} {wait wait' : L → Nat} {begin : Nat}
  {report : Report L}

/-- Only the waits of those that start matter. -/
theorem congr (logs : report.Logs before labels wait begin)
    (same : ∀ label ∈ Entry.starts report.log, wait' label = wait label) :
    report.Logs before labels wait' begin where
  atOnce := logs.atOnce
  inOrder := logs.inOrder
  startsOnce := logs.startsOnce
  own := logs.own
  endsOnce := logs.endsOnce
  onTime := by
    intro label time member
    obtain ⟨started, waited, le⟩ := logs.onTime label time member
    exact ⟨started, same label started ▸ waited, le⟩
  complete := by
    intro value ok
    rw [List.map_congr_left same]
    exact logs.complete value ok

/-- Only the order of its own callbacks matters. -/
theorem imp (logs : report.Logs before labels wait begin)
    (implies : ∀ one ∈ labels, ∀ other ∈ labels, before one other → before' one other) :
    report.Logs before' labels wait begin where
  atOnce := logs.atOnce
  inOrder := logs.inOrder.imp_of_mem fun here there =>
    implies _ (logs.own here) _ (logs.own there)
  startsOnce := logs.startsOnce
  own := logs.own
  endsOnce := logs.endsOnce
  onTime := logs.onTime
  complete := logs.complete

/-- What would wait beyond the end of its run is not among those that have ended. -/
theorem notMem_ends (logs : report.Logs before labels wait begin) {label : L}
    (beyond : report.elapsed < begin + wait label) : label ∉ Entry.ends report.log := by
  intro member
  obtain ⟨time, ended⟩ := Entry.mem_ends_iff.mp member
  obtain ⟨-, waited, le⟩ := logs.onTime label time ended
  omega

end Report.Logs

namespace Future

variable [BEq L] [LawfulBEq L] {before : L → L → Prop}

/-- The report of a run in a world with nothing on record. -/
def reportFrom (future : Future L) (world : World L) : Report L :=
  ⟨(future.run world).1, (future.run world).2.log, (future.run world).2.now⟩

theorem waitsTo_iff {log : List (Entry (CallEvent L))} (nodup : (Entry.starts log).Nodup)
    {begin first : Nat} {delays : List Nat} {label : L} {time : Nat} :
    Books.WaitsTo begin first delays log label time ↔ label ∈ Entry.starts log ∧
      time = begin + waitOf delays (first + (Entry.starts log).idxOf label) := by
  constructor
  · rintro ⟨n, at_n, rfl⟩
    obtain ⟨inside, rfl⟩ := List.getElem?_eq_some_iff.mp at_n
    refine ⟨List.getElem_mem inside, ?_⟩
    rw [nodup.idxOf_getElem]
  · rintro ⟨member, rfl⟩
    exact ⟨_, List.getElem?_idxOf member, rfl⟩

omit [BEq L] [LawfulBEq L] in
/-- Where all waits are over the clock stands at the end of the longest one. -/
theorem now_of_ended {wait : L → Nat} {labels : List L} {begin now : Nat}
    (ended : ∀ label ∈ labels, begin + wait label ≤ now)
    (reached : now = begin ∨ ∃ label ∈ labels, now = begin + wait label) :
    now = begin + (labels.map wait).max?.getD 0 := by
  cases longest : (labels.map wait).max? with
  | none =>
      rw [List.max?_eq_none_iff, List.map_eq_nil_iff] at longest
      subst longest
      rcases reached with same | ⟨label, member, -⟩
      · exact same
      · cases member
  | some time =>
      obtain ⟨member, most⟩ := List.max?_eq_some_iff.mp longest
      obtain ⟨last, present, rfl⟩ := List.mem_map.mp member
      have le := ended last present
      show now = begin + wait last
      rcases reached with same | ⟨label, started, same⟩
      · omega
      · have := most _ (List.mem_map.mpr ⟨label, started, rfl⟩)
        omega

/-- A run leaves on record what its books say. -/
theorem reportFrom_logs {future : Future L} (arranged : future.Arranged before)
    (nodup : future.labels.Nodup) {world : World L} (none : world.putOff = [])
    (empty : world.log = []) :
    (future.reportFrom world).Logs before future.labels
      (fun label => waitOf world.delays (world.started +
        (Entry.starts (future.reportFrom world).log).idxOf label)) world.now := by
  have balanced := run_balanced arranged none empty
  have ended := future.run_comesTo world none
  unfold reportFrom
  generalize (future.run world) = run at *
  obtain ⟨result, final⟩ := run
  have starts_le := balanced.starts_le
  have ends_le := balanced.ends_le
  rw [add_zero] at starts_le
  rw [Multiset.map_zero, add_zero] at ends_le
  have once : (Entry.starts final.log).Nodup := Multiset.nodup_of_le starts_le nodup
  constructor
  case atOnce => exact balanced.atOnce
  case inOrder => exact balanced.inOrder
  case startsOnce => exact once
  case own => exact Multiset.subset_of_le starts_le
  case endsOnce => exact Multiset.nodup_of_le ends_le once
  case onTime =>
    intro label time member
    obtain ⟨waited, le⟩ := balanced.ended label time member
    obtain ⟨started, same⟩ := (waitsTo_iff once).mp waited
    exact ⟨started, same, le⟩
  case complete =>
    intro value ok
    obtain ⟨answer, given, comes⟩ := ended
    obtain rfl : Except.ok value = answer := Option.some.inj (ok.symm.trans given)
    have kept : ¬ future.outcome.toOption = .none := fun missing => by
      cases comes.value.trans missing
    obtain ⟨all, every⟩ := balanced.whole kept
    rw [add_zero] at all
    rw [Multiset.map_zero, add_zero] at every
    have finished := Multiset.coe_eq_coe.mp every
    refine ⟨Multiset.coe_eq_coe.mp all, finished, now_of_ended (fun label started => ?_) ?_⟩
    · obtain ⟨time, member⟩ := Entry.mem_ends_iff.mp (finished.mem_iff.mpr started)
      obtain ⟨waited, le⟩ := balanced.ended label time member
      exact ((waitsTo_iff once).mp waited).2 ▸ le
    · refine balanced.reached.imp_right fun ⟨label, waited⟩ => ?_
      obtain ⟨started, same⟩ := (waitsTo_iff once).mp waited
      exact ⟨label, started, same⟩

omit [BEq L] [LawfulBEq L] in
/-- The number of callbacks started goes on from what it was. -/
theorem started_run (future : Future L) {world : World L} (empty : world.log = []) :
    (future.run world).2.started =
      world.started + (Entry.starts (future.run world).2.log).length := by
  obtain ⟨-, labels, starts, started⟩ := future.run_precedes world
  rw [starts, started, empty]
  rfl

/-- Runs that follow one another leave on record what their books say, each of them beginning where
the one before it ended. A callback waits by its place among all that start. -/
theorem runInTurn_logs {futures : List (Future L)}
    (arranged : ∀ future ∈ futures, future.Arranged before)
    (nodup : (futures.flatMap labels).Nodup) (world : World L) :
    let reports := runInTurn futures world
    let order := reports.flatMap fun report => Entry.starts report.log
    let wait (label : L) := waitOf world.delays (world.started + order.idxOf label)
    let begins := world.now :: reports.map Report.elapsed
    order ⊆ futures.flatMap labels ∧ order.Nodup ∧
      ∀ (k : Nat) (future : Future L) (report : Report L) (begin : Nat),
        futures[k]? = some future → reports[k]? = some report → begins[k]? = some begin →
        report.Logs before future.labels wait begin := by
  induction futures generalizing world with
  | nil =>
      intro reports order wait begins
      exact ⟨List.nil_subset _, List.nodup_nil, fun k _ _ _ missing => by cases missing⟩
  | cons first rest ih =>
      intro reports order wait begins
      rw [List.forall_mem_cons] at arranged
      rw [List.flatMap_cons, List.nodup_append'] at nodup
      obtain ⟨own, others, disjoint⟩ := nodup
      let report := first.reportFrom world.nextRun
      let world' := (first.run world.nextRun).2
      have logs := reportFrom_logs arranged.1 own (rfl : world.nextRun.putOff = []) rfl
      obtain ⟨inside, once, later⟩ := ih arranged.2 others world'
      have started : world'.started = world.started + (Entry.starts report.log).length :=
        first.started_run rfl
      have delays : world'.delays = world.delays := (first.run_precedes world.nextRun).delays
      let order' := (runInTurn rest world').flatMap fun report => Entry.starts report.log
      have whole : order = Entry.starts report.log ++ order' := rfl
      have apart : ∀ label ∈ order', label ∉ Entry.starts report.log := fun label member here =>
        disjoint (logs.own here) (inside member)
      refine ⟨?_, ?_, fun k future other begin at_future at_report at_begin => ?_⟩
      · rw [whole, List.flatMap_cons]
        exact List.append_subset.mpr ⟨List.subset_append_of_subset_left _ logs.own,
          List.subset_append_of_subset_right _ inside⟩
      · rw [whole, List.nodup_append']
        exact ⟨logs.startsOnce, once, fun label here there => apart label there here⟩
      · cases k with
        | zero =>
            obtain rfl : first = future := Option.some.inj at_future
            obtain rfl : report = other := Option.some.inj at_report
            obtain rfl : world.now = begin := Option.some.inj at_begin
            refine logs.congr fun label member => ?_
            show waitOf world.delays (world.started + order.idxOf label) = _
            rw [whole, List.idxOf_append_of_mem member]
            rfl
        | succ k =>
            refine (later k future other begin at_future at_report at_begin).congr
              fun label member => ?_
            have there : label ∈ order' :=
              List.mem_flatMap.mpr ⟨other, List.mem_of_getElem? at_report, member⟩
            show waitOf world.delays (world.started + order.idxOf label) =
              waitOf world'.delays (world'.started + order'.idxOf label)
            rw [whole, List.idxOf_append_of_notMem (apart label there), started, delays,
              Nat.add_assoc]

end Future

end Waypoint
