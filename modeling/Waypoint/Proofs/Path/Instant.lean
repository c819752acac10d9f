import Mathlib
import Waypoint.Proofs.Future.Instant
import Waypoint.Proofs.Future.Starts

/-!
# An access in which nothing waits

Where no callback waits, an access by a future does what the immediate access does, step for step:
it hands the same leaves to the transform in the same order, reports the same failure of several,
and is over as soon as it was asked.
-/

namespace Waypoint

namespace Recorded

variable {ε κ μ α β : Type}

/-- The same result with each line of the record replaced by some lines. -/
def expandLog (f : κ → List μ) (trace : Recorded ε κ α) : Recorded ε μ α :=
  ⟨trace.log.flatMap f, trace.result⟩

theorem expandLog_andThen (f : κ → List μ) (first : Recorded ε κ α) (next : α → Recorded ε κ β) :
    (first.andThen next).expandLog f =
      (first.expandLog f).andThen fun value => (next value).expandLog f := by
  obtain ⟨log, result⟩ := first
  cases result <;> simp [andThen, expandLog]

theorem expandLog_sequence (f : κ → List μ) (traces : List (Recorded ε κ α)) :
    (sequence traces).expandLog f = sequence (traces.map (expandLog f)) := by
  induction traces with
  | nil => rfl
  | cons first rest ih =>
      rw [sequence, List.map_cons, sequence, expandLog_andThen, ← ih]
      congr 1
      funext value
      exact expandLog_andThen f (sequence rest) _

/-- Only the record changes. -/
theorem expandLog_translation (f : κ → List μ) :
    Translation (expandLog f : Trace κ Doc → Trace μ Doc) where
  value := fun _ => rfl
  failure := fun _ => rfl
  andThen := expandLog_andThen f
  gather := by
    intro traces next
    show ((sequence traces).andThen next).expandLog f = _
    rw [expandLog_andThen, expandLog_sequence]
    rfl

end Recorded

namespace PathCall

/-- A leaf call at one instant: a callback starts and ends. -/
def atOnce : Entry PathCall → List (Entry (CallEvent Doc))
  | .call (.leaf doc) => [.call (.started doc 0), .call (.ended doc 0)]
  | .call (.enter _) => []
  | .call (.leave _ _) => []
  | .notice notice => [.notice notice]

/-- The leaf of a leaf call. -/
def leaf? : Entry PathCall → Option Doc
  | .call (.leaf doc) => some doc
  | .call (.enter _) => none
  | .call (.leave _ _) => none
  | .notice _ => none

/-- A callback starts for each leaf call. -/
theorem starts_flatMap_atOnce (log : List (Entry PathCall)) :
    Entry.starts (log.flatMap atOnce) = log.filterMap leaf? := by
  induction log with
  | nil => rfl
  | cons line rest ih =>
      rw [List.flatMap_cons, Entry.starts_append, ih]
      match line with
      | .call (.leaf _) | .call (.enter _) | .call (.leave _ _) | .notice _ => rfl

end PathCall

/-- A leaf does the same in both ways: it hands its document to the transform. -/
theorem trace_deferredLeaf (transform : Doc → Trace Notice Doc) (doc : Doc) :
    (deferredLeaf transform doc).trace 0 =
      (recordedLeaf transform doc).expandLog PathCall.atOnce := by
  have notices (log : List Notice) :
      ((log.map .notice : List (Entry PathCall)).flatMap PathCall.atOnce) = log.map .notice := by
    induction log with
    | nil => rfl
    | cons notice rest ih => exact congrArg (.notice notice :: ·) ih
  rw [deferredLeaf, Future.callback, Future.trace, recordedLeaf]
  generalize transform doc = ended
  obtain ⟨log, result⟩ := ended
  cases result <;>
    simp [Future.ofResult, Future.trace, Recorded.fail, Recorded.record, Recorded.andThen,
      Recorded.mapLog, Recorded.expandLog, PathCall.atOnce, notices]

theorem CompiledPath.trace_accessLater (compiled : CompiledPath)
    (transform : Doc → Trace Notice Doc) (root : Doc) :
    (compiled.accessLater transform root).trace 0 =
      (compiled.access transform root).expandLog PathCall.atOnce := by
  unfold accessLater access
  rw [(Future.trace_translation 0).accessor, (Recorded.expandLog_translation _).accessor,
    funext (trace_deferredLeaf transform)]

/-- Where no callback waits, an access by a future has finished as soon as it was asked, with the
result of the immediate access, and hands the same leaves to the transform in the same order. The
records are the same, each leaf call being the start and the end of a callback at time 0. -/
theorem access_is_immediate_without_waits (compiled : CompiledPath)
    (transform : Doc → Trace Notice Doc) (root : Doc) (delays : List Nat)
    (idle : ∀ n, waitOf delays n = 0) :
    let access := compiled.access transform root
    let later := compiled.accessLater transform root
    let first := Running.poll later.size (.fresh later) (World.fresh delays)
    let report := later.report delays
    first.running = .finished access.result ∧ first.world.log = report.log ∧
      report.result = some access.result ∧ report.elapsed = 0 ∧
      Entry.starts report.log = access.log.filterMap PathCall.leaf? ∧
      report.log = access.log.flatMap PathCall.atOnce := by
  intro access later first report
  have same : later.trace 0 = access.expandLog PathCall.atOnce :=
    compiled.trace_accessLater transform root
  obtain ⟨started, visit⟩ := Running.poll_fresh later.size later (Nat.le_refl _)
    (World.fresh delays) idle
  have ended : report = ⟨some access.result, access.log.flatMap PathCall.atOnce, 0⟩ := by
    rw [show report = _ from Future.report_of_idle later delays idle, same]
    rfl
  have asked : first = ⟨.finished (later.trace 0).result,
      (World.fresh delays).recording (later.trace 0).log started, false⟩ := visit
  rw [same] at asked
  rw [asked, ended]
  refine ⟨rfl, rfl, rfl, rfl, ?_, rfl⟩
  exact PathCall.starts_flatMap_atOnce access.log

/-- A join with a queue: of the second row, which the transform refuses, and the third one, which is
no object, the second one is reported, and no leaf after it is handed to the transform. -/
theorem access_to_long_array_is_immediate :
    let compiled : CompiledPath := ⟨Path.parse "rows[].n", .update⟩
    let transform := (Transform.failIf (.hasKind .string) "text").run
    let row (value : Doc) := Doc.obj [("n", value)]
    let rows := [row (.int 1), row (.str "x"), .null] ++ List.replicate 30 (row (.int 2))
    let report := (compiled.accessLater transform (.obj [("rows", .arr rows)])).report [0, 0]
    (∀ n, waitOf [0, 0] n = 0) ∧ report.result = some (.error (.transform "text")) ∧
      report.elapsed = 0 ∧ Entry.starts report.log = [.int 1, .str "x"] := by
  intro compiled transform row rows report
  have idle : ∀ n, waitOf [0, 0] n = 0 := by
    intro n
    have cases : n % 2 = 0 ∨ n % 2 = 1 := Nat.mod_two_eq_zero_or_one n
    rw [waitOf]
    rcases cases with even | odd
    · simp [even, boundedWait]
    · simp [odd, boundedWait]
  obtain ⟨-, -, result, elapsed, starts, -⟩ := access_is_immediate_without_waits compiled transform
    (.obj [("rows", .arr rows)]) [0, 0] idle
  refine ⟨idle, result.trans ?_, elapsed, starts.trans ?_⟩
  · decide +kernel
  · decide +kernel

end Waypoint
