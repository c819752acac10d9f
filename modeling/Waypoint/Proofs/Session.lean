import Mathlib
import Waypoint.Session

/-!
# What a session keeps

A step of a session may write the root (`SessionStep.written?`) and may store a path
(`SessionStep.stored?`), and leaves everything else as it is, but for the allowance of the round
(`Session.Leads`). So each step of a run shows the root that was written last. A step that fails
does neither. Where no access waits the allowance does not matter either, and the rest of a run is
as it would be without the step that has failed.
-/

namespace Waypoint

/-- The root that a step writes: that of a reset, or the value of an update that succeeds. -/
def SessionStep.written? : SessionStep → SessionResult → Option Doc
  | .reset root, _ => some root
  | .update _, .answer (.ok value) => some value
  | _, _ => none

/-- The path that a step stores, with its name. -/
def SessionStep.stored? (session : Session) : SessionStep → Option (String × CompiledPath)
  | .compile name compiled => some (name, compiled)
  | .clone name source => (session.path? source).map (name, ·)
  | _ => none

/-- Whether a step has an access that waits. -/
def SessionStep.waits : SessionStep → Bool
  | .read access => access.delays.isSome
  | .update access => access.delays.isSome
  | _ => false

namespace Session

variable {session next : Session} {step : SessionStep} {steps : List SessionStep}
  {report : SessionReport} {reports : List SessionReport}

/-! ## One step -/

/-- A step leads from one session to the next: the root is the one before unless the step writes
one, the path that it stores comes before the others, and the root that it shows is the new one. -/
structure Leads (session : Session) (step : SessionStep) (next : Session)
    (report : SessionReport) : Prop where
  root : next.root = (step.written? report.result).getD session.root
  paths : next.paths = (step.stored? session).toList ++ session.paths
  shown : report.root = next.root

theorem leads_of_step (taken : session.step step = some (next, report)) :
    session.Leads step next report := by
  cases step with
  | compile name compiled | reset root =>
      obtain ⟨rfl, rfl⟩ := Prod.mk.inj (Option.some.inj taken)
      exact ⟨rfl, rfl, rfl⟩
  | clone name source =>
      obtain ⟨compiled, found, same⟩ := Option.map_eq_some_iff.mp taken
      obtain ⟨rfl, rfl⟩ := Prod.mk.inj same
      refine ⟨rfl, ?_, rfl⟩
      rw [SessionStep.stored?, found]
      rfl
  | read access =>
      obtain ⟨done, _, same⟩ := Option.map_eq_some_iff.mp taken
      obtain ⟨rfl, rfl⟩ := Prod.mk.inj same
      exact ⟨rfl, rfl, rfl⟩
  | update access =>
      obtain ⟨done, _, same⟩ := Option.map_eq_some_iff.mp taken
      obtain ⟨rfl, rfl⟩ := Prod.mk.inj same
      refine ⟨?_, rfl, rfl⟩
      cases done.result <;> rfl

/-- A step that fails leaves the root and the paths as they are. -/
theorem step_of_failure {error : PathError} (taken : session.step step = some (next, report))
    (fails : report.result = .answer (.error error)) :
    next.root = session.root ∧ next.paths = session.paths := by
  obtain ⟨root, paths, -⟩ := leads_of_step taken
  rw [root, paths, fails]
  -- only accesses have answers
  cases step with
  | read access | update access => exact ⟨rfl, rfl⟩
  | compile name compiled | reset root =>
      obtain ⟨-, rfl⟩ := Prod.mk.inj (Option.some.inj taken)
      cases fails
  | clone name source =>
      obtain ⟨_, _, same⟩ := Option.map_eq_some_iff.mp taken
      obtain ⟨-, rfl⟩ := Prod.mk.inj same
      cases fails

/-! ## A run -/

theorem run_cons_eq_some : session.run (step :: steps) = some reports ↔
    ∃ next report later, session.step step = some (next, report) ∧
      next.run steps = some later ∧ report :: later = reports := by
  simp [run, Option.bind_eq_some_iff]

/-- The root that a step of a run has written. -/
def rootOf? (taken : SessionStep × SessionReport) : Option Doc :=
  taken.1.written? taken.2.result

/-- The root after some steps of a run: the one that was written last, if any was. -/
def rootAfter (root : Doc) (taken : List (SessionStep × SessionReport)) : Doc :=
  (taken.filterMap rootOf?).getLastD root

theorem rootAfter_cons (root : Doc) (taken : SessionStep × SessionReport)
    (others : List (SessionStep × SessionReport)) :
    rootAfter root (taken :: others) = rootAfter ((rootOf? taken).getD root) others := by
  cases writes : rootOf? taken with
  | none => rw [rootAfter, List.filterMap_cons_none writes, Option.getD_none, rootAfter]
  | some value =>
      rw [rootAfter, List.filterMap_cons_some writes, List.getLastD_cons, Option.getD_some,
        rootAfter]

/-- Every step of a run shows the root that was written last, by the step itself or before it, or
the one from the beginning where none was written. -/
theorem run_shows_last_written_root (ran : session.run steps = some reports) :
    reports.length = steps.length ∧
      ∀ k report, reports[k]? = some report →
        report.root = rootAfter session.root ((steps.zip reports).take (k + 1)) := by
  induction steps generalizing session reports with
  | nil =>
      obtain rfl := Option.some.inj ran
      exact ⟨rfl, fun k report at_k => by cases at_k⟩
  | cons step steps ih =>
      obtain ⟨next, first, later, taken, rest, rfl⟩ := run_cons_eq_some.mp ran
      obtain ⟨root, -, shown⟩ := leads_of_step taken
      obtain ⟨count, roots⟩ := ih rest
      refine ⟨congrArg (· + 1) count, fun k report at_k => ?_⟩
      rw [List.zip_cons_cons, List.take_succ_cons, rootAfter_cons, rootOf?, ← root]
      cases k with
      | zero =>
          obtain rfl := Option.some.inj at_k
          exact shown
      | succ k => exact roots k report at_k

/-- The second update is refused, and the third one goes on from the root before it. -/
example :
    let root (n : Int) := Doc.obj [("n", .int n)]
    let update (transform : Transform) : SessionStep := .update ⟨"n", transform, .fallible, none⟩
    ((Session.new (root 1)).run [.compile "n" ⟨Path.parse "n", .update⟩, update .increment,
      update (.failIf (.hasKind .number) "refused"), update .increment]).map
        (List.map SessionReport.root) = some [root 1, root 2, root 2, root 3] := by
  decide +kernel

/-! ## Steps without waiting -/

section Credit

variable (session) (credit : Nat)

@[simp] theorem path?_credit (name : String) :
    ({ session with credit } : Session).path? name = session.path? name := rfl

/-- An access that does not wait leaves the allowance alone. -/
theorem access?_credit {access : Access} (immediate : access.delays.isSome = false) :
    ({ session with credit } : Session).access? access =
      (session.access? access).map fun done => { done with credit } := by
  obtain ⟨name, transform, totality, delays⟩ := access
  obtain rfl : delays = none := by simpa using immediate
  cases stored : session.path? name <;> simp [access?, stored]

theorem step_credit (immediate : step.waits = false) :
    ({ session with credit } : Session).step step =
      (session.step step).map fun taken => ({ taken.1 with credit }, taken.2) := by
  cases step with
  | compile name compiled | reset root => rfl
  | clone name source =>
      rw [Session.step, Session.step, path?_credit, Option.map_map]
      rfl
  | read access | update access =>
      rw [Session.step, Session.step, access?_credit session credit immediate, Option.map_map,
        Option.map_map]
      rfl

/-- Without accesses that wait the allowance does not matter. -/
theorem run_credit (immediate : ∀ step ∈ steps, step.waits = false) :
    ({ session with credit } : Session).run steps = session.run steps := by
  induction steps generalizing session with
  | nil => rfl
  | cons step steps ih =>
      obtain ⟨first, rest⟩ := List.forall_mem_cons.mp immediate
      rw [run, run, step_credit session credit first]
      cases session.step step with
      | none => rfl
      | some taken =>
          show (({ taken.1 with credit } : Session).run steps).bind _ = _
          rw [ih taken.1 rest]
          rfl

end Credit

/-- Where no access waits the steps after one that fails come to what they would without it. -/
theorem run_after_failure {error : PathError} (taken : session.step step = some (next, report))
    (fails : report.result = .answer (.error error))
    (immediate : ∀ step ∈ steps, step.waits = false) : next.run steps = session.run steps := by
  obtain ⟨root, paths⟩ := step_of_failure taken fails
  have same : next = { session with credit := next.credit } := by
    obtain ⟨_, _, _⟩ := next
    rw [Session.mk.injEq]
    exact ⟨root, paths, rfl⟩
  rw [same]
  exact run_credit session next.credit immediate

/-- Without a step that has failed a run shows the same in all other steps, unless an access after
it waits. -/
theorem run_without_failure {before after : List SessionStep} {error : PathError}
    (ran : session.run (before ++ step :: after) = some reports)
    (there : reports[before.length]? = some report)
    (fails : report.result = .answer (.error error))
    (immediate : ∀ step ∈ after, step.waits = false) :
    session.run (before ++ after) = some (reports.eraseIdx before.length) := by
  induction before generalizing session reports with
  | nil =>
      obtain ⟨next, first, later, taken, rest, rfl⟩ := run_cons_eq_some.mp ran
      obtain rfl := Option.some.inj there
      exact (run_after_failure taken fails immediate).symm.trans rest
  | cons earlier before ih =>
      obtain ⟨next, first, later, taken, rest, rfl⟩ := run_cons_eq_some.mp ran
      exact run_cons_eq_some.mpr ⟨next, first, _, taken, ih rest there, rfl⟩

end Session

end Waypoint
