import Waypoint.Error
import Waypoint.Notice

/-!
# Traces

A trace is the result of a computation that may fail, with the record of what it did on the way.
Running one trace after another joins the records; after a failure nothing more is recorded. Any
type may stand for the errors (`Recorded`); the traces of paths fail with the errors of paths
(`Trace`).
-/

namespace Waypoint

/-- A result with its record. Failures are errors `ε`, and lines of the record are `κ`. -/
structure Recorded (ε κ α : Type) where
  log : List κ
  result : Except ε α

namespace Recorded

variable {ε κ μ α β : Type}

def fail (error : ε) : Recorded ε κ α :=
  ⟨[], .error error⟩

/-- One trace after another: a failure ends it. -/
def andThen (first : Recorded ε κ α) (next : α → Recorded ε κ β) : Recorded ε κ β :=
  match first.result with
  | .ok value => ⟨first.log ++ (next value).log, (next value).result⟩
  | .error error => ⟨first.log, .error error⟩

instance : Monad (Recorded ε κ) where
  pure value := ⟨[], .ok value⟩
  bind := andThen

@[simp] theorem log_pure (value : α) : (pure value : Recorded ε κ α).log = [] := rfl

@[simp] theorem result_pure (value : α) : (pure value : Recorded ε κ α).result = .ok value := rfl

@[simp] theorem andThen_pure (trace : Recorded ε κ α) : trace.andThen pure = trace := by
  obtain ⟨log, result⟩ := trace
  cases result <;> simp [andThen]

@[simp] theorem pure_andThen (value : α) (next : α → Recorded ε κ β) :
    (pure value : Recorded ε κ α).andThen next = next value := by
  simp [andThen]

theorem andThen_assoc {γ : Type} (first : Recorded ε κ α) (second : α → Recorded ε κ β)
    (third : β → Recorded ε κ γ) :
    (first.andThen second).andThen third = first.andThen fun value =>
      (second value).andThen third := by
  obtain ⟨log, result⟩ := first
  cases result with
  | error error => rfl
  | ok value =>
    simp only [andThen]
    split <;> simp

theorem result_andThen (first : Recorded ε κ α) (next : α → Recorded ε κ β) :
    (first.andThen next).result = first.result.bind fun value => (next value).result := by
  obtain ⟨log, result⟩ := first
  cases result <;> rfl

theorem andThen_of_ok {first : Recorded ε κ α} {next : α → Recorded ε κ β} {value : α}
    (ok : first.result = .ok value) :
    first.andThen next = ⟨first.log ++ (next value).log, (next value).result⟩ := by
  simp only [andThen, ok]

theorem andThen_of_error {first : Recorded ε κ α} {next : α → Recorded ε κ β} {error : ε}
    (fails : first.result = .error error) : first.andThen next = ⟨first.log, .error error⟩ := by
  simp only [andThen, fails]

/-- A line of its own in the record. -/
def record (line : κ) : Recorded ε κ Unit :=
  ⟨[line], .ok ()⟩

/-- The same result with each line of the record changed. -/
def mapLog (f : κ → μ) (trace : Recorded ε κ α) : Recorded ε μ α :=
  ⟨trace.log.map f, trace.result⟩

/-- All results in order; the first failure ends it. -/
def sequence : List (Recorded ε κ α) → Recorded ε κ (List α)
  | [] => pure []
  | first :: rest => first.andThen fun value => (sequence rest).andThen fun values =>
      pure (value :: values)

/-- Where each of them has a value nothing is left out. -/
theorem sequence_map_of_ok {f : β → Recorded ε κ α} (value : β → α)
    (ok : ∀ b, (f b).result = .ok (value b)) (list : List β) :
    sequence (list.map f) = ⟨list.flatMap fun b => (f b).log, .ok (list.map value)⟩ := by
  induction list with
  | nil => rfl
  | cons b rest ih =>
    rw [List.map_cons, sequence, andThen_of_ok (ok b), ih, List.flatMap_cons]
    simp [andThen]

def ok (trace : Recorded ε κ α) : Bool :=
  match trace.result with
  | .ok _ => true
  | .error _ => false

/-- The same trace with null in the place of a failure. -/
def orNull (trace : Recorded ε κ Doc) : Recorded ε κ Doc :=
  match trace.result with
  | .ok _ => trace
  | .error _ => ⟨trace.log, .ok .null⟩

def value (trace : Recorded ε κ Doc) : Doc :=
  match trace.result with
  | .ok value => value
  | .error _ => .null

end Recorded

/-- A trace that fails with the errors of paths. -/
abbrev Trace (κ : Type) : Type → Type :=
  Recorded PathError κ

/-- A result that needed nothing worth recording. -/
def Trace.ofResult {κ α : Type} (result : Except PathError α) : Trace κ α :=
  ⟨[], result⟩

end Waypoint
