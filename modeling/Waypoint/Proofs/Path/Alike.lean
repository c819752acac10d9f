import Mathlib
import Waypoint.Trace

/-!
# Traces that go the same way

Two traces are alike when they have the same record and end in the same way: both with the same
failure, or both with a value, where the two values are related (`Recorded.Alike`). Traces that are
put together from traces that are alike are alike, so two accessors with the same stages are
compared stage by stage.
-/

namespace Waypoint

namespace Recorded

variable {ε κ α β γ δ : Type}

/-- The same record, and the same failure or related values. -/
inductive Alike (related : α → β → Prop) : Recorded ε κ α → Recorded ε κ β → Prop
  | ok {log : List κ} {first : α} {second : β} (values : related first second) :
      Alike related ⟨log, .ok first⟩ ⟨log, .ok second⟩
  | error {log : List κ} {error : ε} :
      Alike related ⟨log, .error error⟩ ⟨log, .error error⟩

namespace Alike

variable {related : α → β → Prop} {first : Recorded ε κ α} {second : Recorded ε κ β}

theorem log_eq (alike : Alike related first second) : first.log = second.log := by
  cases alike <;> rfl

theorem error_iff (alike : Alike related first second) (error : ε) :
    first.result = .error error ↔ second.result = .error error := by
  cases alike <;> simp

theorem values (alike : Alike related first second) {a : α} {b : β}
    (left : first.result = .ok a) (right : second.result = .ok b) : related a b := by
  cases alike with
  | ok values =>
      obtain rfl := Except.ok.inj left
      obtain rfl := Except.ok.inj right
      exact values
  | error => cases left

theorem exists_value (alike : Alike related first second) {a : α} (ok : first.result = .ok a) :
    ∃ b, second.result = .ok b ∧ related a b := by
  cases alike with
  | ok values =>
      obtain rfl := Except.ok.inj ok
      exact ⟨_, rfl, values⟩
  | error => cases ok

theorem refl {related : α → α → Prop} (same : ∀ value, related value value)
    (trace : Recorded ε κ α) : Alike related trace trace := by
  obtain ⟨log, result⟩ := trace
  cases result with
  | ok value => exact .ok (same value)
  | error error => exact .error

/-- More in front of both records. -/
theorem prepend (alike : Alike related first second) (log : List κ) :
    Alike related ⟨log ++ first.log, first.result⟩ ⟨log ++ second.log, second.result⟩ := by
  cases alike with
  | ok values => exact .ok values
  | error => exact .error

theorem andThen {later : γ → δ → Prop} {next : α → Recorded ε κ γ} {next' : β → Recorded ε κ δ}
    (alike : Alike related first second)
    (after : ∀ a b, related a b → Alike later (next a) (next' b)) :
    Alike later (first.andThen next) (second.andThen next') := by
  cases alike with
  | error => exact .error
  | ok values => exact (after _ _ values).prepend _

theorem sequence {firsts : List (Recorded ε κ α)} {seconds : List (Recorded ε κ β)}
    (alike : List.Forall₂ (Alike related) firsts seconds) :
    Alike (List.Forall₂ related) (Recorded.sequence firsts) (Recorded.sequence seconds) := by
  induction alike with
  | nil => exact .ok .nil
  | cons first rest ih =>
      refine first.andThen fun a b head => ?_
      refine ih.andThen fun as bs tail => ?_
      exact .ok (.cons head tail)

end Alike

end Recorded

end Waypoint
