import Mathlib
import Waypoint.Limit.Timeline
import Waypoint.Proofs.Limit.Shown

/-!
# A timeline step by step

While no join fails, the rounds of a bounded run are made of three steps: a turn is taken, the clock
moves where nothing else is left to do, and the pool takes an ended task and refills. What each of
the steps keeps, a run keeps.
-/

namespace Waypoint

namespace Timeline

variable {V ε : Type}

/-- The steps of a pool with its timeline. -/
inductive Step : Pool V ε × Timeline V ε → Pool V ε × Timeline V ε → Prop
  | turn {pool timeline turn rest} (line : timeline.line = turn :: rest) :
      Step (pool, timeline) (pool, { timeline with line := rest }.takeTurn turn)
  | advance {pool timeline time} (line : timeline.line = []) (ended : timeline.ended = [])
      (next : timeline.nextEnd? = some time) :
      Step (pool, timeline) (pool, timeline.advanceTo time)
  | join {pool next timeline task rest} (ended : timeline.ended = task :: rest)
      (joined : pool.join task.index task.completion = .ok next) :
      Step (pool, timeline) (refill next { timeline with ended := rest })

def Steps : Pool V ε × Timeline V ε → Pool V ε × Timeline V ε → Prop :=
  Relation.ReflTransGen Step

variable {pool next : Pool V ε} {timeline after : Timeline V ε}

theorem takeTurns_steps (count : Nat) (pool : Pool V ε) (timeline : Timeline V ε) :
    Steps (pool, timeline) (pool, timeline.takeTurns count) := by
  induction count generalizing timeline with
  | zero => exact .refl
  | succ count ih =>
      cases line : timeline.line with
      | nil =>
          have same : timeline.takeTurns (count + 1) = timeline := by
            obtain ⟨now, list, asleep, ended, log⟩ := timeline
            obtain rfl := line
            rfl
          rw [same]
          exact .refl
      | cons turn rest =>
          rw [takeTurns_succ count line]
          exact .head (.turn line) (ih _)

/-- Joins that do not fail are steps, and leave no ended task behind. -/
theorem joinEnded_steps (list : List (Timed V ε)) (idle : timeline.ended = [])
    (joined : joinEnded list pool timeline = (.ok next, after)) :
    Steps (pool, { timeline with ended := list }) (next, after) ∧ after.ended = [] := by
  induction list generalizing pool timeline with
  | nil =>
      obtain ⟨same, rfl⟩ := Prod.mk.inj joined
      obtain rfl := Except.ok.inj same
      obtain ⟨now, line, asleep, ended, log⟩ := timeline
      obtain rfl := idle
      exact ⟨.refl, rfl⟩
  | cons task rest ih =>
      simp only [joinEnded] at joined
      split at joined
      · cases (Prod.mk.inj joined).1
      · rename_i taken ok
        have empty : (refill taken timeline).2.ended = [] := idle
        obtain ⟨steps, still⟩ := ih empty joined
        exact ⟨.head (.join rfl ok) steps, still⟩

/-- Rounds without a failure are steps. -/
theorem settle_steps (rounds : Nat) (idle : timeline.ended = [])
    (settled : settle rounds pool timeline = (.ok next, after)) :
    Steps (pool, timeline) (next, after) := by
  induction rounds generalizing pool timeline with
  | zero =>
      obtain ⟨same, rfl⟩ := Prod.mk.inj settled
      obtain rfl := Except.ok.inj same
      exact .refl
  | succ rounds ih =>
      rw [settle] at settled
      split at settled
      · obtain ⟨same, rfl⟩ := Prod.mk.inj settled
        obtain rfl := Except.ok.inj same
        exact .refl
      split at settled
      · rename_i none
        have line : timeline.line = [] := List.isEmpty_iff.mp none
        unfold advance at settled
        split at settled
        · exact ih idle settled
        · rename_i time least
          exact .head (.advance line idle least) (ih idle settled)
      · simp only at settled
        split at settled
        · cases (Prod.mk.inj settled).1
        · rename_i taken later joined
          obtain ⟨joins, still⟩ := joinEnded_steps _ rfl joined
          exact ((takeTurns_steps batch pool timeline).trans joins).trans (ih still settled)

end Timeline

end Waypoint
