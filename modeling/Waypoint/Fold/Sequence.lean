import Waypoint.Fold.Basic

/-!
# Folds over a whole list

Two uses of the fold: `flow` maps a function over a list, one element after another, and
`takeWhileRight` finds the longest end of a list on which a predicate holds. Both need no more
rounds than the list has elements.
-/

namespace Waypoint

variable {α β γ ε : Type}

/-- The run with its result changed; only its steps stay on record. -/
def Fold.Run.map (f : β → γ) (run : Fold.Run α β ε) : Fold.Run α γ ε where
  result := run.result.map f
  log := run.log.filterMap fun
    | .call (.step event) => some (.call (.step event))
    | .call _ => none
    | .notice notice => some (.notice notice)
  elapsed := run.elapsed

/-- The fold that collects the results of a function up to the index `last`. -/
def collect (f : α → Recorded ε Notice β) (last : Nat) : Fold α (List β) ε where
  goesOn _ index _ := index < last
  next index := index + 1
  step collected element := (f element).andThen fun result => pure (collected ++ [result])

/-- Maps a function over a list in order, each call after the one before; the first failure ends
it. -/
def flow (f : α → Recorded ε Notice β) (waits : Nat → Nat) (list : List α) :
    Option (Fold.Run α (List β) ε) :=
  (collect f (list.length - 1)).run waits list list.length 0 []

/-- The fold that collects elements backwards while a predicate holds, and keeps its last answer. -/
def collectBack (judge : α → Recorded ε Notice Bool) : Fold α (Bool × List α) ε where
  goesOn _ index accumulator := 0 < index && accumulator.1
  next index := index - 1
  step accumulator element := (judge element).andThen fun passes =>
    pure (passes, if passes then element :: accumulator.2 else accumulator.2)

/-- The longest end of a list whose elements all pass a predicate. The elements are looked at from
the last one backwards, up to the first one that does not pass. -/
def takeWhileRight (judge : α → Recorded ε Notice Bool) (waits : Nat → Nat) (list : List α) :
    Option (Fold.Run α (List α) ε) :=
  match list.length with
  | 0 => some ⟨.ok [], [], 0⟩
  | last + 1 =>
    ((collectBack judge).run waits list list.length last (true, [])).map (Fold.Run.map Prod.snd)

end Waypoint
