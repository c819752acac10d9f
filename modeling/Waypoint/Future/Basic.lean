import Waypoint.Strategy.Answer

/-!
# Futures

A future is a computation that has not begun: it does nothing until it is started. It may call back,
which takes some time, and it may join any number of futures of its own. Which value or failure it
comes to does not depend on time unless several of its callbacks fail; `Future.outcome` is the one
it comes to when nothing ever waits.
-/

namespace Waypoint

/-- A computation over documents whose callbacks are labelled by `L`. -/
inductive Future (L : Type) where
  | done (value : Doc)
  | fail (error : PathError)
  /-- A callback, the notices it gives at its end, and what comes after it. -/
  | call (label : L) (notices : List Notice) (next : Future L)
  /-- Futures that run side by side, and what comes after them when all have a value. -/
  | join (children : List (Future L)) (next : List Doc → Future L)

namespace Future

variable {L : Type}

/-- A future, and what to do with its value. -/
def andThen (k : Doc → Future L) : Future L → Future L
  | done value => k value
  | fail error => fail error
  | call label notices next => call label notices (next.andThen k)
  | join children next => join children fun values => (next values).andThen k

instance : Answer (Future L) where
  value := done
  failure := fail
  andThen first next := first.andThen next
  gather := join

theorem andThen_done : (future : Future L) → future.andThen done = future
  | done _ => rfl
  | fail _ => rfl
  | call label notices next => congrArg (call label notices) (andThen_done next)
  | join children next => congrArg (join children) (funext fun values => andThen_done (next values))

theorem andThen_assoc (k last : Doc → Future L) : (future : Future L) →
    (future.andThen k).andThen last = future.andThen fun value => (k value).andThen last
  | done _ => rfl
  | fail _ => rfl
  | call label notices next => congrArg (call label notices) (andThen_assoc k last next)
  | join children next =>
    congrArg (join children) (funext fun values => andThen_assoc k last (next values))

instance : LawfulAnswer (Future L) where
  value_andThen _ _ := rfl
  andThen_value := andThen_done
  andThen_assoc future k last := future.andThen_assoc k last

def ofResult : Except PathError Doc → Future L
  | .ok value => done value
  | .error error => fail error

/-- A callback that comes to the result of a trace and gives its notices. -/
def callback (label : L) (trace : Trace Notice Doc) : Future L :=
  call label trace.log (ofResult trace.result)

mutual

/-- What a future comes to when nothing waits: among several failures of a join the one of the
lowest index counts. -/
def outcome : Future L → Except PathError Doc
  | done value => .ok value
  | fail error => .error error
  | call _ _ next => next.outcome
  | join children next =>
    match outcomes children with
    | .ok values => (next values).outcome
    | .error error => .error error

/-- The values of all futures, or the failure of the first one that fails. -/
def outcomes : List (Future L) → Except PathError (List Doc)
  | [] => .ok []
  | child :: rest =>
    match child.outcome with
    | .error error => .error error
    | .ok value =>
      match outcomes rest with
      | .error error => .error error
      | .ok values => .ok (value :: values)

end

theorem outcome_andThen (k : Doc → Future L) : (future : Future L) →
    (future.andThen k).outcome = future.outcome.bind fun value => (k value).outcome
  | done _ => by simp [andThen, outcome, Except.bind]
  | fail _ => by simp [andThen, outcome, Except.bind]
  | call _ _ next => by simp [andThen, outcome, outcome_andThen k next]
  | join children next => by
    simp only [andThen, outcome]
    cases outcomes children with
    | error _ => rfl
    | ok values => exact outcome_andThen k (next values)

mutual

/-- A bound on the steps that a future takes to its end. A callback takes three at most: it is put
on the clock, its wait ends and it returns. A join takes one at its start and one at its end, and
goes on with what comes after it when all children have a value. -/
def size : Future L → Nat
  | done _ => 1
  | fail _ => 1
  | call _ _ next => next.size + 3
  | join children next =>
    sizes children +
      (match outcomes children with
      | .ok values => (next values).size
      | .error _ => 0) + 2

def sizes : List (Future L) → Nat
  | [] => 0
  | child :: rest => child.size + sizes rest

end

end Future

end Waypoint
