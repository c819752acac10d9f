import Waypoint.Trace

/-!
# Answers

Strategies are written once and used with and without waiting. What they need of the thing that an
accessor returns is gathered in the class `Answer`: a value, a failure, one answer after another,
and the answers of many elements taken together.
-/

namespace Waypoint

/-- What an accessor may return. -/
class Answer (R : Type) where
  value : Doc → R
  failure : PathError → R
  /-- An answer, and what to do with its value. -/
  andThen : R → (Doc → R) → R
  /-- The answers of many elements, and what to do with their values. -/
  gather : List R → (List Doc → R) → R

/-- Answers that follow one another: it does not matter which of them are taken together first, and
a value on its own adds nothing. -/
class LawfulAnswer (R : Type) [Answer R] : Prop where
  value_andThen (doc : Doc) (next : Doc → R) : Answer.andThen (Answer.value doc) next = next doc
  andThen_value (answer : R) : Answer.andThen answer Answer.value = answer
  andThen_assoc (answer : R) (next last : Doc → R) :
    Answer.andThen (Answer.andThen answer next) last =
      Answer.andThen answer fun doc => Answer.andThen (next doc) last

/-- The answer with a record: the record of the elements ends with the first failure. -/
instance {κ : Type} : Answer (Trace κ Doc) where
  value := pure
  failure := Recorded.fail
  andThen := Recorded.andThen
  gather answers next := (Recorded.sequence answers).andThen next

instance {κ : Type} : LawfulAnswer (Trace κ Doc) where
  value_andThen := Recorded.pure_andThen
  andThen_value := Recorded.andThen_pure
  andThen_assoc := Recorded.andThen_assoc

end Waypoint
