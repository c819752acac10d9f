import Waypoint.Strategy.Answer

/-!
# Strategies

A strategy carries out one stage of a path. It is given the key of the stage, the rest of the chain
and the container at its level. Object strategies work on the member under the key, array strategies
on the elements.
-/

namespace Waypoint

/-- How a focus stage treats its container. -/
inductive ObjectStrategy where
  /-- The answer is that of the member; the container is left behind. -/
  | read
  /-- The answer is the container with the member replaced. -/
  | update
  /-- As `update`, but a missing member counts as 0 and a container that is no object as empty. -/
  | updateOrZero
  /-- The container itself goes on, the key is not looked at. -/
  | pass
  deriving DecidableEq, Inhabited, Repr

/-- How a lift stage treats the elements of its container. -/
inductive ArrayStrategy where
  /-- Every element, all of them taken together. -/
  | each
  /-- Every element, last one first, the results in that order. -/
  | reversed
  /-- Every element that is not null. -/
  | skipNulls
  /-- The first element, which is replaced; the others stay. -/
  | firstOnly
  /-- Every element, one after another. -/
  | oneByOne
  deriving DecidableEq, Inhabited, Repr

variable {R : Type} [Answer R]

open Answer

/-- What to do with the members of a container, which has to be an object. -/
def withMembers (key : String) (container : Doc) (use : List (String × Doc) → R) : R :=
  match container with
  | .obj members => use members
  | other => failure (.notAnObject key other.kind)

/-- What to do with the elements of a container, which has to be an array. -/
def withItems (key : String) (container : Doc) (use : List Doc → R) : R :=
  match container with
  | .arr items => use items
  | other => failure (.notAnArray key other.kind)

/-- What to do with the elements of a container for the strategies that call an array a list. -/
def withList (key : String) (container : Doc) (use : List Doc → R) : R :=
  match container with
  | .arr items => use items
  | _ => failure (.transform (key ++ " is not a list"))

/-- The rest of the chain on the given elements, one after another; `done` holds the results so
far. -/
def inTurn (next : Doc → R) : (done items : List Doc) → R
  | done, [] => value (.arr done)
  | done, item :: items => andThen (next item) fun result => inTurn next (done ++ [result]) items

def ObjectStrategy.focus : ObjectStrategy → String → (Doc → R) → Doc → R
  | .read, key, next, container =>
    withMembers key container fun members => next (Doc.member key members)
  | .update, key, next, container =>
    withMembers key container fun members =>
      andThen (next (Doc.member key members)) fun result =>
        value (.obj (Doc.setMember key result members))
  | .updateOrZero, key, next, container =>
    let members := match container with
      | .obj members => members
      | _ => []
    andThen (next ((Doc.member? key members).getD (.int 0))) fun result =>
      value (.obj (Doc.setMember key result members))
  | .pass, _, next, container => next container

def ArrayStrategy.lift : ArrayStrategy → String → (Doc → R) → Doc → R
  | .each, key, next, container =>
    withItems key container fun items => gather (items.map next) fun results => value (.arr results)
  | .reversed, key, next, container =>
    withList key container fun items =>
      gather (items.reverse.map next) fun results => value (.arr results)
  | .skipNulls, key, next, container =>
    withList key container fun items =>
      gather ((items.filter fun item => item.kind ≠ .null).map next) fun results =>
        value (.arr results)
  | .firstOnly, key, next, container =>
    withList key container fun items =>
      match items with
      | [] => value (.arr [])
      | item :: rest => andThen (next item) fun result => value (.arr (result :: rest))
  | .oneByOne, key, next, container => withList key container (inTurn next [])

end Waypoint
