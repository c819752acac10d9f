import Mathlib
import Waypoint.Proofs.Path.Positions

/-!
# Locations

A location is a way from the root of a document down to some place in it, by keys of objects and
indices of arrays; `Doc.at?` is the document found there. `ReachesAt` says at which location the
stages of a path come to which position, and a path focuses the locations at which no stage is left.
The document at a position is the one at its location, but for a missing key, which counts as null.
-/

namespace Waypoint

/-- A step of a location. -/
inductive Hop where
  | key (key : String)
  | index (index : Nat)
  deriving DecidableEq, Inhabited, Repr

abbrev Location : Type :=
  List Hop

/-- The document at a location. -/
def Doc.at? : Location → Doc → Option Doc
  | [], doc => some doc
  | .key key :: rest, .obj members => (Doc.member? key members).bind (Doc.at? rest)
  | .index index :: rest, .arr items => items[index]?.bind (Doc.at? rest)
  | _ :: _, _ => none

namespace Doc

@[simp] theorem at?_nil (doc : Doc) : doc.at? [] = some doc := rfl

@[simp] theorem at?_key (key : String) (location : Location) (members : List (String × Doc)) :
    (obj members).at? (.key key :: location) = (member? key members).bind (at? location) := rfl

@[simp] theorem at?_index (index : Nat) (location : Location) (items : List Doc) :
    (arr items).at? (.index index :: location) = items[index]?.bind (at? location) := rfl

theorem at?_setMember_self (key : String) (value : Doc) (location : Location)
    (members : List (String × Doc)) :
    (obj (setMember key value members)).at? (.key key :: location) = value.at? location := by
  rw [at?_key, member?_setMember_self, Option.bind_some]

theorem at?_setMember_of_ne {key other : String} (ne : other ≠ key) (value : Doc)
    (location : Location) (members : List (String × Doc)) :
    (obj (setMember key value members)).at? (.key other :: location) =
      (obj members).at? (.key other :: location) := by
  rw [at?_key, at?_key, member?_setMember_of_ne ne]

end Doc

/-- Stages lead from a document along a location to a position. -/
inductive ReachesAt : List Stage → Doc → Location → List Stage → Doc → Prop
  | here (stages : List Stage) (doc : Doc) : ReachesAt stages doc [] stages doc
  | focus {key : String} {stages rest : List Stage} {members : List (String × Doc)}
      {location : Location} {doc : Doc}
      (inside : ReachesAt stages (Doc.member key members) location rest doc) :
      ReachesAt (.focus key :: stages) (.obj members) (.key key :: location) rest doc
  | lift {key : String} {stages rest : List Stage} {items : List Doc} {index : Nat}
      {location : Location} {item doc : Doc} (element : items[index]? = some item)
      (inside : ReachesAt stages item location rest doc) :
      ReachesAt (.lift key :: stages) (.arr items) (.index index :: location) rest doc

/-- The hops that a stage makes: one to its own key, or one to any index. -/
inductive Stage.Makes : Stage → Hop → Prop
  | focus (key : String) : Makes (.focus key) (.key key)
  | lift (key : String) (index : Nat) : Makes (.lift key) (.index index)

/-- A location of a root at which the path ends. -/
def Path.Focuses (path : Path) (root : Doc) (location : Location) : Prop :=
  ∃ leaf, ReachesAt path.stages root location [] leaf

/-! ## Positions and their locations -/

/-- The positions of a path are those it comes to at some location. -/
theorem reaches_iff {stages rest : List Stage} {root doc : Doc} :
    Reaches stages root rest doc ↔ ∃ location, ReachesAt stages root location rest doc := by
  constructor
  · intro reaches
    induction reaches with
    | here stages doc => exact ⟨[], .here stages doc⟩
    | focus _ ih =>
        obtain ⟨location, inside⟩ := ih
        exact ⟨_, .focus inside⟩
    | lift member _ ih =>
        obtain ⟨location, inside⟩ := ih
        obtain ⟨index, element⟩ := List.mem_iff_getElem?.mp member
        exact ⟨_, .lift element inside⟩
  · rintro ⟨location, reaches⟩
    induction reaches with
    | here stages doc => exact .here stages doc
    | focus _ ih => exact .focus ih
    | lift element _ ih => exact .lift (List.mem_of_getElem? element) ih

namespace ReachesAt

variable {stages rest : List Stage} {root doc : Doc} {location : Location}

/-- The stages before those that are left have made the hops, each its own. -/
theorem hops (reaches : ReachesAt stages root location rest doc) :
    ∃ taken, stages = taken ++ rest ∧ List.Forall₂ Stage.Makes taken location := by
  induction reaches with
  | here stages doc => exact ⟨[], rfl, .nil⟩
  | focus _ ih =>
      obtain ⟨taken, rfl, each⟩ := ih
      exact ⟨_, rfl, .cons (.focus _) each⟩
  | lift _ _ ih =>
      obtain ⟨taken, rfl, each⟩ := ih
      exact ⟨_, rfl, .cons (.lift _ _) each⟩

/-- Nothing lies below null. -/
theorem eq_null (reaches : ReachesAt stages .null location rest doc) : doc = .null := by
  cases reaches
  rfl

/-- The document at a position is the one at its location, where nothing counts as null. -/
theorem at?_getD (reaches : ReachesAt stages root location rest doc) :
    (root.at? location).getD .null = doc := by
  induction reaches with
  | here stages doc => rfl
  | @focus key _ _ members _ doc inside ih =>
      rw [Doc.at?_key]
      rw [Doc.member] at inside ih
      cases found : Doc.member? key members with
      | none =>
          rw [found] at inside
          exact (eq_null inside).symm
      | some value =>
          rw [found] at ih
          exact ih
  | lift element _ ih =>
      rw [Doc.at?_index, element]
      exact ih

theorem at?_eq_some (reaches : ReachesAt stages root location rest doc) (found : doc ≠ .null) :
    root.at? location = some doc := by
  have here := reaches.at?_getD
  cases lookup : root.at? location with
  | none =>
      rw [lookup] at here
      exact absurd here.symm found
  | some other =>
      rw [lookup] at here
      exact congrArg some here

end ReachesAt

/-! ## Locations off the path -/

/-- A location is no part of one at which the stages end, and does not lie below one. -/
def Avoids (stages : List Stage) (root : Doc) (location : Location) : Prop :=
  ∀ focused leaf, ReachesAt stages root focused [] leaf →
    ¬ location <+: focused ∧ ¬ focused <+: location

namespace Avoids

variable {rest : List Stage} {key : String} {location : Location}

/-- Where no stage is left, every location lies below the one that is focused. -/
theorem not_nil {root : Doc} : ¬ Avoids [] root location :=
  fun avoids => (avoids [] root (.here [] root)).2 List.nil_prefix

/-- Every location goes on from the root, so where that one is avoided none is focused. -/
theorem unfocused {stages : List Stage} {root : Doc} (avoids : Avoids stages root []) :
    ∀ focused leaf, ¬ ReachesAt stages root focused [] leaf := by
  intro focused leaf reaches
  exact (avoids focused leaf reaches).1 List.nil_prefix

theorem focus {members : List (String × Doc)}
    (avoids : Avoids (.focus key :: rest) (.obj members) (.key key :: location)) :
    Avoids rest (Doc.member key members) location := by
  intro focused leaf reaches
  have apart := avoids _ leaf (.focus reaches)
  simpa only [List.cons_prefix_cons, true_and] using apart

theorem lift {items : List Doc} {index : Nat} {item : Doc}
    (avoids : Avoids (.lift key :: rest) (.arr items) (.index index :: location))
    (element : items[index]? = some item) : Avoids rest item location := by
  intro focused leaf reaches
  have apart := avoids _ leaf (.lift element reaches)
  simpa only [List.cons_prefix_cons, true_and] using apart

end Avoids

/-- A focus with nothing after it belongs to the last step of the path, which is a plain one. -/
theorem Path.getLast?_of_stages {path : Path} {key : String} {taken : List Stage}
    (last : path.stages = taken ++ [.focus key]) :
    path.segments.getLast? = some (.field key) := by
  have ends : path.stages.getLast? = some (.focus key) := by
    rw [last, List.getLast?_append]
    rfl
  rcases List.eq_nil_or_concat path.segments with none | ⟨init, segment, all⟩
  · rw [Path.stages, none] at ends
    cases ends
  · obtain ⟨name, isArray⟩ := segment
    rw [List.concat_eq_append] at all
    rw [Path.stages, all, List.flatMap_append, List.getLast?_append] at ends
    rw [all, List.getLast?_append]
    cases isArray with
    | false =>
        obtain rfl := Stage.focus.inj (Option.some.inj ends)
        rfl
    | true => cases ends

end Waypoint
