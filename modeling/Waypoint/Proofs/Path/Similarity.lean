import Mathlib
import Waypoint.Proofs.Path.Alike
import Waypoint.Proofs.Path.Chain

/-!
# What an access does not look at

An access only sees what its path leads to. Two roots are similar along a path where they cannot be
told apart by going along its stages (`Path.Similar`): the same kinds of containers, arrays of the
same lengths and the same leaves, whatever siblings the members have and in whatever order they
stand. A read does just the same on both roots. An update goes the same way, and what it makes of
the two roots is similar again.
-/

namespace Waypoint

/-- The kind of container that a stage asks for. -/
def Stage.container : Stage → Kind
  | .focus _ => .object
  | .lift _ => .array

/-- Two documents that are not told apart by going along the stages. A missing member counts as
null, and of a container of the wrong kind only the kind counts. -/
def Similar : List Stage → Doc → Doc → Prop
  | [], doc, doc' => doc = doc'
  | .focus key :: rest, .obj members, .obj members' =>
    Similar rest (Doc.member key members) (Doc.member key members')
  | .lift _ :: rest, .arr items, .arr items' => List.Forall₂ (Similar rest) items items'
  | stage :: _, doc, doc' => doc.kind = doc'.kind ∧ doc.kind ≠ stage.container

def Path.Similar (path : Path) (root root' : Doc) : Prop :=
  Waypoint.Similar path.stages root root'

namespace Similar

variable {key : String} {rest : List Stage} {doc doc' : Doc}

/-- Two containers of a focus stage are both objects, or both of another kind. -/
theorem focus (similar : Similar (.focus key :: rest) doc doc') :
    (∃ members members', doc = .obj members ∧ doc' = .obj members' ∧
      Similar rest (Doc.member key members) (Doc.member key members')) ∨
    (doc.kind = doc'.kind ∧ doc.kind ≠ .object) := by
  cases doc with
  | obj members =>
      cases doc' with
      | obj members' => exact .inl ⟨members, members', rfl, rfl, similar⟩
      | null | bool _ | int _ | float _ | str _ | arr _ => exact absurd rfl similar.2
  | null | bool _ | int _ | float _ | str _ | arr _ => exact .inr similar

/-- Two containers of a lift stage are both arrays, or both of another kind. -/
theorem lift (similar : Similar (.lift key :: rest) doc doc') :
    (∃ items items', doc = .arr items ∧ doc' = .arr items' ∧
      List.Forall₂ (Similar rest) items items') ∨
    (doc.kind = doc'.kind ∧ doc.kind ≠ .array) := by
  cases doc with
  | arr items =>
      cases doc' with
      | arr items' => exact .inl ⟨items, items', rfl, rfl, similar⟩
      | null | bool _ | int _ | float _ | str _ | obj _ => exact absurd rfl similar.2
  | null | bool _ | int _ | float _ | str _ | obj _ => exact .inr similar

/-- Members that are written under the key of a focus stage stand in for those found there. -/
theorem setMember {inner inner' : Doc} (similar : Similar rest inner inner')
    (members members' : List (String × Doc)) :
    Similar (.focus key :: rest) (.obj (Doc.setMember key inner members))
      (.obj (Doc.setMember key inner' members')) := by
  show Similar rest (Doc.member key _) (Doc.member key _)
  simp only [Doc.member, Doc.member?_setMember_self, Option.getD_some]
  exact similar

end Similar

section WrongKind

variable {R : Type} [Answer R] {key : String} {doc doc' : Doc}

/-- A stage that asks for an object fails with the kind of what it finds. -/
theorem withMembers_of_kind (wrong : doc.kind ≠ .object) (use : List (String × Doc) → R) :
    withMembers key doc use = Answer.failure (.notAnObject key doc.kind) := by
  cases doc with
  | obj members => exact absurd rfl wrong
  | null | bool _ | int _ | float _ | str _ | arr _ => rfl

/-- A stage that asks for an array fails with the kind of what it finds. -/
theorem withItems_of_kind (wrong : doc.kind ≠ .array) (use : List Doc → R) :
    withItems key doc use = Answer.failure (.notAnArray key doc.kind) := by
  cases doc with
  | arr items => exact absurd rfl wrong
  | null | bool _ | int _ | float _ | str _ | obj _ => rfl

end WrongKind

namespace Strategies

/-- A read does the same on similar documents. -/
theorem read_eq_of_similar (stages : List Stage) (leaf : Doc → PathTrace) {doc doc' : Doc}
    (similar : Similar stages doc doc') :
    read.chain stages leaf doc = read.chain stages leaf doc' := by
  induction stages generalizing doc doc' with
  | nil =>
      obtain rfl : doc = doc' := similar
      rfl
  | cons stage rest ih =>
      cases stage with
      | focus key =>
          rcases similar.focus with ⟨members, members', rfl, rfl, inside⟩ | ⟨same, wrong⟩
          · exact ih inside
          · show withMembers key doc _ = withMembers key doc' _
            rw [withMembers_of_kind wrong, withMembers_of_kind (same ▸ wrong), same]
      | lift key =>
          rcases similar.lift with ⟨items, items', rfl, rfl, inside⟩ | ⟨same, wrong⟩
          · have answers :
                items.map (read.chain rest leaf) = items'.map (read.chain rest leaf) := by
              rw [← List.forall₂_eq_eq_eq, List.forall₂_map_left_iff, List.forall₂_map_right_iff]
              exact inside.imp fun _ _ => ih
            show (Recorded.sequence (items.map (read.chain rest leaf))).andThen _ =
              (Recorded.sequence (items'.map (read.chain rest leaf))).andThen _
            rw [answers]
          · show withItems key doc _ = withItems key doc' _
            rw [withItems_of_kind wrong, withItems_of_kind (same ▸ wrong), same]

/-- An update goes the same way on similar documents, and makes similar ones of them. -/
theorem update_alike_of_similar (stages : List Stage) (leaf : Doc → PathTrace) {doc doc' : Doc}
    (similar : Similar stages doc doc') :
    Recorded.Alike (Similar stages) (update.chain stages leaf doc)
      (update.chain stages leaf doc') := by
  induction stages generalizing doc doc' with
  | nil =>
      obtain rfl : doc = doc' := similar
      exact .refl (fun _ => rfl) (leaf doc)
  | cons stage rest ih =>
      cases stage with
      | focus key =>
          rcases similar.focus with ⟨members, members', rfl, rfl, inside⟩ | ⟨same, wrong⟩
          · refine (ih inside).andThen fun inner inner' related => .ok ?_
            exact related.setMember members members'
          · show Recorded.Alike _ (withMembers key doc _) (withMembers key doc' _)
            rw [withMembers_of_kind wrong, withMembers_of_kind (same ▸ wrong), same]
            exact .error
      | lift key =>
          rcases similar.lift with ⟨items, items', rfl, rfl, inside⟩ | ⟨same, wrong⟩
          · have elements : List.Forall₂ (Recorded.Alike (Similar rest))
                (items.map (update.chain rest leaf)) (items'.map (update.chain rest leaf)) := by
              rw [List.forall₂_map_left_iff, List.forall₂_map_right_iff]
              exact inside.imp fun _ _ => ih
            refine (Recorded.Alike.sequence elements).andThen fun values values' related => ?_
            exact .ok related
          · show Recorded.Alike _ (withItems key doc _) (withItems key doc' _)
            rw [withItems_of_kind wrong, withItems_of_kind (same ▸ wrong), same]
            exact .error

end Strategies

/-- On roots that are similar along its path an access hands the same leaves to the transform in the
same order and ends in the same way: a read with the same value or the same failure, an update with
the same failure or with values that are similar again. -/
theorem access_of_similar_roots (path : Path) (transform : Doc → Trace Notice Doc)
    (root root' : Doc) (similar : path.Similar root root') :
    let read := CompiledPath.access ⟨path, .read⟩ transform
    let update := CompiledPath.access ⟨path, .update⟩ transform
    (read root).log = (read root').log ∧ (read root).result = (read root').result ∧
      (update root).log = (update root').log ∧
      (∀ error, (update root).result = .error error ↔ (update root').result = .error error) ∧
      ∀ u u', (update root).result = .ok u → (update root').result = .ok u' →
        path.Similar u u' := by
  intro read update
  have same : read root = read root' := by
    simp only [read, CompiledPath.access_eq_chain]
    exact Strategies.read_eq_of_similar path.stages (recordedLeaf transform) similar
  have alike : Recorded.Alike (Similar path.stages) (update root) (update root') := by
    simp only [update, CompiledPath.access_eq_chain]
    exact Strategies.update_alike_of_similar path.stages (recordedLeaf transform) similar
  refine ⟨congrArg Recorded.log same, congrArg Recorded.result same, alike.log_eq, alike.error_iff,
    ?_⟩
  intro u u' first second
  exact alike.values first second

/-- Keys stand in another order, a member that is null in one root is missing in the other one, and
the third row is no object in both. -/
theorem access_of_similar_rows :
    let path := Path.parse "rows[].n"
    let row (members : List (String × Doc)) := Doc.obj members
    let root := row [("id", .int 7), ("rows", .arr [row [("n", .int 1), ("z", .str "x")],
      row [("n", .null)], .int 5])]
    let root' := row [("rows", .arr [row [("a", .null), ("n", .int 1)], row [], .float "0.5"])]
    let read := CompiledPath.access ⟨path, .read⟩ Transform.increment.run
    let update := CompiledPath.access ⟨path, .update⟩ Transform.increment.run
    path.Similar root root' ∧ Entry.calls (read root').log = [.leaf (.int 1), .leaf .null] ∧
      (read root).log = (read root').log ∧
      (read root').result = .error (.notAnObject "n" .number) ∧
      (read root).result = (read root').result ∧
      (update root).log = (update root').log ∧
      ∀ error, (update root).result = .error error ↔ (update root').result = .error error := by
  intro path row root root' read update
  have stages : path.stages = [.focus "rows", .lift "rows", .focus "n"] := by decide
  have similar : path.Similar root root' := by
    show Similar path.stages root root'
    rw [stages]
    exact .cons rfl (.cons rfl (.cons ⟨rfl, by decide⟩ .nil))
  obtain ⟨reads, result, updates, failures, -⟩ :=
    access_of_similar_roots path Transform.increment.run root root' similar
  exact ⟨similar, by decide +kernel, reads, by decide +kernel, result, updates, failures⟩

end Waypoint
