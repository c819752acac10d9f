import Mathlib
import Waypoint.Proofs.Path.Alike
import Waypoint.Proofs.Path.Chain

/-!
# Reading what was written

A read and an update through the same path go the same way: they hand the same leaves to the
transform in the same order, and one fails where the other does, with the same failure. Where they
succeed, the update has written what the read returns: a read through the path from the updated root
finds just that.
-/

namespace Waypoint

namespace Strategies

/-- What a read finds at the end of the stages, as it is. -/
def found (stages : List Stage) : Doc → Except PathError Doc :=
  read.chain stages Except.ok

section Stages

variable {key : String} {rest : List Stage} {next next' : Doc → PathTrace}

/-- Reading a member and updating it are alike if what comes after is: the new member is the one
under the key. -/
theorem focus_alike (inside : ∀ doc, Recorded.Alike (fun a u => found rest u = .ok a) (next doc)
    (next' doc)) (doc : Doc) :
    Recorded.Alike (fun a u => found (.focus key :: rest) u = .ok a)
      (ObjectStrategy.read.focus key next doc) (ObjectStrategy.update.focus key next' doc) := by
  cases doc with
  | obj members =>
      show Recorded.Alike _ (next (Doc.member key members))
        ((next' (Doc.member key members)).andThen fun inner =>
          pure (Doc.obj (Doc.setMember key inner members)))
      rw [← Recorded.andThen_pure (next (Doc.member key members))]
      refine (inside _).andThen fun a inner back => .ok ?_
      have written : Doc.member key (Doc.setMember key inner members) = inner := by
        rw [Doc.member, Doc.member?_setMember_self, Option.getD_some]
      refine read_focus_eq_ok.mpr ⟨_, rfl, ?_⟩
      rw [written]
      exact back
  | null | bool _ | int _ | float _ | str _ | arr _ => exact .error

/-- Every element is taken in both ways, in the same order. -/
theorem each_alike (inside : ∀ doc, Recorded.Alike (fun a u => found rest u = .ok a) (next doc)
    (next' doc)) (doc : Doc) :
    Recorded.Alike (fun a u => found (.lift key :: rest) u = .ok a)
      (ArrayStrategy.each.lift key next doc) (ArrayStrategy.each.lift key next' doc) := by
  cases doc with
  | arr items =>
      have elements : List.Forall₂ (Recorded.Alike fun a u => found rest u = .ok a)
          (items.map next) (items.map next') := by
        rw [List.forall₂_map_left_iff, List.forall₂_map_right_iff, List.forall₂_same]
        exact fun item _ => inside item
      refine (Recorded.Alike.sequence elements).andThen fun as us back => .ok ?_
      exact (lift_eq_ok rfl).mpr ⟨us, as, rfl, back.flip, rfl⟩
  | null | bool _ | int _ | float _ | str _ | obj _ => exact .error

end Stages

/-- Both ways through the stages are alike, and what the read returns can be read from what the
update returns. -/
theorem read_alike_update (stages : List Stage) (leaf : Doc → PathTrace) (doc : Doc) :
    Recorded.Alike (fun a u => found stages u = .ok a)
      (read.chain stages leaf doc) (update.chain stages leaf doc) := by
  induction stages generalizing doc with
  | nil =>
      refine .refl ?_ (leaf doc)
      intro value
      rfl
  | cons stage rest ih =>
      cases stage with
      | focus key => exact focus_alike ih doc
      | lift key => exact each_alike ih doc

end Strategies

/-- A read and an update through a path hand the same leaves to the transform in the same order and
fail alike. What the read returns is found at the end of the path in what the update returns. -/
theorem update_writes_what_read_returns (path : Path) (transform : Doc → Trace Notice Doc)
    (root : Doc) :
    let read := CompiledPath.access ⟨path, .read⟩
    let update := CompiledPath.access ⟨path, .update⟩
    (read transform root).log = (update transform root).log ∧
      (∀ error, (read transform root).result = .error error ↔
        (update transform root).result = .error error) ∧
      ∀ a u, (read transform root).result = .ok a → (update transform root).result = .ok u →
        (read Transform.identity.run u).result = .ok a := by
  intro read update
  have alike : Recorded.Alike (fun a u => Strategies.found path.stages u = .ok a)
      (read transform root) (update transform root) := by
    simp only [read, update, CompiledPath.access_eq_chain]
    exact Strategies.read_alike_update path.stages (recordedLeaf transform) root
  refine ⟨alike.log_eq, alike.error_iff, ?_⟩
  intro a u reads writes
  rw [CompiledPath.result_access]
  exact alike.values reads writes

/-- One element lacks the last key, which counts as null, and one array is empty. -/
theorem update_writes_what_read_returns_in_rows :
    let path := Path.parse "rows[].cells[].n"
    let row (cells : List Doc) := Doc.obj [("cells", .arr cells), ("z", .str "kept")]
    let root := Doc.obj [("rows", .arr [row [.obj [("n", .int 1)], .obj []], row []])]
    let a := Doc.arr [.arr [.int 2, .int 1], .arr []]
    let u := Doc.obj [("rows", .arr [row [.obj [("n", .int 2)], .obj [("n", .int 1)]], row []])]
    let read := CompiledPath.access ⟨path, .read⟩
    let update := CompiledPath.access ⟨path, .update⟩
    let increment := Transform.increment.run
    (read increment root).result = .ok a ∧ (update increment root).result = .ok u ∧
      (read Transform.identity.run u).result = .ok a := by
  intro path row root a u read update increment
  have reads : (read increment root).result = .ok a := by decide +kernel
  have writes : (update increment root).result = .ok u := by decide +kernel
  obtain ⟨-, -, back⟩ := update_writes_what_read_returns path increment root
  exact ⟨reads, writes, back a u reads writes⟩

end Waypoint
