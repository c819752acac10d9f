import Mathlib
import Waypoint.Proofs.Path.Chain
import Waypoint.Proofs.Path.Location

/-!
# What an update leaves alone

An update that succeeds changes a document at the locations that its path focuses and nowhere else.
A location that is no part of a focused one, and does not lie below one, holds what it held before.
On the way to the focused locations arrays keep their length and objects their keys, in order; only
the last key of the path may be new, and then it is put at the end.

At every position that the path comes to, the update of the whole document has left the update of
what stands there (`updated_at`), so what happens to a container is seen from one stage.
-/

namespace Waypoint

namespace Strategies

variable {stages rest : List Stage} {leaf : Doc → Except PathError Doc} {root result : Doc}

/-- Null has no members and no elements. -/
theorem eq_nil_of_update_null (updated : update.chain stages leaf .null = .ok result) :
    stages = [] := by
  cases stages with
  | nil => rfl
  | cons stage rest =>
      cases stage with
      | focus key =>
          obtain ⟨_, _, shape, _⟩ := update_focus_eq_ok.mp updated
          cases shape
      | lift key =>
          obtain ⟨_, _, shape, _⟩ := (lift_eq_ok rfl).mp updated
          cases shape

/-- A key that is missing is the last one of the path. -/
theorem eq_nil_of_update_missing {key : String} {members : List (String × Doc)}
    (missing : Doc.member? key members = none)
    (updated : update.chain rest leaf (Doc.member key members) = .ok result) : rest = [] := by
  rw [Doc.member, missing] at updated
  exact eq_nil_of_update_null updated

/-- Where no location is focused there is nothing to update. -/
theorem eq_of_unfocused (unfocused : ∀ focused leaf, ¬ ReachesAt stages root focused [] leaf)
    (updated : update.chain stages leaf root = .ok result) : result = root := by
  induction stages generalizing root result with
  | nil => exact absurd (.here [] root) (unfocused [] root)
  | cons stage rest ih =>
      cases stage with
      | focus key =>
          obtain ⟨members, inner, rfl, inside, rfl⟩ := update_focus_eq_ok.mp updated
          have below : ∀ focused leaf, ¬ ReachesAt rest (Doc.member key members) focused [] leaf :=
            fun _ _ reaches => unfocused _ _ (.focus reaches)
          cases found : Doc.member? key members with
          | none =>
              obtain rfl := eq_nil_of_update_missing found inside
              exact absurd (.here [] _) (below _ _)
          | some value =>
              have same : inner = value := by
                rw [ih below inside, Doc.member, found, Option.getD_some]
              rw [same, Doc.setMember_self found]
      | lift key =>
          obtain ⟨items, values, rfl, inside, rfl⟩ := (lift_eq_ok rfl).mp updated
          have below : ∀ item ∈ items, ∀ focused leaf, ¬ ReachesAt rest item focused [] leaf := by
            intro item member focused leaf reaches
            obtain ⟨index, element⟩ := List.mem_iff_getElem?.mp member
            exact unfocused _ _ (.lift element reaches)
          have same : List.Forall₂ (· = ·) items values :=
            ((List.forall₂_and_left items values).mpr ⟨below, inside⟩).imp fun _ _ item =>
              (ih item.1 item.2).symm
          rw [List.forall₂_eq_eq_eq] at same
          rw [same]

/-- What stands at a position afterwards is the update of what stood there. -/
theorem updated_at {doc : Doc} {location : Location}
    (reaches : ReachesAt stages root location rest doc)
    (updated : update.chain stages leaf root = .ok result) :
    ∃ after, result.at? location = some after ∧ update.chain rest leaf doc = .ok after := by
  induction reaches generalizing result with
  | here stages doc => exact ⟨result, rfl, updated⟩
  | focus _ ih =>
      obtain ⟨_, inner, shape, inside, rfl⟩ := update_focus_eq_ok.mp updated
      obtain rfl := Doc.obj.inj shape
      obtain ⟨after, there, ok⟩ := ih inside
      refine ⟨after, ?_, ok⟩
      rw [Doc.at?_setMember_self]
      exact there
  | @lift _ _ _ _ index _ _ _ element _ ih =>
      obtain ⟨_, values, shape, inside, rfl⟩ := (lift_eq_ok rfl).mp updated
      obtain rfl := Doc.arr.inj shape
      obtain ⟨value, found, ok⟩ := exists_getElem?_of_forall₂ inside element
      obtain ⟨after, there, ok⟩ := ih ok
      refine ⟨after, ?_, ok⟩
      rw [Doc.at?_index, found]
      exact there

/-- A location off the path holds what it held before. -/
theorem at?_of_avoids {location : Location} (avoids : Avoids stages root location)
    (updated : update.chain stages leaf root = .ok result) :
    result.at? location = root.at? location := by
  induction stages generalizing root result location with
  | nil => exact absurd avoids Avoids.not_nil
  | cons stage rest ih =>
      cases location with
      | nil => rw [eq_of_unfocused avoids.unfocused updated]
      | cons hop location =>
          cases stage with
          | focus key =>
              obtain ⟨members, inner, rfl, inside, rfl⟩ := update_focus_eq_ok.mp updated
              cases hop with
              | index index => rfl
              | key other =>
                  by_cases same : other = key
                  · subst same
                    rw [Doc.at?_setMember_self, Doc.at?_key]
                    cases found : Doc.member? other members with
                    | none =>
                        obtain rfl := eq_nil_of_update_missing found inside
                        exact absurd avoids.focus Avoids.not_nil
                    | some value =>
                        have kept := ih avoids.focus inside
                        rw [Doc.member, found] at kept
                        exact kept
                  · rw [Doc.at?_setMember_of_ne same]
          | lift key =>
              obtain ⟨items, values, rfl, inside, rfl⟩ := (lift_eq_ok rfl).mp updated
              cases hop with
              | key other => rfl
              | index index =>
                  rw [Doc.at?_index, Doc.at?_index]
                  have pair := rel_getElem? inside index
                  generalize before : items[index]? = item? at pair ⊢
                  generalize values[index]? = value? at pair ⊢
                  cases pair with
                  | none => rfl
                  | some ok => exact ih (avoids.lift before) ok

end Strategies

/-- A successful update changes nothing off its path: a location that is neither a part nor an
extension of a focused one holds what it held before, every array that the path goes through keeps
its length, and every object that it goes through keeps its keys in order. The last key of the path
is appended to an object that lacks it. -/
theorem update_changes_nothing_elsewhere (path : Path) (transform : Doc → Trace Notice Doc)
    (root result : Doc)
    (updated : (CompiledPath.access ⟨path, .update⟩ transform root).result = .ok result) :
    (∀ location, (∀ focused, path.Focuses root focused →
        ¬ location <+: focused ∧ ¬ focused <+: location) →
      result.at? location = root.at? location) ∧
      (∀ location key rest doc, ReachesAt path.stages root location (.lift key :: rest) doc →
        ∃ before after, root.at? location = some (.arr before) ∧
          result.at? location = some (.arr after) ∧ after.length = before.length) ∧
      ∀ location key rest doc, ReachesAt path.stages root location (.focus key :: rest) doc →
        ∃ before after, root.at? location = some (.obj before) ∧
          result.at? location = some (.obj after) ∧
          (after.map Prod.fst = before.map Prod.fst ∨
            path.segments.getLast? = some (.field key) ∧ rest = [] ∧
              key ∉ before.map Prod.fst ∧
              after.map Prod.fst = before.map Prod.fst ++ [key]) := by
  rw [CompiledPath.result_access] at updated
  refine ⟨?_, ?_, ?_⟩
  · intro location apart
    exact Strategies.at?_of_avoids (fun focused leaf reaches => apart focused ⟨leaf, reaches⟩)
      updated
  · intro location key rest doc reaches
    obtain ⟨_, there, ok⟩ := Strategies.updated_at reaches updated
    obtain ⟨before, after, rfl, inside, rfl⟩ := (Strategies.lift_eq_ok rfl).mp ok
    exact ⟨before, after, reaches.at?_eq_some Doc.noConfusion, there, inside.length_eq.symm⟩
  · intro location key rest doc reaches
    obtain ⟨_, there, ok⟩ := Strategies.updated_at reaches updated
    obtain ⟨before, inner, rfl, inside, rfl⟩ := Strategies.update_focus_eq_ok.mp ok
    refine ⟨before, _, reaches.at?_eq_some Doc.noConfusion, there, ?_⟩
    rw [Doc.keys_setMember]
    by_cases present : key ∈ before.map Prod.fst
    · rw [if_pos present]
      exact .inl rfl
    · rw [if_neg present]
      obtain rfl := Strategies.eq_nil_of_update_missing (Doc.member?_eq_none.mpr present) inside
      obtain ⟨taken, all, -⟩ := reaches.hops
      exact .inr ⟨Path.getLast?_of_stages all, rfl, present, rfl⟩

/-- Two rows, where the second one lacks the last key: it is put at the end there, and all that
stands beside the path stays. -/
theorem update_of_rows_keeps_the_rest :
    let path := Path.parse "rows[].n"
    let update := CompiledPath.access ⟨path, .update⟩ Transform.increment.run
    let root := Doc.obj [("rows", .arr [.obj [("n", .int 1), ("z", .int 5)], .obj [("z", .int 6)]]),
      ("y", .null)]
    let result := Doc.obj [("rows", .arr [.obj [("n", .int 2), ("z", .int 5)],
      .obj [("z", .int 6), ("n", .int 1)]]), ("y", .null)]
    let beside : Location := [.key "rows", .index 1, .key "z"]
    let rows : Location := [.key "rows"]
    let row : Location := [.key "rows", .index 1]
    (update root).result = .ok result ∧
      (∀ focused, path.Focuses root focused → ¬ beside <+: focused ∧ ¬ focused <+: beside) ∧
      result.at? beside = root.at? beside ∧
      (∃ before after, root.at? rows = some (.arr before) ∧ result.at? rows = some (.arr after) ∧
        after.length = before.length) ∧
      ∃ before after, root.at? row = some (.obj before) ∧ result.at? row = some (.obj after) ∧
        (after.map Prod.fst = before.map Prod.fst ∨
          after.map Prod.fst = before.map Prod.fst ++ ["n"]) := by
  intro path update root result beside rows row
  have updated : (update root).result = .ok result := by decide +kernel
  have stages : path.stages = [.focus "rows", .lift "rows", .focus "n"] := by decide +kernel
  have apart : ∀ focused, path.Focuses root focused →
      ¬ beside <+: focused ∧ ¬ focused <+: beside := by
    rintro focused ⟨leaf, reaches⟩
    obtain ⟨taken, all, hops⟩ := reaches.hops
    rw [stages, List.append_nil] at all
    subst all
    -- the stages are known, so the hops are, but for the index
    obtain _ | ⟨⟨⟩, _ | ⟨⟨⟩, _ | ⟨⟨⟩, _ | _⟩⟩⟩ := hops
    simp [beside]
  obtain ⟨items, array⟩ :
      ∃ doc, ReachesAt path.stages root rows [.lift "rows", .focus "n"] doc := by
    rw [stages]
    exact ⟨_, .focus (.here _ _)⟩
  have object : ReachesAt path.stages root row [.focus "n"] (.obj [("z", .int 6)]) := by
    rw [stages]
    exact .focus (.lift rfl (.here _ _))
  obtain ⟨kept, arrays, objects⟩ :=
    update_changes_nothing_elsewhere path Transform.increment.run root result updated
  obtain ⟨before, after, was, is, keys⟩ := objects row "n" [] _ object
  exact ⟨updated, apart, kept beside apart, arrays rows "rows" _ items array, before, after, was,
    is, keys.imp_right fun appended => appended.2.2.2⟩

end Waypoint
