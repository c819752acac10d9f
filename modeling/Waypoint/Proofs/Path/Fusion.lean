import Mathlib
import Waypoint.Proofs.Path.Chain

/-!
# Two updates along one path

An update with one transform and then an update along the same path with another are one update with
the transforms one after another. The two ways succeed in the same cases and with the same document.
They may fail with different errors, since the first update visits all its leaves before the second
one begins; where the second transform cannot fail this makes no difference.
-/

namespace Waypoint

namespace Strategies

variable {first second : Doc → Except PathError Doc}

/-- An update with both transforms is two updates, where both succeed. -/
theorem update_bind_eq_ok (stages : List Stage) (doc result : Doc) :
    update.chain stages (fun doc => (first doc).bind second) doc = .ok result ↔
      ∃ middle, update.chain stages first doc = .ok middle ∧
        update.chain stages second middle = .ok result := by
  induction stages generalizing doc result with
  | nil => exact bind_eq_ok
  | cons stage rest ih =>
      cases stage with
      | focus key =>
          rw [update_focus_eq_ok]
          constructor
          · rintro ⟨members, inner, rfl, inside, rfl⟩
            obtain ⟨middle, one, two⟩ := (ih _ _).mp inside
            refine ⟨.obj (Doc.setMember key middle members),
              update_focus_eq_ok.mpr ⟨members, middle, rfl, one, rfl⟩,
              update_focus_eq_ok.mpr ⟨_, inner, rfl, ?_, ?_⟩⟩
            · rw [Doc.member, Doc.member?_setMember_self]
              exact two
            · rw [Doc.setMember_setMember_self]
          · rintro ⟨middle, one, two⟩
            obtain ⟨members, inner, rfl, inside, rfl⟩ := update_focus_eq_ok.mp one
            obtain ⟨_, last, shape, inside', rfl⟩ := update_focus_eq_ok.mp two
            obtain rfl := Doc.obj.inj shape
            rw [Doc.member, Doc.member?_setMember_self] at inside'
            refine ⟨members, last, rfl, (ih _ _).mpr ⟨inner, inside, inside'⟩, ?_⟩
            rw [Doc.setMember_setMember_self]
      | lift key =>
          rw [lift_eq_ok rfl]
          constructor
          · rintro ⟨items, values, rfl, inside, rfl⟩
            obtain ⟨middles, ones, twos⟩ :=
              forall₂_comp_iff.mp (inside.imp fun item value => (ih item value).mp)
            exact ⟨.arr middles, (lift_eq_ok rfl).mpr ⟨items, middles, rfl, ones, rfl⟩,
              (lift_eq_ok rfl).mpr ⟨middles, values, rfl, twos, rfl⟩⟩
          · rintro ⟨middle, one, two⟩
            obtain ⟨items, middles, rfl, ones, rfl⟩ := (lift_eq_ok rfl).mp one
            obtain ⟨_, values, shape, twos, rfl⟩ := (lift_eq_ok rfl).mp two
            obtain rfl := Doc.arr.inj shape
            refine ⟨items, values, rfl, ?_, rfl⟩
            exact (forall₂_comp_iff.mpr ⟨middles, ones, twos⟩).imp fun item value =>
              (ih item value).mpr

/-! ## Failures -/

variable {error : PathError}

/-- What comes after a value and cannot fail adds no failure. -/
theorem bind_ok_eq_error {α : Type} {answer : Except PathError α} {next : α → Doc} :
    (answer.bind fun value => .ok (next value)) = .error error ↔ answer = .error error := by
  cases answer <;> simp [Except.bind]

theorem allValues_eq_error_congr {answers answers' : List (Except PathError Doc)}
    (alike : List.Forall₂ (fun one two => ∀ error, one = .error error ↔ two = .error error)
      answers answers') (error : PathError) :
    allValues answers = .error error ↔ allValues answers' = .error error := by
  induction alike with
  | nil => rfl
  | @cons one two rest rest' head _ ih =>
      cases one with
      | error first =>
          rw [(head first).mp rfl]
          rfl
      | ok value =>
          cases two with
          | error first => cases (head first).mpr rfl
          | ok value' =>
              have tail {value : Doc} {others : Except PathError (List Doc)} :
                  others.map (value :: ·) = .error error ↔ others = .error error := by
                cases others <;> simp [Except.map]
              exact tail.trans (ih.trans tail.symm)

/-- Two transforms that fail on the same documents make updates that fail on the same documents,
with the same errors. -/
theorem update_eq_error_congr
    (alike : ∀ doc error, first doc = .error error ↔ second doc = .error error)
    (stages : List Stage) (doc : Doc) (error : PathError) :
    update.chain stages first doc = .error error ↔
      update.chain stages second doc = .error error := by
  induction stages generalizing doc error with
  | nil => exact alike doc error
  | cons stage rest ih =>
      cases stage with
      | focus key =>
          cases doc with
          | obj members => exact bind_ok_eq_error.trans ((ih _ _).trans bind_ok_eq_error.symm)
          | null | bool _ | int _ | float _ | str _ | arr _ => rfl
      | lift key =>
          cases doc with
          | arr items =>
              have elements : List.Forall₂
                  (fun one two => ∀ error, one = .error error ↔ two = .error error)
                  (items.map (update.chain rest first)) (items.map (update.chain rest second)) := by
                rw [List.forall₂_map_left_iff, List.forall₂_map_right_iff, List.forall₂_same]
                exact fun item _ => ih item
              refine bind_ok_eq_error.trans (Iff.trans ?_ bind_ok_eq_error.symm)
              exact allValues_eq_error_congr elements error
          | null | bool _ | int _ | float _ | str _ | obj _ => rfl

/-- If the second transform cannot fail, the update with both fails where the first one does. -/
theorem update_bind_of_total (total : ∀ doc error, second doc ≠ .error error)
    (stages : List Stage) (doc : Doc) :
    update.chain stages (fun doc => (first doc).bind second) doc =
      (update.chain stages first doc).bind (update.chain stages second) := by
  have alike (doc : Doc) (error : PathError) :
      (first doc).bind second = .error error ↔ first doc = .error error := by
    cases first doc with
    | error one => rfl
    | ok value => simpa [Except.bind] using total value error
  have fails := update_eq_error_congr alike stages doc
  cases one : update.chain stages first doc with
  | error error => exact (fails error).mpr one
  | ok middle =>
      cases both : update.chain stages (fun doc => (first doc).bind second) doc with
      | error error => cases ((fails error).mp both).symm.trans one
      | ok result =>
          obtain ⟨other, one', two⟩ := (update_bind_eq_ok stages doc result).mp both
          obtain rfl := Except.ok.inj (one.symm.trans one')
          exact two.symm

end Strategies

/-- Updating with one transform and then along the same path with another succeeds where the single
update with both does, and with the same document. If the second transform never fails, the two ways
agree in their failures too. -/
theorem updates_along_one_path_fuse (path : Path) (f g : Doc → Trace Notice Doc) (root : Doc) :
    let update := CompiledPath.access ⟨path, .update⟩
    let twice := (update f root).andThen (update g)
    let once := update (fun doc => (f doc).andThen g) root
    (∀ r, twice.result = .ok r ↔ once.result = .ok r) ∧
      ((∀ doc error, (g doc).result ≠ .error error) → twice.result = once.result) := by
  intro update twice once
  have twice_eq : twice.result =
      (Strategies.update.chain path.stages (fun doc => (f doc).result) root).bind
        (Strategies.update.chain path.stages fun doc => (g doc).result) := by
    rw [Recorded.result_andThen, CompiledPath.result_access]
    simp only [update, CompiledPath.result_access]
  have once_eq : once.result = Strategies.update.chain path.stages
      (fun doc => (f doc).result.bind fun value => (g value).result) root := by
    simp only [once, update, CompiledPath.result_access, Recorded.result_andThen]
  rw [twice_eq, once_eq]
  refine ⟨fun r => ?_, fun total => ?_⟩
  · rw [Strategies.update_bind_eq_ok]
    exact bind_eq_ok
  · exact (Strategies.update_bind_of_total total path.stages root).symm

/-- The second row lacks the last key, which both ways put at the end. In the other root a row is
refused by the first transform, and both ways report that. -/
theorem updates_along_rows_fuse :
    let update := CompiledPath.access ⟨Path.parse "rows[].n", .update⟩
    let f := (Transform.seq [.failIf (.hasKind .string) "text", .increment]).run
    let g := Transform.double.run
    let both (doc : Doc) := (f doc).andThen g
    let rows (items : List Doc) := Doc.obj [("rows", .arr items)]
    let root := rows [.obj [("n", .int 1), ("z", .int 5)], .obj [("z", .int 6)]]
    let refused := rows [.obj [("n", .int 1)], .obj [("n", .str "x")]]
    let r := rows [.obj [("n", .int 4), ("z", .int 5)], .obj [("z", .int 6), ("n", .int 2)]]
    (∀ doc error, (g doc).result ≠ .error error) ∧
      ((update f root).andThen (update g)).result = .ok r ∧ (update both root).result = .ok r ∧
      (update both refused).result = .error (.transform "text") ∧
      ((update f refused).andThen (update g)).result = (update both refused).result := by
  intro update f g both rows root refused r
  have total : ∀ doc error, (g doc).result ≠ .error error := by
    intro doc error fails
    have doubled : (g doc).result = .ok (Transform.onInt (· * 2) doc) := rfl
    cases doubled.symm.trans fails
  have once : (update both root).result = .ok r := by decide +kernel
  have fails : (update both refused).result = .error (.transform "text") := by decide +kernel
  obtain ⟨values, -⟩ := updates_along_one_path_fuse (Path.parse "rows[].n") f g root
  obtain ⟨-, equal⟩ := updates_along_one_path_fuse (Path.parse "rows[].n") f g refused
  exact ⟨total, (values r).mpr once, once, fails, equal total⟩

end Waypoint
