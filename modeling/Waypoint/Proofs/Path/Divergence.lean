import Mathlib
import Waypoint.Proofs.Doc.Agreement
import Waypoint.Proofs.Path.Chain
import Waypoint.Proofs.Path.Concatenation
import Waypoint.Proofs.Path.Positions

/-!
# Updates along diverging paths

Two paths that part at keys that differ write different members of the same objects, so updates
along them may be made in either order. Both orders succeed in the same cases. The results differ
only where an object at the point of divergence has neither key: there both keys are appended, in
the order of the updates (`Reordered`).
-/

namespace Waypoint

/-- Two documents differ in nothing but the order of two keys that were appended. Along the stages
the document before the updates leads to the objects of which they are members. -/
inductive Reordered (key other : String) : List Stage → Doc → Doc → Doc → Prop
  | same {members : List (String × Doc)} (result : Doc)
      (present : key ∈ members.map Prod.fst ∨ other ∈ members.map Prod.fst) :
      Reordered key other [] (.obj members) result result
  | appended {members : List (String × Doc)} (value value' : Doc)
      (absent : key ∉ members.map Prod.fst) (absent' : other ∉ members.map Prod.fst) :
      Reordered key other [] (.obj members)
        (.obj (members ++ [(key, value), (other, value')]))
        (.obj (members ++ [(other, value'), (key, value)]))
  | focus {name : String} {rest : List Stage} {members : List (String × Doc)} {inner inner' : Doc}
      (inside : Reordered key other rest (Doc.member name members) inner inner') :
      Reordered key other (.focus name :: rest) (.obj members)
        (.obj (Doc.setMember name inner members)) (.obj (Doc.setMember name inner' members))
  | lift {name : String} {rest : List Stage} {items results results' : List Doc}
      (length : results.length = items.length) (length' : results'.length = items.length)
      (each : ∀ (index : Nat) (item result result' : Doc), items[index]? = some item →
        results[index]? = some result → results'[index]? = some result' →
        Reordered key other rest item result result') :
      Reordered key other (.lift name :: rest) (.arr items) (.arr results) (.arr results')

namespace Doc

variable {key other : String} {value value' : Doc} {members : List (String × Doc)}

/-- The order in which two members are written does not matter for what is found. -/
theorem member?_setMember_comm (ne : key ≠ other) (name : String) :
    member? name (setMember other value' (setMember key value members)) =
      member? name (setMember key value (setMember other value' members)) := by
  by_cases first : name = key
  · subst first
    rw [member?_setMember_of_ne ne, member?_setMember_self, member?_setMember_self]
  · rw [member?_setMember_of_ne first]
    by_cases second : name = other
    · subst second
      rw [member?_setMember_self, member?_setMember_self]
    · rw [member?_setMember_of_ne second, member?_setMember_of_ne second,
        member?_setMember_of_ne first]

theorem setMember_setMember_of_notMem (ne : key ≠ other) (absent : key ∉ members.map Prod.fst)
    (absent' : other ∉ members.map Prod.fst) :
    setMember other value' (setMember key value members) =
      members ++ [(key, value), (other, value')] := by
  have still : other ∉ (members ++ [(key, value)]).map Prod.fst := by
    rw [List.map_append, List.mem_append, not_or]
    exact ⟨absent', fun member => ne (List.mem_singleton.mp member).symm⟩
  rw [setMember_of_notMem absent, setMember_of_notMem still, List.append_assoc]
  rfl

end Doc

namespace Reordered

variable {key other : String} {stages rest : List Stage} {root result result' : Doc}

/-- Two members of one object, written in both orders. -/
theorem of_setMember (ne : key ≠ other) (value value' : Doc) (members : List (String × Doc)) :
    Reordered key other [] (.obj members)
      (.obj (Doc.setMember other value' (Doc.setMember key value members)))
      (.obj (Doc.setMember key value (Doc.setMember other value' members))) := by
  by_cases present : key ∈ members.map Prod.fst ∨ other ∈ members.map Prod.fst
  · rw [Doc.setMember_comm ne value value' present]
    exact .same _ present
  · obtain ⟨absent, absent'⟩ := not_or.mp present
    rw [Doc.setMember_setMember_of_notMem ne absent absent',
      Doc.setMember_setMember_of_notMem ne.symm absent' absent]
    exact .appended value value' absent absent'

/-- Documents that differ in the order of keys only agree. -/
theorem agrees (ne : key ≠ other) (reordered : Reordered key other stages root result result')
    (distinct : result.DistinctKeys) : result.agrees result' = true := by
  induction reordered with
  | same result _ => exact distinct.agrees_self
  | @appended members value value' absent absent' =>
      rw [← Doc.setMember_setMember_of_notMem ne absent absent'] at distinct ⊢
      rw [← Doc.setMember_setMember_of_notMem ne.symm absent' absent]
      obtain ⟨keys, each⟩ := Doc.distinctKeys_obj.mp distinct
      have length : (Doc.setMember other value' (Doc.setMember key value members)).length =
          (Doc.setMember key value (Doc.setMember other value' members)).length := by
        rw [Doc.setMember_setMember_of_notMem ne absent absent',
          Doc.setMember_setMember_of_notMem ne.symm absent' absent, List.length_append,
          List.length_append]
        rfl
      refine Doc.agrees_obj keys length fun name found at_name => ?_
      have agrees := (each (name, found) (Doc.mem_of_member? at_name)).agrees_self
      rw [Doc.member?_setMember_comm ne] at at_name
      exact ⟨found, at_name, agrees⟩
  | @focus name rest members inner inner' _ ih =>
      obtain ⟨keys, each⟩ := Doc.distinctKeys_obj.mp distinct
      have length : (Doc.setMember name inner members).length =
          (Doc.setMember name inner' members).length := by
        rw [← List.length_map Prod.fst, Doc.keys_setMember, ← Doc.keys_setMember name inner',
          List.length_map]
      refine Doc.agrees_obj keys length fun other found at_other => ?_
      have inside := each (other, found) (Doc.mem_of_member? at_other)
      by_cases same : other = name
      · subst same
        rw [Doc.member?_setMember_self] at at_other ⊢
        obtain rfl := Option.some.inj at_other
        exact ⟨inner', rfl, ih inside⟩
      · rw [Doc.member?_setMember_of_ne same] at at_other ⊢
        exact ⟨found, at_other, inside.agrees_self⟩
  | @lift _ _ items results results' length length' _ ih =>
      have each := Doc.distinctKeys_arr.mp distinct
      refine Doc.agrees_arr (List.forall₂_iff_get.mpr ⟨length.trans length'.symm, ?_⟩)
      intro index bound bound'
      have bound_items : index < items.length := length ▸ bound
      exact ih index _ _ _ (List.getElem?_eq_getElem bound_items)
        (List.getElem?_eq_getElem bound) (List.getElem?_eq_getElem bound')
        (each _ (List.getElem_mem bound))

/-- They are equal exactly where each object has one of the two keys. -/
theorem eq_iff (ne : key ≠ other) (reordered : Reordered key other stages root result result') :
    result = result' ↔ ∀ members, Reaches stages root [] (.obj members) →
      key ∈ members.map Prod.fst ∨ other ∈ members.map Prod.fst := by
  induction reordered with
  | same result present =>
      refine iff_of_true rfl fun members reaches => ?_
      cases reaches
      exact present
  | @appended members value value' absent absent' =>
      refine iff_of_false (fun same => ?_) fun present => ?_
      · have entries := List.append_cancel_left (Doc.obj.inj same)
        exact ne (congrArg Prod.fst (List.cons.inj entries).1)
      · exact (present members (.here _ _)).elim absent absent'
  | @focus name rest members inner inner' _ ih =>
      have inside : Doc.obj (Doc.setMember name inner members) =
          .obj (Doc.setMember name inner' members) ↔ inner = inner' := by
        refine ⟨fun same => ?_, fun same => same ▸ rfl⟩
        have found := congrArg (Doc.member? name) (Doc.obj.inj same)
        rw [Doc.member?_setMember_self, Doc.member?_setMember_self] at found
        exact Option.some.inj found
      rw [inside, ih]
      refine forall_congr' fun below => imp_congr_left ⟨.focus, fun reaches => ?_⟩
      cases reaches
      assumption
  | @lift name rest items results results' length length' _ ih =>
      rw [Doc.arr.injEq]
      constructor
      · rintro rfl members reaches
        cases reaches with
        | lift member inside =>
            obtain ⟨index, bound, rfl⟩ := List.getElem_of_mem member
            have at_result := List.getElem?_eq_getElem (length ▸ bound)
            exact (ih index _ _ _ (List.getElem?_eq_getElem bound) at_result at_result).mp rfl
              members inside
      · intro present
        refine List.ext_getElem (length.trans length'.symm) fun index bound bound' => ?_
        have bound_items : index < items.length := length ▸ bound
        refine (ih index _ _ _ (List.getElem?_eq_getElem bound_items)
          (List.getElem?_eq_getElem bound) (List.getElem?_eq_getElem bound')).mpr ?_
        exact fun members reaches => present members (.lift (List.getElem_mem _) reaches)

end Reordered

/-! ## Both orders -/

namespace Strategies

variable {key other : String} {shared rest rest' : List Stage}
  {leaf leaf' : Doc → Except PathError Doc}

/-- The elements of an array, updated in both orders. -/
theorem exists_reordered {swapped : Doc → Except PathError Doc}
    {swapped' : Doc → Except PathError Doc} {name : String} {items results : List Doc}
    (each : List.Forall₂ (fun item result => ∃ middle result', swapped item = .ok middle ∧
      swapped' middle = .ok result' ∧ Reordered key other shared item result result')
      items results) :
    ∃ middles results', List.Forall₂ (fun item middle => swapped item = .ok middle) items middles ∧
      List.Forall₂ (fun middle result' => swapped' middle = .ok result') middles results' ∧
      Reordered key other (.lift name :: shared) (.arr items) (.arr results) (.arr results') := by
  induction each with
  | nil => exact ⟨[], [], .nil, .nil, .lift rfl rfl fun _ _ _ _ none => nomatch none⟩
  | cons head _ ih =>
      obtain ⟨middle, result', one, two, reordered⟩ := head
      obtain ⟨middles, results', ones, twos, reordereds⟩ := ih
      refine ⟨middle :: middles, result' :: results', .cons one ones, .cons two twos, ?_⟩
      cases reordereds with
      | lift length length' each =>
          refine .lift (congrArg Nat.succ length) (congrArg Nat.succ length') ?_
          intro index
          cases index with
          | zero =>
              intro item first second at_item at_first at_second
              obtain rfl := Option.some.inj at_item
              obtain rfl := Option.some.inj at_first
              obtain rfl := Option.some.inj at_second
              exact reordered
          | succ index => exact each index

/-- An update along one path and then along the other can be made in the other order. -/
theorem update_update_comm (ne : key ≠ other) (shared : List Stage) {doc middle result : Doc}
    (one : update.chain (shared ++ .focus key :: rest) leaf doc = .ok middle)
    (two : update.chain (shared ++ .focus other :: rest') leaf' middle = .ok result) :
    ∃ middle' result', update.chain (shared ++ .focus other :: rest') leaf' doc = .ok middle' ∧
      update.chain (shared ++ .focus key :: rest) leaf middle' = .ok result' ∧
      Reordered key other shared doc result result' := by
  induction shared generalizing doc middle result with
  | nil =>
      obtain ⟨members, value, rfl, inside, rfl⟩ := update_focus_eq_ok.mp one
      obtain ⟨_, value', shape, inside', rfl⟩ := update_focus_eq_ok.mp two
      obtain rfl := Doc.obj.inj shape
      -- neither update changes the member that the other one is about
      rw [Doc.member, Doc.member?_setMember_of_ne ne.symm] at inside'
      refine ⟨_, _, update_focus_eq_ok.mpr ⟨members, value', rfl, inside', rfl⟩,
        update_focus_eq_ok.mpr ⟨_, value, rfl, ?_, rfl⟩, .of_setMember ne value value' members⟩
      rw [Doc.member, Doc.member?_setMember_of_ne ne]
      exact inside
  | cons stage shared ih =>
      cases stage with
      | focus name =>
          obtain ⟨members, inner, rfl, inside, rfl⟩ := update_focus_eq_ok.mp one
          obtain ⟨_, last, shape, inside', rfl⟩ := update_focus_eq_ok.mp two
          obtain rfl := Doc.obj.inj shape
          rw [Doc.member, Doc.member?_setMember_self] at inside'
          obtain ⟨inner', last', swapped, swapped', reordered⟩ := ih inside inside'
          refine ⟨_, _, update_focus_eq_ok.mpr ⟨members, inner', rfl, swapped, rfl⟩,
            update_focus_eq_ok.mpr ⟨_, last', rfl, ?_, rfl⟩, ?_⟩
          · rw [Doc.member, Doc.member?_setMember_self]
            exact swapped'
          · rw [Doc.setMember_setMember_self, Doc.setMember_setMember_self]
            exact .focus reordered
      | lift name =>
          obtain ⟨items, middles, rfl, ones, rfl⟩ := (lift_eq_ok rfl).mp one
          obtain ⟨_, results, shape, twos, rfl⟩ := (lift_eq_ok rfl).mp two
          obtain rfl := Doc.arr.inj shape
          have each := (forall₂_comp_iff.mpr ⟨middles, ones, twos⟩).imp
            fun item result ⟨middle, inside, inside'⟩ => ih inside inside'
          obtain ⟨middles', results', ones', twos', reordered⟩ := exists_reordered each
          exact ⟨_, _, (lift_eq_ok rfl).mpr ⟨items, middles', rfl, ones', rfl⟩,
            (lift_eq_ok rfl).mpr ⟨middles', results', rfl, twos', rfl⟩, reordered⟩

end Strategies

/-- A path leads through the steps that it shares with another one to the key of the next step. -/
theorem Path.exists_stages_append (shared : List Segment) (step : Segment)
    (later : List Segment) :
    ∃ rest, Path.stages ⟨shared ++ step :: later⟩ =
      Path.stages ⟨shared⟩ ++ .focus step.key :: rest := by
  refine ⟨(if step.isArray then [.lift step.key] else []) ++ Path.stages ⟨later⟩, ?_⟩
  rw [Path.stages_append]
  show _ ++ (step.stages ++ Path.stages ⟨later⟩) = _
  rw [Segment.stages]
  cases step.isArray <;> rfl

/-- Updates along two paths that part at different keys succeed in one order where they succeed in
the other. The results differ in nothing but the order of the two keys, in the objects at the point
of divergence that have neither of them, so they agree, and are equal where every such object has
one of the two keys. -/
theorem updates_along_diverging_paths_commute (shared : List Segment) (s t : Segment)
    (apart : s.key ≠ t.key) (ps qs : List Segment) (f g : Doc → Trace Notice Doc) (root : Doc) :
    let update (segments : List Segment) := CompiledPath.access ⟨⟨segments⟩, .update⟩
    let p := shared ++ s :: ps
    let q := shared ++ t :: qs
    let first := (update p f root).andThen (update q g)
    let second := (update q g root).andThen (update p f)
    ((∃ r, first.result = .ok r) ↔ ∃ r, second.result = .ok r) ∧
      ∀ r r', first.result = .ok r → second.result = .ok r' →
        Reordered s.key t.key (Path.stages ⟨shared⟩) root r r' ∧
          (r.DistinctKeys → r.agrees r' = true) ∧
          (r = r' ↔ ∀ members, Reaches (Path.stages ⟨shared⟩) root [] (.obj members) →
            s.key ∈ members.map Prod.fst ∨ t.key ∈ members.map Prod.fst) := by
  intro update p q first second
  obtain ⟨rest, stages_p⟩ := Path.exists_stages_append shared s ps
  obtain ⟨rest', stages_q⟩ := Path.exists_stages_append shared t qs
  have one (r : Doc) : first.result = .ok r ↔ ∃ middle,
      Strategies.update.chain (Path.stages ⟨shared⟩ ++ .focus s.key :: rest)
        (fun doc => (f doc).result) root = .ok middle ∧
      Strategies.update.chain (Path.stages ⟨shared⟩ ++ .focus t.key :: rest')
        (fun doc => (g doc).result) middle = .ok r := by
    rw [Recorded.result_andThen]
    simp only [update, CompiledPath.result_access, p, q, stages_p, stages_q]
    exact bind_eq_ok
  have two (r : Doc) : second.result = .ok r ↔ ∃ middle,
      Strategies.update.chain (Path.stages ⟨shared⟩ ++ .focus t.key :: rest')
        (fun doc => (g doc).result) root = .ok middle ∧
      Strategies.update.chain (Path.stages ⟨shared⟩ ++ .focus s.key :: rest)
        (fun doc => (f doc).result) middle = .ok r := by
    rw [Recorded.result_andThen]
    simp only [update, CompiledPath.result_access, p, q, stages_p, stages_q]
    exact bind_eq_ok
  refine ⟨⟨?_, ?_⟩, ?_⟩
  · rintro ⟨r, ok⟩
    obtain ⟨middle, inside, inside'⟩ := (one r).mp ok
    obtain ⟨middle', r', swapped, swapped', -⟩ :=
      Strategies.update_update_comm apart _ inside inside'
    exact ⟨r', (two r').mpr ⟨middle', swapped, swapped'⟩⟩
  · rintro ⟨r, ok⟩
    obtain ⟨middle, inside, inside'⟩ := (two r).mp ok
    obtain ⟨middle', r', swapped, swapped', -⟩ :=
      Strategies.update_update_comm apart.symm _ inside inside'
    exact ⟨r', (one r').mpr ⟨middle', swapped, swapped'⟩⟩
  · intro r r' ok ok'
    obtain ⟨middle, inside, inside'⟩ := (one r).mp ok
    obtain ⟨middle', other, swapped, swapped', reordered⟩ :=
      Strategies.update_update_comm apart _ inside inside'
    obtain rfl : other = r' :=
      Except.ok.inj (((two other).mpr ⟨middle', swapped, swapped'⟩).symm.trans ok')
    exact ⟨reordered, reordered.agrees apart, reordered.eq_iff apart⟩

/-- The second row has neither key, so the order of the updates shows there, and only there. -/
theorem updates_of_rows_commute :
    let update (path : String) := CompiledPath.access ⟨Path.parse path, .update⟩
    let increment := Transform.increment.run
    let mark := (Transform.constant (.str "seen")).run
    let row (members : List (String × Doc)) := Doc.obj members
    let rows (items : List Doc) := Doc.obj [("rows", .arr items), ("y", .null)]
    let root := rows [row [("n", .int 1)], row [("z", .int 5)]]
    let marked := row [("n", .int 2), ("m", .str "seen")]
    let r := rows [marked, row [("z", .int 5), ("n", .int 1), ("m", .str "seen")]]
    let r' := rows [marked, row [("z", .int 5), ("m", .str "seen"), ("n", .int 1)]]
    ((update "rows[].n" increment root).andThen (update "rows[].m" mark)).result = .ok r ∧
      ((update "rows[].m" mark root).andThen (update "rows[].n" increment)).result = .ok r' ∧
      "n" ≠ "m" ∧ r.DistinctKeys ∧ r.agrees r' = true ∧ r ≠ r' ∧
      Reordered "n" "m" [.focus "rows", .lift "rows"] root r r' := by
  intro update increment mark row rows root marked r r'
  have first : ((update "rows[].n" increment root).andThen
      (update "rows[].m" mark)).result = .ok r := by decide +kernel
  have second : ((update "rows[].m" mark root).andThen
      (update "rows[].n" increment)).result = .ok r' := by decide +kernel
  have distinct : r.DistinctKeys := by simp [r, rows, row, marked]
  have parts := updates_along_diverging_paths_commute [.array "rows"] (.field "n") (.field "m")
    (by decide) [] [] increment mark root
  obtain ⟨reordered, agree, equal⟩ := parts.2 r r' first second
  exact ⟨first, second, by decide, distinct, agree distinct, by decide +kernel, reordered⟩

end Waypoint
