import Mathlib
import Waypoint.Proofs.Path.Elsewhere
import Waypoint.Proofs.Path.Similarity
import Waypoint.Proofs.Path.Walk

/-!
# What an update makes of a root by itself

An update with the identity tells what an update does to a root whatever the transform. It succeeds
where the root has the shape that the path asks for (`Path.Conforms`), and it leaves the root as it
is but for the last key of the path: an object that lacks it gets it, with null, at its end
(`Doc.appendNull`).
-/

namespace Waypoint

/-- Each stage meets a container of the kind it asks for, wherever it comes to. -/
def Conforms (stages : List Stage) (root : Doc) : Prop :=
  ∀ stage rest doc, Reaches stages root (stage :: rest) doc → doc.kind = stage.container

def Path.Conforms (path : Path) (root : Doc) : Prop :=
  Waypoint.Conforms path.stages root

/-- At a location stands an object without the key that is looked up there. -/
def Lacks (stages : List Stage) (root : Doc) (location : Location) (key : String) : Prop :=
  ∃ rest members, ReachesAt stages root location (.focus key :: rest) (.obj members) ∧
    key ∉ members.map Prod.fst

def Path.Lacks (path : Path) (root : Doc) (location : Location) (key : String) : Prop :=
  Waypoint.Lacks path.stages root location key

/-- Puts null under a new key at the end of the object at a location. -/
def Doc.appendNull (key : String) : Location → Doc → Doc
  | [], .obj members => .obj (members ++ [(key, .null)])
  | .key name :: rest, .obj members =>
    match member? name members with
    | some value => .obj (setMember name (appendNull key rest value) members)
    | none => .obj members
  | .index index :: rest, .arr items => .arr (items.modify index (appendNull key rest))
  | _, doc => doc

/-- The objects that stages go through and that lack the key looked up there, with that key. -/
def gaps : List Stage → Doc → List (Location × String)
  | .focus key :: rest, .obj members =>
    match Doc.member? key members with
    | some value => (gaps rest value).map (below (.key key))
    | none => [([], key)]
  | .lift _ :: rest, .arr items =>
    (items.mapIdx fun index item => (gaps rest item).map (below (.index index))).flatten
  | _, _ => []

/-- Puts null into gaps, one after another. -/
def Doc.fill (doc : Doc) (gaps : List (Location × String)) : Doc :=
  gaps.foldl (fun doc gap => doc.appendNull gap.2 gap.1) doc

/-! ## Stage by stage -/

section Stages

variable {key name : String} {rest : List Stage} {doc : Doc} {members : List (String × Doc)}
  {items : List Doc} {location : Location}

theorem Conforms.kind {stage : Stage} (conforms : Conforms (stage :: rest) doc) :
    doc.kind = stage.container :=
  conforms _ _ _ (.here _ doc)

theorem conforms_focus :
    Conforms (.focus key :: rest) (.obj members) ↔ Conforms rest (Doc.member key members) := by
  constructor
  · intro conforms stage left inner reaches
    exact conforms stage left inner (.focus reaches)
  · intro inside stage left inner reaches
    cases reaches with
    | here => rfl
    | focus further => exact inside stage left inner further

theorem conforms_lift :
    Conforms (.lift key :: rest) (.arr items) ↔ ∀ item ∈ items, Conforms rest item := by
  constructor
  · intro conforms item member stage left inner reaches
    exact conforms stage left inner (.lift member reaches)
  · intro inside stage left inner reaches
    cases reaches with
    | here => rfl
    | lift member further => exact inside _ member stage left inner further

/-- Null is neither an object nor an array. -/
theorem Conforms.eq_nil {stages : List Stage} (conforms : Conforms stages .null) : stages = [] := by
  cases stages with
  | nil => rfl
  | cons stage rest =>
      have shape := conforms.kind
      cases stage <;> cases shape

/-- Where the root conforms, so does what stands further down. -/
theorem Conforms.at {stages left : List Stage} {root : Doc} (conforms : Conforms stages root)
    (reaches : ReachesAt stages root location left doc) : Conforms left doc := by
  intro stage rest inner further
  obtain ⟨more, further⟩ := reaches_iff.mp further
  exact conforms stage rest inner (reaches_iff.mpr ⟨_, reaches.trans further⟩)

theorem not_lacks_null {stages : List Stage} : ¬ Lacks stages .null location name := by
  rintro ⟨left, members, reaches, -⟩
  cases reaches.eq_null

theorem lacks_focus :
    Lacks (.focus key :: rest) (.obj members) location name ↔
      (location = [] ∧ name = key ∧ key ∉ members.map Prod.fst) ∨
        ∃ inner, location = .key key :: inner ∧
          Lacks rest (Doc.member key members) inner name := by
  constructor
  · rintro ⟨left, others, reaches, absent⟩
    cases reaches with
    | here => exact .inl ⟨rfl, rfl, absent⟩
    | focus inside => exact .inr ⟨_, rfl, left, others, inside, absent⟩
  · rintro (⟨rfl, rfl, absent⟩ | ⟨inner, rfl, left, others, inside, absent⟩)
    · exact ⟨rest, members, .here _ _, absent⟩
    · exact ⟨left, others, .focus inside, absent⟩

theorem lacks_lift :
    Lacks (.lift key :: rest) (.arr items) location name ↔
      ∃ index item inner, items[index]? = some item ∧ location = .index index :: inner ∧
        Lacks rest item inner name := by
  constructor
  · rintro ⟨left, members, reaches, absent⟩
    cases reaches with
    | lift element inside => exact ⟨_, _, _, element, rfl, left, members, inside, absent⟩
  · rintro ⟨index, item, inner, element, rfl, left, members, inside, absent⟩
    exact ⟨left, members, .lift element inside, absent⟩

end Stages

/-! ## Gaps -/

/-- The objects that lack a key are those of the gaps. -/
theorem mem_gaps {stages : List Stage} {doc : Doc} {location : Location} {key : String} :
    (location, key) ∈ gaps stages doc ↔ Lacks stages doc location key := by
  fun_induction gaps stages doc generalizing location with
  | case1 name rest members value found ih =>
      rw [mem_map_below, lacks_focus, Doc.member, found, Option.getD_some]
      constructor
      · rintro ⟨inner, rfl, inside⟩
        exact .inr ⟨inner, rfl, ih.mp inside⟩
      · rintro (⟨-, -, absent⟩ | ⟨inner, rfl, lacks⟩)
        · rw [← Doc.member?_eq_none, found] at absent
          cases absent
        · exact ⟨inner, rfl, ih.mpr lacks⟩
  | case2 name rest members found =>
      rw [lacks_focus, Doc.member, found, Option.getD_none]
      constructor
      · intro member
        obtain ⟨rfl, rfl⟩ := Prod.mk.inj (List.mem_singleton.mp member)
        exact .inl ⟨rfl, rfl, Doc.member?_eq_none.mp found⟩
      · rintro (⟨rfl, rfl, -⟩ | ⟨inner, -, lacks⟩)
        · exact List.mem_singleton_self _
        · exact absurd lacks not_lacks_null
  | case3 name rest items ih => simp only [mem_elements, lacks_lift, ih]
  | case4 stages doc noObject noArray =>
      constructor
      · intro member
        cases member
      · rintro ⟨rest, members, reaches, -⟩
        obtain ⟨only, here⟩ := Finding.exists_at? noObject noArray
        obtain ⟨-, same, shape⟩ := reaches.of_found here
        exact (noObject _ _ _ same.symm shape.symm).elim

theorem below_injective {α : Type} (hop : Hop) : Function.Injective (below (α := α) hop) := by
  intro first second same
  obtain ⟨sameLocation, sameFound⟩ := Prod.mk.inj same
  exact Prod.ext (List.cons.inj sameLocation).2 sameFound

/-- No object is listed twice. -/
theorem nodup_gaps (stages : List Stage) (doc : Doc) : (gaps stages doc).Nodup := by
  fun_induction gaps stages doc with
  | case1 key rest members value found ih => exact ih.map (below_injective _)
  | case2 key rest members found => exact List.nodup_singleton _
  | case3 key rest items ih =>
      refine List.nodup_flatten.mpr ⟨?_, List.pairwise_iff_getElem.mpr ?_⟩
      · intro group element
        obtain ⟨index, bound, rfl⟩ := List.mem_mapIdx.mp element
        exact (ih _).map (below_injective _)
      · intro i j bound bound' less gap member member'
        rw [List.getElem_mapIdx] at member member'
        obtain ⟨inner, -, rfl⟩ := List.mem_map.mp member
        obtain ⟨inner', -, same⟩ := List.mem_map.mp member'
        have sameIndex := Hop.index.inj (List.cons.inj (Prod.mk.inj same).1).1
        omega
  | case4 => exact List.nodup_nil

/-! ## Filling gaps -/

namespace Doc

theorem fill_key {key : String} {members : List (String × Doc)} {value : Doc}
    (found : member? key members = some value) (gaps : List (Location × String)) :
    (obj members).fill (gaps.map (below (.key key))) =
      obj (setMember key (value.fill gaps) members) := by
  induction gaps generalizing members value with
  | nil => exact congrArg obj (setMember_self found).symm
  | cons gap rest ih =>
      have first : (obj members).appendNull gap.2 (.key key :: gap.1) =
          obj (setMember key (value.appendNull gap.2 gap.1) members) := by
        rw [appendNull, found]
      show fill ((obj members).appendNull gap.2 (.key key :: gap.1)) _ = _
      rw [first, ih (member?_setMember_self key _ members), setMember_setMember_self]
      rfl

theorem fill_index (index : Nat) (items : List Doc) (gaps : List (Location × String)) :
    (arr items).fill (gaps.map (below (.index index))) =
      arr (items.modify index fun item => item.fill gaps) := by
  induction gaps generalizing items with
  | nil => exact congrArg arr (List.modify_id index items).symm
  | cons gap rest ih =>
      show fill (arr (items.modify index (appendNull gap.2 gap.1))) _ = _
      rw [ih, List.modify_modify_eq]
      rfl

theorem fill_append (doc : Doc) (gaps more : List (Location × String)) :
    doc.fill (gaps ++ more) = (doc.fill gaps).fill more :=
  List.foldl_append

/-- Gaps below the elements of an array are filled element by element. -/
theorem fill_elements (gapsOf : Doc → List (Location × String)) (done items : List Doc) :
    (arr (done ++ items)).fill (items.mapIdx fun index item =>
        (gapsOf item).map (below (.index (done.length + index)))).flatten =
      arr (done ++ items.map fun item => item.fill (gapsOf item)) := by
  induction items generalizing done with
  | nil => rfl
  | cons item rest ih =>
      have first : (done ++ item :: rest).modify done.length
          (fun inner => inner.fill (gapsOf item)) =
            (done ++ [item.fill (gapsOf item)]) ++ rest := by
        simp [List.modify_eq_set]
      have shift : ∀ index, done.length + (index + 1) =
          (done ++ [item.fill (gapsOf item)]).length + index := by
        intro index
        simp only [List.length_append, List.length_singleton]
        omega
      rw [List.mapIdx_cons, List.flatten_cons, fill_append, Nat.add_zero, fill_index, first]
      simp only [shift]
      rw [ih, List.append_assoc]
      rfl

end Doc

/-! ## The update -/

namespace Strategies

variable {stages rest : List Stage} {root result : Doc} {location : Location} {key : String}

/-- Where the root conforms to the stages, the update with the identity fills the gaps. -/
theorem update_of_conforms (conforms : Conforms stages root) :
    (update.chain stages Except.ok root : Except PathError Doc) =
      .ok (root.fill (gaps stages root)) := by
  fun_induction gaps stages root with
  | case1 key rest members value found ih =>
      have inside := conforms_focus.mp conforms
      rw [Doc.member, found] at inside
      refine update_focus_eq_ok.mpr ⟨members, _, rfl, ?_, Doc.fill_key found _⟩
      rw [Doc.member, found]
      exact ih inside
  | case2 key rest members found =>
      have inside := conforms_focus.mp conforms
      rw [Doc.member, found] at inside
      -- no stage is left, since nothing can be looked up in a missing member
      obtain rfl := inside.eq_nil
      have absent := Doc.member?_eq_none.mp found
      refine update_focus_eq_ok.mpr ⟨members, .null, rfl, ?_, ?_⟩
      · rw [Doc.member, found]
        rfl
      · rw [Doc.setMember_of_notMem absent]
        rfl
  | case3 key rest items ih =>
      have filled := Doc.fill_elements (gaps rest) [] items
      simp only [List.length_nil, Nat.zero_add, List.nil_append] at filled
      have elements : List.Forall₂ (fun item value =>
            (update.chain rest Except.ok item : Except PathError Doc) = .ok value)
          items (items.map fun item => item.fill (gaps rest item)) := by
        rw [List.forall₂_map_right_iff, List.forall₂_same]
        intro item member
        exact ih item (conforms_lift.mp conforms item member)
      exact (lift_eq_ok rfl).mpr ⟨items, _, rfl, elements, filled⟩
  | case4 stages doc noObject noArray =>
      cases stages with
      | nil => rfl
      | cons stage rest =>
          have shape := conforms.kind
          cases stage <;> cases doc <;> cases shape
          · exact (noObject _ _ _ rfl rfl).elim
          · exact (noArray _ _ _ rfl rfl).elim

/-- An update that succeeds finds the shapes that it asks for. -/
theorem conforms_of_update {leaf : Doc → Except PathError Doc}
    (updated : update.chain stages leaf root = .ok result) : Conforms stages root := by
  intro stage rest doc reaches
  obtain ⟨location, reaches⟩ := reaches_iff.mp reaches
  obtain ⟨after, -, ok⟩ := updated_at reaches updated
  cases stage with
  | focus key =>
      obtain ⟨members, _, rfl, -, -⟩ := update_focus_eq_ok.mp ok
      rfl
  | lift key =>
      obtain ⟨items, _, rfl, -, -⟩ := (lift_eq_ok rfl).mp ok
      rfl

/-- An object that lacks the key has it after the update, so it has changed. -/
theorem not_lacks_of_same {leaf : Doc → Except PathError Doc}
    (updated : update.chain stages leaf root = .ok root) : ¬ Lacks stages root location key := by
  rintro ⟨rest, members, reaches, absent⟩
  obtain ⟨after, there, ok⟩ := updated_at reaches updated
  obtain ⟨_, inner, shape, -, rfl⟩ := update_focus_eq_ok.mp ok
  obtain rfl := Doc.obj.inj shape
  rw [reaches.at?_eq_some Doc.noConfusion] at there
  have same := Doc.obj.inj (Option.some.inj there)
  have changed := congrArg (Doc.member? key) same
  rw [Doc.member?_setMember_self, Doc.member?_eq_none.mpr absent] at changed
  cases changed

/-- Nothing is looked up in a missing member, so the key that is missing is the last one. -/
theorem last_of_lacks {path : Path} (conforms : path.Conforms root)
    (lacks : path.Lacks root location key) : path.segments.getLast? = some (.field key) := by
  obtain ⟨rest, members, reaches, absent⟩ := lacks
  obtain ⟨taken, all, -⟩ := reaches.hops
  have inside := conforms_focus.mp (conforms.at reaches)
  rw [Doc.member, Doc.member?_eq_none.mpr absent] at inside
  obtain rfl := inside.eq_nil
  exact Path.getLast?_of_stages all

end Strategies

/-- An update with the identity succeeds exactly where the root conforms to the path, and leaves the
root as it is, its key order included, exactly where moreover no object lacks a key that is looked
up in it. Otherwise null is put at the end of the objects that lack one, each of them once, and the
key is the last one of the path. -/
theorem update_with_identity_completes (path : Path) (root : Doc) :
    let result := (CompiledPath.access ⟨path, .update⟩ Transform.identity.run root).result
    ((∃ value, result = .ok value) ↔ path.Conforms root) ∧
      (result = .ok root ↔
        path.Conforms root ∧ ∀ location key, ¬ path.Lacks root location key) ∧
      (path.Conforms root → ∃ gaps : List (Location × String),
        gaps.Nodup ∧
          (∀ location key, (location, key) ∈ gaps ↔ path.Lacks root location key) ∧
          (∀ gap ∈ gaps, path.segments.getLast? = some (.field gap.2)) ∧
          result = .ok (root.fill gaps)) := by
  intro result
  have chain : result = Strategies.update.chain path.stages Except.ok root :=
    CompiledPath.result_access _ _ root
  have filled : path.Conforms root → result = .ok (root.fill (gaps path.stages root)) := by
    intro conforms
    rw [chain]
    exact Strategies.update_of_conforms conforms
  have conforms_of_ok : ∀ value, result = .ok value → path.Conforms root := by
    intro value ok
    rw [chain] at ok
    exact Strategies.conforms_of_update ok
  refine ⟨⟨?_, ?_⟩, ⟨?_, ?_⟩, ?_⟩
  · rintro ⟨value, ok⟩
    exact conforms_of_ok value ok
  · intro conforms
    exact ⟨_, filled conforms⟩
  · intro same
    refine ⟨conforms_of_ok root same, fun location key => ?_⟩
    rw [chain] at same
    exact Strategies.not_lacks_of_same same
  · rintro ⟨conforms, complete⟩
    have none : gaps path.stages root = [] := by
      rw [List.eq_nil_iff_forall_not_mem]
      rintro ⟨location, key⟩ member
      exact complete location key (mem_gaps.mp member)
    rw [filled conforms, none]
    rfl
  · intro conforms
    refine ⟨gaps path.stages root, nodup_gaps _ _, fun location key => mem_gaps, ?_,
      filled conforms⟩
    rintro ⟨location, key⟩ member
    exact Strategies.last_of_lacks conforms (mem_gaps.mp member)

/-- Of two rows the first one lacks the last key, so it gets it, with null; had it been there, the
root would have been left as it is. -/
theorem update_of_rows_with_identity_completes_the_first :
    let path := Path.parse "rows[].n"
    let update := CompiledPath.access ⟨path, .update⟩ Transform.identity.run
    let root := Doc.obj [("rows", .arr [.obj [("z", .int 6)], .obj [("n", .int 1)]])]
    let complete := Doc.obj [("rows", .arr [.obj [("z", .int 6), ("n", .null)],
      .obj [("n", .int 1)]])]
    path.Conforms root ∧ (update root).result = .ok complete ∧
      (update complete).result = .ok complete ∧
      ∀ location key, ¬ path.Lacks complete location key := by
  intro path update root complete
  have first : (update root).result = .ok complete := by decide +kernel
  have again : (update complete).result = .ok complete := by decide +kernel
  obtain ⟨conforms, -, -⟩ := update_with_identity_completes path root
  obtain ⟨-, same, -⟩ := update_with_identity_completes path complete
  exact ⟨conforms.mp ⟨complete, first⟩, first, again, (same.mp again).2⟩

end Waypoint
