import Mathlib
import Waypoint.Doc.Basic

/-!
# Documents that agree

Two documents agree if they are equal but for the order of keys (`Doc.agrees`). Members are compared
by their keys, so this makes sense for documents in which no object has a key twice
(`Doc.DistinctKeys`). For those it is enough to look members up (`Doc.agrees_obj`).
-/

namespace Waypoint

namespace Doc

/-- No object in a document has a key twice. -/
inductive DistinctKeys : Doc → Prop
  | null : DistinctKeys .null
  | bool (value : Bool) : DistinctKeys (.bool value)
  | int (value : Int) : DistinctKeys (.int value)
  | float (text : String) : DistinctKeys (.float text)
  | str (text : String) : DistinctKeys (.str text)
  | arr {items : List Doc} (each : ∀ item ∈ items, DistinctKeys item) : DistinctKeys (.arr items)
  | obj {members : List (String × Doc)} (keys : (members.map Prod.fst).Nodup)
      (each : ∀ entry ∈ members, DistinctKeys entry.2) : DistinctKeys (.obj members)

attribute [simp] DistinctKeys.null DistinctKeys.bool DistinctKeys.int DistinctKeys.float
  DistinctKeys.str

@[simp] theorem distinctKeys_arr {items : List Doc} :
    (arr items).DistinctKeys ↔ ∀ item ∈ items, item.DistinctKeys := by
  constructor
  · intro distinct
    cases distinct with
    | arr each => exact each
  · exact .arr

@[simp] theorem distinctKeys_obj {members : List (String × Doc)} :
    (obj members).DistinctKeys ↔
      (members.map Prod.fst).Nodup ∧ ∀ entry ∈ members, entry.2.DistinctKeys := by
  constructor
  · intro distinct
    cases distinct with
    | obj keys each => exact ⟨keys, each⟩
  · rintro ⟨keys, each⟩
    exact .obj keys each

/-! ## Looking up members -/

section Members

variable {key : String} {value : Doc} {members : List (String × Doc)}

theorem mem_of_member? (found : member? key members = some value) : (key, value) ∈ members := by
  induction members with
  | nil => cases found
  | cons entry rest ih =>
      obtain ⟨name, other⟩ := entry
      rw [member?] at found
      split at found
      · rename_i same
        obtain rfl := Option.some.inj found
        exact same ▸ List.mem_cons_self
      · exact List.mem_cons_of_mem _ (ih found)

theorem member?_of_mem (keys : (members.map Prod.fst).Nodup) (member : (key, value) ∈ members) :
    member? key members = some value := by
  induction members with
  | nil => cases member
  | cons entry rest ih =>
      obtain ⟨absent, distinct⟩ := List.nodup_cons.mp keys
      rw [member?]
      rcases List.mem_cons.mp member with rfl | later
      · rw [if_pos rfl]
      · -- the key stands further on, so the first entry has another one
        have differs : entry.1 ≠ key := by
          rintro rfl
          exact absent (List.mem_map.mpr ⟨_, later, rfl⟩)
        rw [if_neg differs, ih distinct later]

end Members

/-! ## Agreement -/

section Agreement

variable {items items' : List Doc} {members members' : List (String × Doc)}

theorem agrees_arr (each : List.Forall₂ (fun one two => one.agrees two = true) items items') :
    (arr items).agrees (arr items') = true := by
  rw [agrees]
  induction each with
  | nil => rfl
  | cons head _ ih => rw [itemsAgree, head, ih, Bool.and_self]

theorem membersAgree_of_forall
    (each : ∀ entry ∈ members, ∃ other, member? entry.1 members' = some other ∧
      entry.2.agrees other = true) : membersAgree members members' = true := by
  induction members with
  | nil => rfl
  | cons entry rest ih =>
      obtain ⟨other, found, same⟩ := each entry List.mem_cons_self
      have tail := ih fun entry member => each entry (List.mem_cons_of_mem _ member)
      rw [membersAgree, found]
      show (entry.2.agrees other && membersAgree rest members') = true
      rw [same, tail, Bool.and_self]

/-- Objects with as many members agree if what is found in the one is found in the other. -/
theorem agrees_obj (keys : (members.map Prod.fst).Nodup)
    (length : members.length = members'.length)
    (each : ∀ key value, member? key members = some value →
      ∃ other, member? key members' = some other ∧ value.agrees other = true) :
    (obj members).agrees (obj members') = true := by
  have found : membersAgree members members' = true :=
    membersAgree_of_forall fun entry member => each _ _ (member?_of_mem keys member)
  rw [agrees, found, length, beq_self_eq_true, Bool.and_self]

theorem DistinctKeys.agrees_self {doc : Doc} (distinct : doc.DistinctKeys) :
    doc.agrees doc = true := by
  induction distinct with
  | null => rfl
  | bool _ | int _ | float _ | str _ => simp [agrees]
  | arr _ ih => exact agrees_arr (List.forall₂_same.mpr ih)
  | obj keys _ ih =>
      exact agrees_obj keys rfl fun key value found => ⟨value, found, ih _ (mem_of_member? found)⟩

end Agreement

end Doc

end Waypoint
