import Waypoint.Doc.Basic

/-!
# Equality of documents

Equality of documents, the order of keys included, is decidable.
-/

namespace Waypoint

namespace Doc

mutual

/-- Whether two documents are equal. -/
def same : Doc → Doc → Bool
  | null, null => true
  | bool a, bool b => a == b
  | int a, int b => a == b
  | float a, float b => a == b
  | str a, str b => a == b
  | arr xs, arr ys => sameItems xs ys
  | obj ms, obj ns => sameMembers ms ns
  | _, _ => false

def sameItems : List Doc → List Doc → Bool
  | [], [] => true
  | x :: xs, y :: ys => same x y && sameItems xs ys
  | _, _ => false

def sameMembers : List (String × Doc) → List (String × Doc) → Bool
  | [], [] => true
  | (k, v) :: ms, (l, w) :: ns => k == l && same v w && sameMembers ms ns
  | _, _ => false

end

mutual

theorem same_refl (doc : Doc) : same doc doc = true := by
  cases doc with
  | arr items => exact sameItems_refl items
  | obj members => exact sameMembers_refl members
  | _ => simp [same]

theorem sameItems_refl (items : List Doc) : sameItems items items = true := by
  cases items with
  | nil => rfl
  | cons first rest => simp [sameItems, same_refl first, sameItems_refl rest]

theorem sameMembers_refl (members : List (String × Doc)) :
    sameMembers members members = true := by
  match members with
  | [] => rfl
  | (k, v) :: rest => simp [sameMembers, same_refl v, sameMembers_refl rest]

end

mutual

theorem eq_of_same {a b : Doc} (h : same a b = true) : a = b := by
  match a, b with
  | null, null => rfl
  | bool a, bool b => simpa [same] using h
  | int a, int b => simpa [same] using h
  | float a, float b => simpa [same] using h
  | str a, str b => simpa [same] using h
  | arr xs, arr ys => exact congrArg arr (eq_of_sameItems h)
  | obj ms, obj ns => exact congrArg obj (eq_of_sameMembers h)

theorem eq_of_sameItems {xs ys : List Doc} (h : sameItems xs ys = true) : xs = ys := by
  match xs, ys with
  | [], [] => rfl
  | x :: xs, y :: ys =>
    have ⟨first, rest⟩ := Bool.and_eq_true_iff.mp h
    rw [eq_of_same first, eq_of_sameItems rest]

theorem eq_of_sameMembers {ms ns : List (String × Doc)} (h : sameMembers ms ns = true) :
    ms = ns := by
  match ms, ns with
  | [], [] => rfl
  | (k, v) :: ms, (l, w) :: ns =>
    have ⟨both, rest⟩ := Bool.and_eq_true_iff.mp h
    have ⟨key, value⟩ := Bool.and_eq_true_iff.mp both
    rw [eq_of_beq key, eq_of_same value, eq_of_sameMembers rest]

end

instance : DecidableEq Doc := fun a b =>
  decidable_of_iff (same a b = true) ⟨eq_of_same, fun h => h ▸ same_refl a⟩

end Doc

end Waypoint
