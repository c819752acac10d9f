/-!
# Sorting by a key

A stable sort by a numeric key: items with the same key keep their order.
-/

namespace Waypoint

variable {α : Type}

/-- Puts an item before the first one whose key is not smaller. -/
def insertBy (key : α → Nat) (item : α) : List α → List α
  | [] => [item]
  | first :: rest =>
    if key item ≤ key first then item :: first :: rest else first :: insertBy key item rest

def sortBy (key : α → Nat) : List α → List α
  | [] => []
  | first :: rest => insertBy key first (sortBy key rest)

theorem insertBy_perm (key : α → Nat) (item : α) (list : List α) :
    (insertBy key item list).Perm (item :: list) := by
  induction list with
  | nil => exact .refl _
  | cons first rest ih =>
    unfold insertBy
    split
    · exact .refl _
    · exact (ih.cons first).trans (.swap item first rest)

/-- Sorting changes nothing but the order. -/
theorem sortBy_perm (key : α → Nat) (list : List α) : (sortBy key list).Perm list := by
  induction list with
  | nil => exact .refl _
  | cons first rest ih => exact (insertBy_perm key first _).trans (ih.cons first)

theorem pairwise_insertBy (key : α → Nat) (item : α) (list : List α)
    (sorted : list.Pairwise fun a b => key a ≤ key b) :
    (insertBy key item list).Pairwise fun a b => key a ≤ key b := by
  induction list with
  | nil => simp [insertBy]
  | cons first rest ih =>
    have ⟨least, tail⟩ := List.pairwise_cons.mp sorted
    unfold insertBy
    split
    · rename_i le
      refine List.pairwise_cons.mpr ⟨fun other member => ?_, sorted⟩
      rcases List.mem_cons.mp member with rfl | later
      · exact le
      · exact Nat.le_trans le (least other later)
    · rename_i gt
      refine List.pairwise_cons.mpr ⟨fun other member => ?_, ih tail⟩
      rcases List.mem_cons.mp ((insertBy_perm key item rest).mem_iff.mp member) with rfl | later
      · exact Nat.le_of_not_le gt
      · exact least other later

/-- The keys of a sorted list never decrease. -/
theorem pairwise_sortBy (key : α → Nat) (list : List α) :
    (sortBy key list).Pairwise fun a b => key a ≤ key b := by
  induction list with
  | nil => exact .nil
  | cons first rest ih => exact pairwise_insertBy key first _ ih

/-- A list that is sorted already stays as it is. -/
theorem sortBy_of_pairwise (key : α → Nat) {list : List α}
    (sorted : list.Pairwise fun a b => key a ≤ key b) : sortBy key list = list := by
  induction list with
  | nil => rfl
  | cons first rest ih =>
    have ⟨least, tail⟩ := List.pairwise_cons.mp sorted
    rw [sortBy, ih tail]
    cases rest with
    | nil => rfl
    | cons second rest => exact if_pos (least second (List.mem_cons_self ..))

end Waypoint
