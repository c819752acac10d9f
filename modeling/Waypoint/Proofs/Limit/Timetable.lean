import Mathlib
import Waypoint.Limit.Timeline

/-!
# Timetables

When the tasks of a bounded run start and in which order they end. A timetable is greedy
(`Timetable.Greedy`) if a task starts with the end that makes room for it: the first `limit` tasks
at once, and each later one with the end that leaves as many tasks ended as have to make way for it.

The order of the ends changes with the limit, so two timetables of the same tasks cannot be compared
end by end. They are compared at the starts, in input order: up to the start of a task the smaller
limit has seen as many ends as have to make way, and under the greater limit the same tasks have
ended by then (`Timetable.Greedy.start_le`).
-/

namespace Waypoint

/-- When tasks start, the order in which they end, and the time at which the run has its result. -/
structure Timetable where
  start : Nat → Nat
  order : List Nat
  elapsed : Nat

namespace Timetable

/-- The end of a task that takes the time `duration index`. -/
def finish (duration : Nat → Nat) (table : Timetable) (index : Nat) : Nat :=
  table.start index + duration index

/-- Of `count` tasks at most `limit` are in flight, and no slot is left free. -/
structure Greedy (limit count : Nat) (duration : Nat → Nat) (table : Timetable) : Prop where
  all : table.order.Perm (List.range count)
  sorted : table.order.Pairwise fun first second =>
    table.finish duration first ≤ table.finish duration second
  atOnce : ∀ index < count, index < limit → table.start index = 0
  /-- A later task starts with the end that makes room for it. -/
  follows : ∀ index < count, limit ≤ index → ∃ earlier,
    table.order[index - limit]? = some earlier ∧ table.start index = table.finish duration earlier
  /-- Only launched tasks end. -/
  launched : ∀ position index, table.order[position]? = some index → index < limit + position
  within : ∀ index < count, table.finish duration index ≤ table.elapsed
  lasts : table.elapsed = 0 ∨ ∃ index < count, table.finish duration index = table.elapsed

namespace Greedy

variable {limit more count : Nat} {duration : Nat → Nat} {table other : Timetable}

theorem mem_order (greedy : table.Greedy limit count duration) {index : Nat} :
    index ∈ table.order ↔ index < count :=
  greedy.all.mem_iff.trans List.mem_range

theorem nodup (greedy : table.Greedy limit count duration) : table.order.Nodup :=
  greedy.all.nodup_iff.mpr List.nodup_range

/-- What stands earlier in the order ends no later. -/
theorem finish_le (greedy : table.Greedy limit count duration) {position later first second : Nat}
    (here : table.order[position]? = some first) (there : table.order[later]? = some second)
    (le : position ≤ later) : table.finish duration first ≤ table.finish duration second := by
  obtain ⟨_, rfl⟩ := List.getElem?_eq_some_iff.mp here
  obtain ⟨_, rfl⟩ := List.getElem?_eq_some_iff.mp there
  rcases Nat.eq_or_lt_of_le le with rfl | lt
  · exact Nat.le_refl _
  · exact List.pairwise_iff_getElem.mp greedy.sorted _ _ _ _ lt

/-- No task starts later under a greater limit. -/
theorem start_le (greedy : table.Greedy limit count duration)
    (relaxed : other.Greedy more count duration) (le : limit ≤ more)
    {index : Nat} (inside : index < count) : other.start index ≤ table.start index := by
  induction index using Nat.strong_induction_on with | _ index ih => ?_
  by_cases first : index < more
  · rw [relaxed.atOnce index inside first]
    exact Nat.zero_le _
  obtain ⟨last, makesRoom, start⟩ := greedy.follows index inside (by omega)
  obtain ⟨last', makesRoom', start'⟩ := relaxed.follows index inside (by omega)
  rw [start, start']
  by_contra late
  -- the tasks that have ended by then under the smaller limit have all ended under the greater one
  have ended : table.order.take (index - limit + 1) ⊆ other.order.take (index - more) := by
    intro earlier member
    obtain ⟨position, here, rfl⟩ := List.mem_take_iff_getElem.mp member
    have found : table.order[position]? = some table.order[position] :=
      List.getElem?_eq_getElem (by omega)
    have before := greedy.launched position _ found
    have ends := greedy.finish_le found makesRoom (by omega)
    have sooner := ih table.order[position] (by omega) (greedy.mem_order.mp (List.getElem_mem _))
    have present : table.order[position] ∈ other.order :=
      relaxed.mem_order.mpr (greedy.mem_order.mp (List.getElem_mem _))
    obtain ⟨position', found'⟩ := List.mem_iff_getElem?.mp present
    have early : position' < index - more := by
      by_contra notEarly
      have ends' := relaxed.finish_le makesRoom' found' (by omega)
      simp only [finish] at ends ends' late
      omega
    exact List.mem_of_getElem? ((List.getElem?_take_of_lt early).trans found')
  have fewer := ((greedy.nodup.sublist (List.take_sublist ..)).subperm ended).length_le
  have enough := (List.getElem?_eq_some_iff.mp makesRoom).1
  simp only [List.length_take] at fewer
  omega

/-- The whole run takes no longer under a greater limit. -/
theorem elapsed_le (greedy : table.Greedy limit count duration)
    (relaxed : other.Greedy more count duration) (le : limit ≤ more) :
    other.elapsed ≤ table.elapsed := by
  rcases relaxed.lasts with none | ⟨index, inside, last⟩
  · rw [none]
    exact Nat.zero_le _
  · rw [← last]
    exact (Nat.add_le_add_right (greedy.start_le relaxed le inside) _).trans
      (greedy.within index inside)

/-- With a slot for every task the run takes as long as the longest one. -/
theorem elapsed_of_room (greedy : table.Greedy limit count duration) (room : count ≤ limit) :
    table.elapsed = ((List.range count).map duration).foldr max 0 := by
  have ends (index : Nat) (inside : index < count) :
      table.finish duration index = duration index := by
    rw [finish, greedy.atOnce index inside (by omega), Nat.zero_add]
  refine Nat.le_antisymm ?_ ?_
  · rcases greedy.lasts with none | ⟨index, inside, last⟩
    · rw [none]
      exact Nat.zero_le _
    · rw [← last, ends index inside]
      exact List.le_max_of_le (List.mem_map_of_mem (List.mem_range.mpr inside)) (Nat.le_refl _)
  · refine List.max_le_of_forall_le _ _ fun time member => ?_
    obtain ⟨index, inside, rfl⟩ := List.mem_map.mp member
    rw [← ends index (List.mem_range.mp inside)]
    exact greedy.within index (List.mem_range.mp inside)

/-- With one slot tasks end in input order. -/
theorem order_of_one (greedy : table.Greedy 1 count duration) {position : Nat}
    (inside : position < count) : table.order[position]? = some position := by
  induction position using Nat.strong_induction_on with | _ position ih => ?_
  have length : table.order.length = count := by simpa using greedy.all.length_eq
  have found : table.order[position]? = some table.order[position] :=
    List.getElem?_eq_getElem (length ▸ inside)
  have bound := greedy.launched position _ found
  by_cases same : table.order[position] = position
  · rwa [same] at found
  · -- the task would have ended at its own position already
    have again := ih table.order[position] (by omega) (by omega)
    have equal := (List.getElem?_inj (by omega) greedy.nodup).mp (again.trans found.symm)
    exact absurd equal same

/-- With one slot each task starts when those before it have ended. -/
theorem start_of_one (greedy : table.Greedy 1 count duration) {index : Nat}
    (inside : index < count) : table.start index = ((List.range index).map duration).sum := by
  induction index with
  | zero => exact greedy.atOnce 0 inside Nat.one_pos
  | succ index ih =>
      obtain ⟨earlier, found, start⟩ := greedy.follows (index + 1) inside (by omega)
      rw [Nat.add_sub_cancel, greedy.order_of_one (by omega)] at found
      obtain rfl := Option.some.inj found
      rw [start, finish, ih (by omega), List.range_succ]
      simp

/-- With one slot the run takes as long as all tasks together. -/
theorem elapsed_of_one (greedy : table.Greedy 1 count duration) :
    table.elapsed = ((List.range count).map duration).sum := by
  have ends (index : Nat) (inside : index < count) :
      table.finish duration index = ((List.range (index + 1)).map duration).sum := by
    rw [finish, greedy.start_of_one inside, List.range_succ]
    simp
  refine Nat.le_antisymm ?_ ?_
  · rcases greedy.lasts with none | ⟨index, inside, last⟩
    · rw [none]
      exact Nat.zero_le _
    · rw [← last, ends index inside]
      have sublist := (List.range_sublist.mpr (Nat.succ_le_of_lt inside)).map duration
      exact sublist.sum_le_sum fun _ _ => Nat.zero_le _
  · cases count with
    | zero => exact Nat.zero_le _
    | succ count =>
        rw [← ends count (Nat.lt_succ_self count)]
        exact greedy.within count (Nat.lt_succ_self count)

end Greedy

end Timetable

end Waypoint
