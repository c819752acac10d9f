import Mathlib
import Waypoint.Proofs.Fold.Sweep

/-!
# The longest end of a list that passes

`takeWhileRight` goes through a list from its last element backwards, and stops at the first element
that does not pass or on which the predicate fails. What it has passed until then is an end of the
list, and no longer end passes, as it would contain the element that did not.
-/

namespace Waypoint

variable {α ε : Type} {judge : α → Recorded ε Notice Bool}

namespace Fold

/-- What is kept after an element was judged: the last answer, and the elements that passed. -/
def keep (kept : Bool × List α) (element : α) (passes : Bool) : Bool × List α :=
  (passes, if passes then element :: kept.2 else kept.2)

/-- The places of a fold that collects backwards are the elements up to its index, the last one
first. -/
theorem route_collectBack (judge : α → Recorded ε Notice Bool) {list : List α} {index : Nat}
    (inside : index < list.length) :
    Route (collectBack judge) Prod.fst list (list.take (index + 1)).zipIdx.reverse index := by
  have places : ∀ index (inside : index < list.length),
      (list.take (index + 1)).zipIdx.reverse =
        (list[index], index) :: (list.take index).zipIdx.reverse := by
    intro index inside
    rw [List.take_succ_eq_append_getElem inside, List.zipIdx_append, List.reverse_append,
      List.length_take_of_le inside.le]
    simp
  induction index with
  | zero =>
      rw [places 0 inside]
      exact .last (List.getElem?_eq_getElem inside) fun _ _ => rfl
  | succ index ih =>
      rw [places (index + 1) inside]
      refine .cons (List.getElem?_eq_getElem inside) (fun _ kept => ?_) (ih (by omega))
      exact Bool.true_and kept.1

/-- How far a backward sweep comes: over all places, or up to the first one that does not pass. What
it has passed stands in the order of the list before what was kept already. -/
theorem Swept.passing {places visited : List (α × Nat)} {kept : List α} {before : Bool}
    {result : Except ε (Bool × List α)}
    (swept : Swept judge keep Prod.fst places (before, kept) visited result) :
    ∃ passed left, places = passed ++ left ∧
      (∀ place ∈ passed, (judge place.1).result = .ok true) ∧
      (left = [] ∧ visited = passed ∧
          result.map Prod.snd = .ok ((passed.map Prod.fst).reverse ++ kept) ∨
        ∃ stopper others, left = stopper :: others ∧ visited = passed ++ [stopper] ∧
          ((judge stopper.1).result = .ok false ∧
              result.map Prod.snd = .ok ((passed.map Prod.fst).reverse ++ kept) ∨
            ∃ error, (judge stopper.1).result = .error error ∧ result = .error error)) := by
  generalize start : (before, kept) = accumulator at swept
  induction swept generalizing before kept with
  | nil =>
      subst start
      exact ⟨[], [], rfl, List.forall_mem_nil _, .inl ⟨rfl, rfl, rfl⟩⟩
  | @failed element index places accumulator error fails =>
      exact ⟨[], (element, index) :: places, rfl, List.forall_mem_nil _,
        .inr ⟨_, _, rfl, rfl, .inr ⟨error, fails, rfl⟩⟩⟩
  | @stopped element index places accumulator value gives stops =>
      subst start
      obtain rfl : value = false := stops
      exact ⟨[], (element, index) :: places, rfl, List.forall_mem_nil _,
        .inr ⟨_, _, rfl, rfl, .inl ⟨gives, rfl⟩⟩⟩
  | @cons element index places accumulator value visited result gives goesOn rest ih =>
      subst start
      obtain rfl : value = true := goesOn
      obtain ⟨passed, left, rfl, passing, ends⟩ := ih rfl
      refine ⟨(element, index) :: passed, left, rfl, List.forall_mem_cons.mpr ⟨gives, passing⟩, ?_⟩
      have moved : ((((element, index) :: passed).map Prod.fst).reverse ++ kept) =
          (passed.map Prod.fst).reverse ++ element :: kept := by simp
      rw [moved]
      rcases ends with ⟨rfl, rfl, ok⟩ | ⟨stopper, others, rfl, rfl, ends⟩
      · exact .inl ⟨rfl, rfl, ok⟩
      · exact .inr ⟨stopper, others, rfl, rfl, ends⟩

end Fold

section TakeWhileRight

variable (judge) (waits : Nat → Nat) (list : List α)

/-- The scan goes over the places of the list in reverse. -/
theorem exists_sweep_collectBack : ∃ inner visited,
    (collectBack judge).run waits list list.length (list.length - 1) (true, []) = some inner ∧
      inner.Sweeps judge Fold.keep Prod.fst waits list.zipIdx.reverse 0 0 (true, []) visited := by
  have enough : list.zipIdx.reverse.length ≤ list.length := by simp
  have route : Fold.Route (collectBack judge) Prod.fst list list.zipIdx.reverse
      (list.length - 1) := by
    by_cases positive : 0 < list.length
    · have route := Fold.route_collectBack judge (Nat.sub_lt positive Nat.one_pos)
      rwa [Nat.sub_add_cancel positive, List.take_length] at route
    · obtain rfl := List.eq_nil_of_length_eq_zero (Nat.eq_zero_of_not_pos positive)
      exact .nil rfl
  exact route.exists_run (fun _ _ => rfl) enough 0 0 (true, [])

end TakeWhileRight

/-- An end of a list that has nothing of what comes before a place is behind that place. -/
theorem suffix_of_not_mem {list before suffix other : List α} {stopper : α}
    (split : list = before ++ stopper :: suffix) (isSuffix : other <:+ list)
    (without : stopper ∉ other) : other <:+ suffix := by
  have place : stopper :: suffix <:+ list := ⟨before, split.symm⟩
  rcases List.suffix_or_suffix_of_suffix isSuffix place with inside | outside
  · rcases List.suffix_cons_iff.mp inside with rfl | behind
    · exact absurd List.mem_cons_self without
    · exact behind
  · exact absurd (outside.subset List.mem_cons_self) without

/-- The longest end of a list that passes is found from behind. `takeWhileRight` always ends. It
calls the predicate on the elements from the last one backwards, each with its index and beginning
where the call before ended: on all of them, or up to the first one that does not pass or on which
the predicate fails. What it has passed is an end of the list, and of all ends whose elements pass
the longest one. That is its result, in the order of the list, unless the predicate has failed. The
index only moves from an element of the list to the one before it. -/
theorem takeWhileRight_finds_longest_end (judge : α → Recorded ε Notice Bool) (waits : Nat → Nat)
    (list : List α) :
    ∃ run suffix tested, takeWhileRight judge waits list = some run ∧
      suffix <:+ list ∧ (∀ element ∈ suffix, (judge element).result = .ok true) ∧
      (∀ other, other <:+ list → (∀ element ∈ other, (judge element).result = .ok true) →
        other <:+ suffix) ∧
      run.log = Fold.callsRecord judge waits 0 0 (list.zipIdx.reverse.take tested) ∧
      run.elapsed = Fold.waited waits 0 tested ∧
      (suffix = list ∧ tested = list.length ∧ run.result = .ok suffix ∨
        ∃ before stopper, list = before ++ stopper :: suffix ∧ tested = suffix.length + 1 ∧
          ((judge stopper).result = .ok false ∧ run.result = .ok suffix ∨
            ∃ error, (judge stopper).result = .error error ∧ run.result = .error error)) ∧
      ∃ inner, (collectBack judge).run waits list list.length (list.length - 1) (true, []) =
          some inner ∧ run = inner.map Prod.snd ∧
        ∀ index target, .call (.moved index target) ∈ inner.log →
          index < list.length ∧ target + 1 = index := by
  obtain ⟨inner, visited, ended, swept, record, elapsed⟩ :=
    exists_sweep_collectBack judge waits list
  have taken : list.zipIdx.reverse.take visited.length = visited :=
    (List.prefix_iff_eq_take.mp swept.isPrefix).symm
  obtain ⟨passed, left, split, passing, ends⟩ := swept.passing
  -- the elements in the order of the list again
  have whole : list = (left.map Prod.fst).reverse ++ (passed.map Prod.fst).reverse := by
    rw [← List.reverse_append, ← List.map_append, ← split, List.map_reverse, List.reverse_reverse,
      List.zipIdx_map_fst]
  have passes : ∀ element ∈ (passed.map Prod.fst).reverse,
      (judge element).result = .ok true := by
    intro element member
    obtain ⟨place, listed, rfl⟩ := List.mem_map.mp (List.mem_reverse.mp member)
    exact passing place listed
  refine ⟨inner.map Prod.snd, (passed.map Prod.fst).reverse, visited.length, ?_, ⟨_, whole.symm⟩,
    passes, ?_, ?_, ?_, ?_, inner, ended, rfl, ?_⟩
  · rw [takeWhileRight_eq_map, ended]
    rfl
  · intro other isSuffix all
    rcases ends with ⟨rfl, -, -⟩ | ⟨stopper, others, rfl, -, ends⟩
    · rwa [whole] at isSuffix
    · have place : list = (others.map Prod.fst).reverse ++
          stopper.1 :: (passed.map Prod.fst).reverse := by simpa using whole
      refine suffix_of_not_mem place isSuffix fun member => ?_
      have passed := all stopper.1 member
      rcases ends with ⟨refused, -⟩ | ⟨error, fails, -⟩
      · cases refused.symm.trans passed
      · cases fails.symm.trans passed
  · rw [Fold.Run.log_map, record, taken]
  · exact elapsed.trans (Nat.zero_add _)
  · rcases ends with ⟨rfl, rfl, ok⟩ | ⟨stopper, others, rfl, rfl, ends⟩
    · refine .inl ⟨whole.symm, ?_, ?_⟩
      · simpa using (congrArg List.length whole).symm
      · exact ok.trans (by rw [List.append_nil])
    · refine .inr ⟨(others.map Prod.fst).reverse, stopper.1, by simpa using whole, by simp, ?_⟩
      rcases ends with ⟨refused, ok⟩ | ⟨error, fails, failed⟩
      · exact .inl ⟨refused, ok.trans (by rw [List.append_nil])⟩
      · exact .inr ⟨error, fails, congrArg (Except.map Prod.snd) failed⟩
  · intro index target moved
    obtain ⟨inside, next, asked, left, told⟩ := Fold.moved_of_ended ended moved
    have positive : 0 < index := of_decide_eq_true (Bool.and_eq_true_iff.mp told).1
    have target_eq : target = index - 1 := next
    exact ⟨inside, by omega⟩

end Waypoint
