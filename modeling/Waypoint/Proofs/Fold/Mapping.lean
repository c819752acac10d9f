import Mathlib
import Waypoint.Proofs.Fold.Sweep

/-!
# The sequential map

`flow` is the map of a function that may fail, one call after another. Its result is that of
`List.mapM`, which says nothing about the order of calls; the record says that they are made from
the first element on, each at most once, up to the first one that fails. No element is called twice,
so a function that keeps a state of its own is one of the elements with their indices.
-/

namespace Waypoint

variable {α β γ ε : Type}

namespace Fold

section Swept

variable {f : α → Recorded ε Notice γ} {put : β → α → γ → β} {proceeds : β → Bool}
  {places visited : List (α × Nat)} {accumulator : β}

/-- A sweep that fails has come to a place where its call fails, and to no earlier one. -/
theorem Swept.eq_of_error {error : ε}
    (swept : Swept f put proceeds places accumulator visited (.error error)) :
    ∃ passed last left, places = passed ++ last :: left ∧ visited = passed ++ [last] ∧
      (∀ place ∈ passed, ∃ value, (f place.1).result = .ok value) ∧
      (f last.1).result = .error error := by
  generalize comes : Except.error error = result at swept
  induction swept with
  | nil | stopped gives stops => cases comes
  | @failed element index places accumulator other fails =>
      obtain rfl := Except.error.inj comes
      exact ⟨[], (element, index), places, rfl, rfl, List.forall_mem_nil _, fails⟩
  | @cons element index places accumulator value visited result gives goesOn rest ih =>
      obtain ⟨passed, last, left, rfl, rfl, values, fails⟩ := ih comes
      exact ⟨(element, index) :: passed, last, left, rfl, rfl,
        List.forall_mem_cons.mpr ⟨⟨value, gives⟩, values⟩, fails⟩

/-- A sweep whose accumulator never stops it goes over all places, unless a call fails. -/
theorem Swept.eq_of_ok {left : β}
    (swept : Swept f put (fun _ => true) places accumulator visited (.ok left)) :
    visited = places := by
  generalize comes : Except.ok left = result at swept
  induction swept with
  | nil => rfl
  | failed fails => cases comes
  | stopped gives stops => cases stops
  | cons gives goesOn rest ih => rw [ih comes]

/-- A sweep that puts what it is given at the end of a list collects what `List.mapM` gives. -/
theorem Swept.collected {collected : List γ} {result : Except ε (List γ)}
    (swept : Swept f (fun collected _ value => collected ++ [value]) (fun _ => true) places
      collected visited result) :
    result = ((places.map Prod.fst).mapM fun element => (f element).result).map
      (collected ++ ·) := by
  induction swept with
  | nil => simp [pure, Except.pure, Except.map]
  | failed fails => simp [fails, bind, Except.bind, Except.map]
  | stopped gives stops => cases stops
  | @cons element index places collected value visited result gives goesOn rest ih =>
      rw [ih, List.map_cons, List.mapM_cons, gives]
      cases (places.map Prod.fst).mapM fun element => (f element).result with
      | error error => rfl
      | ok values => simp [bind, Except.bind, pure, Except.pure, Except.map]

end Swept

/-- The places of a fold that collects are the rest of the list in order. -/
theorem route_collect (f : α → Recorded ε Notice β) {list passed rest : List α}
    (split : list = passed ++ rest) :
    Route (collect f (list.length - 1)) (fun _ => true) list (rest.zipIdx passed.length)
      passed.length := by
  induction rest generalizing passed with
  | nil => exact .nil (List.getElem?_eq_none (by simp [split]))
  | cons element rest ih =>
      have inside : list[passed.length]? = some element := by simp [split]
      rw [List.zipIdx_cons]
      cases rest with
      | nil =>
          refine .last inside fun _ _ => decide_eq_false ?_
          simp [split]
      | cons following rest =>
          refine .cons inside (fun _ _ => decide_eq_true ?_) ?_
          · simp [split]
          · have next : list = (passed ++ [element]) ++ following :: rest := by simp [split]
            have later := ih next
            rwa [List.length_append, List.length_singleton] at later

end Fold

/-- The values of a map that succeeds. -/
theorem mapM_eq_ok {f : α → Except ε β} {list : List α} {values : List β} :
    list.mapM f = .ok values ↔ List.Forall₂ (fun element value => f element = .ok value) list
      values := by
  induction list generalizing values with
  | nil => simp [pure, Except.pure, eq_comm]
  | cons element rest ih =>
      rw [List.mapM_cons, List.forall₂_cons_left_iff]
      cases here : f element with
      | error error => simp [bind, Except.bind]
      | ok value =>
          cases later : rest.mapM f with
          | error error => simp [bind, Except.bind, ← ih, later]
          | ok others => simp [bind, Except.bind, pure, Except.pure, ← ih, later, eq_comm]

/-- A map is made call by call. `flow` always ends, with the result of `List.mapM`: the values of
all elements in order, or the error of the first element that fails. The steps on record are the
calls on the elements from the first one on, each with its index and beginning where the one before
ended: on all of them, or up to the one that fails. The index only moves from one element of the
list to the next. -/
theorem flow_maps_in_order (f : α → Recorded ε Notice β) (waits : Nat → Nat) (list : List α) :
    ∃ run visited, flow f waits list = some run ∧
      run.result = (list.mapM fun element => (f element).result) ∧
      (Fold.stepsOnly run.log : List (Entry (Fold.Event α (List β)))) =
        Fold.callsRecord f waits 0 0 (list.zipIdx.take visited) ∧
      run.elapsed = Fold.waited waits 0 visited ∧
      (∀ values, run.result = .ok values →
        visited = list.length ∧ values.length = list.length ∧
          List.Forall₂ (fun element value => (f element).result = .ok value) list values) ∧
      (∀ error, run.result = .error error →
        ∃ passed element left, list = passed ++ element :: left ∧ visited = passed.length + 1 ∧
          (∀ other ∈ passed, ∃ value, (f other).result = .ok value) ∧
          (f element).result = .error error) ∧
      ∀ index target, .call (.moved index target) ∈ run.log →
        target = index + 1 ∧ target < list.length := by
  obtain ⟨run, visited, ended, swept, record, elapsed⟩ : ∃ run visited,
      flow f waits list = some run ∧ run.Sweeps f (fun collected _ value => collected ++ [value])
        (fun _ => true) waits list.zipIdx 0 0 [] visited :=
    (Fold.route_collect f (List.nil_append list).symm).exists_run (fun _ _ => rfl)
      (Nat.le_of_eq List.length_zipIdx) 0 0 []
  have result : run.result = list.mapM fun element => (f element).result := by
    rw [swept.collected, List.zipIdx_map_fst]
    cases list.mapM fun element => (f element).result <;> rfl
  have taken : list.zipIdx.take visited.length = visited :=
    (List.prefix_iff_eq_take.mp swept.isPrefix).symm
  refine ⟨run, visited.length, ended, result, ?_, ?_, ?_, ?_, ?_⟩
  · rw [record, taken]
  · rw [elapsed, Nat.zero_add]
  · intro values ok
    have each := mapM_eq_ok.mp (result.symm.trans ok)
    rw [ok] at swept
    rw [swept.eq_of_ok, List.length_zipIdx]
    exact ⟨rfl, each.length_eq.symm, each⟩
  · intro error fails
    rw [fails] at swept
    obtain ⟨passed, last, left, split, rfl, values, fails⟩ := swept.eq_of_error
    refine ⟨passed.map Prod.fst, last.1, left.map Prod.fst, ?_, ?_, ?_, fails⟩
    · rw [← List.zipIdx_map_fst 0 list, split, List.map_append, List.map_cons]
    · rw [List.length_append, List.length_map, List.length_singleton]
    · exact List.forall_mem_map.mpr values
  · intro index target moved
    obtain ⟨-, next, asked, left, told⟩ := Fold.moved_of_ended ended moved
    have below : index < list.length - 1 := of_decide_eq_true told
    have target_eq : target = index + 1 := next
    exact ⟨target_eq, by omega⟩

end Waypoint
