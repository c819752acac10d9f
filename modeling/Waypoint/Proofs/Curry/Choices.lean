import Mathlib
import Waypoint.Curry
import Waypoint.Proofs.Path.Location

/-!
# Choices of arguments

A curried function that is applied to every choice of arguments, level by level, calls the function
behind it once for each choice, in lexicographic order, and with all arguments of the choice. What
is made of one application at an inner level does not depend on the others: the result under a
choice is that of the function itself (`Curried.spread_ofFunction`). The same holds if the functions
that wait for more arguments are applied in any other order, again and again
(`Curried.results_ofFunction`).
-/

namespace Waypoint

/-! ## Choices -/

section Choices

variable {α : Type}

/-- All choices of one value for each level. The value of the last level changes first. -/
def choices : List (List α) → List (List α)
  | [] => [[]]
  | level :: rest => level.flatMap fun value => (choices rest).map (value :: ·)

/-- The choices as positions in their levels. -/
def positions (levels : List (List α)) : List (List Nat) :=
  choices (levels.map fun level => List.range level.length)

theorem mem_choices_iff {levels : List (List α)} {choice : List α} :
    choice ∈ choices levels ↔ List.Forall₂ (· ∈ ·) choice levels := by
  induction levels generalizing choice with
  | nil => rw [choices, List.mem_singleton, List.forall₂_nil_right_iff]
  | cons level rest ih =>
      rw [choices, List.mem_flatMap, List.forall₂_cons_right_iff]
      simp only [List.mem_map, ih]
      constructor
      · rintro ⟨value, member, others, inside, rfl⟩
        exact ⟨value, others, member, inside, rfl⟩
      · rintro ⟨value, others, member, inside, rfl⟩
        exact ⟨value, member, others, inside, rfl⟩

/-- Choices from levels in order are in lexicographic order. -/
theorem pairwise_choices {r : α → α → Prop} {levels : List (List α)}
    (sorted : ∀ level ∈ levels, level.Pairwise r) :
    (choices levels).Pairwise (List.Lex r) := by
  induction levels with
  | nil => exact List.pairwise_singleton _ _
  | cons level rest ih =>
      obtain ⟨here, later⟩ := List.forall_mem_cons.mp sorted
      rw [choices, List.pairwise_flatMap]
      constructor
      · intro value _
        rw [List.pairwise_map]
        exact (ih later).imp fun less => .cons less
      · refine here.imp fun less one inOne other inOther => ?_
        obtain ⟨_, _, rfl⟩ := List.mem_map.mp inOne
        obtain ⟨_, _, rfl⟩ := List.mem_map.mp inOther
        exact .rel less

theorem mem_positions_iff {levels : List (List α)} {position : List Nat} :
    position ∈ positions levels ↔
      List.Forall₂ (fun index level => index < level.length) position levels := by
  rw [positions, mem_choices_iff, List.forall₂_map_right_iff]
  simp only [List.mem_range]

/-- No position comes twice, and an earlier level counts for more. -/
theorem pairwise_positions (levels : List (List α)) :
    (positions levels).Pairwise (List.Lex (· < ·)) :=
  pairwise_choices (List.forall_mem_map.mpr fun _ _ => List.pairwise_lt_range)

end Choices

/-- The values at a position. -/
def pick (levels : List (List Doc)) (position : List Nat) : List Doc :=
  List.zipWith (fun level index => level[index]?.getD .null) levels position

theorem choices_eq_map_pick (levels : List (List Doc)) :
    choices levels = (positions levels).map (pick levels) := by
  induction levels with
  | nil => rfl
  | cons level rest ih =>
      have here :
          (List.range level.length).map (fun index => level[index]?.getD .null) = level := by
        refine List.ext_getElem (by simp) fun index _ inside => ?_
        simp [inside]
      -- A level is what stands at its indices, so to go over the one is to go over the others.
      calc choices (level :: rest)
        _ = ((List.range level.length).map fun index => level[index]?.getD .null).flatMap
              fun value => (choices rest).map (value :: ·) := by rw [here, choices]
        _ = (List.range level.length).flatMap fun index =>
              ((positions rest).map (index :: ·)).map (pick (level :: rest)) := by
            rw [List.flatMap_map, ih]
            simp only [List.map_map]
            rfl
        _ = (positions (level :: rest)).map (pick (level :: rest)) := by
            rw [← List.map_flatMap]
            rfl

namespace Curried

/-! ## All choices -/

/-- The results of a function under all choices, nested as the levels are. -/
def table (value : List Doc → Doc) : List Doc → List (List Doc) → Doc
  | bound, [] => value bound
  | bound, level :: rest => .arr (level.map fun argument => table value (bound ++ [argument]) rest)

/-- Each result stands at its position. -/
theorem at?_table (value : List Doc → Doc) {levels : List (List Doc)} {position : List Nat}
    (inside : List.Forall₂ (fun index level => index < level.length) position levels)
    (bound : List Doc) :
    (table value bound levels).at? (position.map .index) =
      some (value (bound ++ pick levels position)) := by
  induction inside generalizing bound with
  | nil => exact congrArg (some <| value ·) (List.append_nil bound).symm
  | @cons index level others rest below _ ih =>
      rw [table, List.map_cons, Doc.at?_index, List.getElem?_map, List.getElem?_eq_getElem below]
      show (table value (bound ++ [level[index]]) rest).at? _ = _
      rw [ih, List.append_assoc]
      simp [pick, below]

section Spread

variable {κ : Type} {call : List Doc → Trace κ Doc} {value : List Doc → Doc}

theorem gather_arr {α : Type} {f : α → Trace κ Doc} (value : α → Doc)
    (ok : ∀ a, (f a).result = .ok (value a)) (list : List α) :
    (Answer.gather (list.map f) fun results => Answer.value (.arr results)) =
      (⟨list.flatMap fun a => (f a).log, .ok (.arr (list.map value))⟩ : Trace κ Doc) := by
  show (Recorded.sequence (list.map f)).andThen
    (fun results => (pure (Doc.arr results) : Trace κ Doc)) = _
  rw [Recorded.sequence_map_of_ok value ok, Recorded.andThen_of_ok rfl, Recorded.log_pure,
    List.append_nil, Recorded.result_pure]

/-- Applied to all choices, a curried function is a loop within a loop over the function. -/
theorem spread_ofFunction (total : ∀ arguments, (call arguments).result = .ok (value arguments))
    (bound first : List Doc) (rest : List (List Doc)) :
    (ofFunction call rest.length bound).spread (first :: rest) =
      ⟨(choices (first :: rest)).flatMap fun choice => (call (bound ++ choice)).log,
        .ok (table value bound (first :: rest))⟩ := by
  -- By induction on the levels after the first one, whatever is bound already.
  induction rest generalizing bound first with
  | nil =>
      refine (gather_arr _ (fun argument => total (bound ++ [argument])) first).trans ?_
      rw [choices, List.flatMap_assoc]
      simp [choices, table]
  | cons next rest ih =>
      have inner (argument : Doc) := ih (bound ++ [argument]) next
      have ok (argument : Doc) := congrArg Recorded.result (inner argument)
      refine (gather_arr _ ok first).trans ?_
      rw [choices, List.flatMap_assoc, table]
      simp only [inner, List.flatMap_map, List.append_assoc, List.singleton_append]

/-- Where an argument is missing nothing is called. -/
theorem spread_of_missing {missing : Nat} {given : List (List Doc)}
    (few : given.length ≤ missing) (bound : List Doc) :
    (ofFunction call missing bound).spread given =
      ⟨[], .ok (table (fun _ => .null) bound given)⟩ := by
  induction given generalizing missing bound with
  | nil => cases missing <;> rfl
  | cons level rest ih =>
      obtain ⟨missing, rfl⟩ := Nat.exists_eq_add_one_of_ne_zero (Nat.ne_zero_of_lt few)
      have inner (argument : Doc) := ih (Nat.le_of_succ_le_succ few) (bound ++ [argument])
      have ok (argument : Doc) := congrArg Recorded.result (inner argument)
      refine (gather_arr _ ok level).trans ?_
      rw [table]
      simp [inner]

end Spread

/-! ## Applications in any order -/

variable {α β : Type}

/-- What comes of applications in the order in which they are made. Each of them names the function
that it uses by its place among those that are kept, and gives it an argument. A function that waits
for more arguments after that is kept too, at the end; one that does not gives a result. -/
def results (kept : List (Curried α β)) : List (Nat × α) → List β
  | [] => []
  | (place, argument) :: later =>
    match kept[place]? with
    | none => results kept later
    | some (.last call) => call argument :: results kept later
    | some (.more bind) => results (kept ++ [bind argument]) later

/-- The arguments that come together in such applications, when `arity` of them are needed: `kept`
holds those that the functions kept are bound to. -/
def argumentLists (arity : Nat) (kept : List (List α)) : List (Nat × α) → List (List α)
  | [] => []
  | (place, argument) :: later =>
    match kept[place]? with
    | none => argumentLists arity kept later
    | some bound =>
      let given := bound ++ [argument]
      if given.length = arity then given :: argumentLists arity kept later
      else argumentLists arity (kept ++ [given]) later

/-- Each application that completes the arguments calls the function on them, whatever was applied
before it; the others call nothing. -/
theorem results_ofFunction (f : List α → β) {missing : Nat} {kept : List (List α)}
    (short : ∀ bound ∈ kept, bound.length ≤ missing) (uses : List (Nat × α)) :
    results (kept.map fun bound => ofFunction f (missing - bound.length) bound) uses =
      (argumentLists (missing + 1) kept uses).map f := by
  induction uses generalizing kept with
  | nil => rfl
  | cons use later ih =>
      obtain ⟨place, argument⟩ := use
      rw [results, argumentLists, List.getElem?_map]
      cases at_place : kept[place]? with
      | none => exact ih short
      | some bound =>
          have le := short bound (List.mem_of_getElem? at_place)
          cases left : missing - bound.length with
          -- This was the last argument, so the function is called.
          | zero =>
              have length : (bound ++ [argument]).length = bound.length + 1 := List.length_append
              have full : (bound ++ [argument]).length = missing + 1 := by omega
              simp only [Option.map_some, left, ofFunction, if_pos full, List.map_cons, ih short]
          -- The function still waits, and is kept with one argument more.
          | succ others =>
              have length : (bound ++ [argument]).length = bound.length + 1 := List.length_append
              have missing_eq : missing - (bound ++ [argument]).length = others := by omega
              have waits : (bound ++ [argument]).length ≠ missing + 1 := by omega
              have next : ∀ other ∈ kept ++ [bound ++ [argument]], other.length ≤ missing := by
                rw [List.forall_mem_append, List.forall_mem_singleton]
                exact ⟨short, by omega⟩
              simp only [Option.map_some, left, ofFunction, if_neg waits]
              rw [← ih next, List.map_append, List.map_singleton, missing_eq]

end Curried

/-- Currying changes nothing but the way in which arguments are given. A curried function with as
many parameters as there are levels is applied to all values of the first level, what comes of each
application to all values of the next one, and so on. Then there is one call of the function for
each position in the levels, in lexicographic order, and at that position stands the value of the
function on the arguments there, in the order of the levels. With fewer levels nothing is called.
Applied in any other order, and as often as one likes, the functions on the way give the same: each
application that completes the arguments calls the function on the arguments bound on its way, and
the others call nothing. -/
theorem curried_calls_once_for_each_choice {κ : Type} {call : List Doc → Trace κ Doc}
    {value : List Doc → Doc} (total : ∀ arguments, (call arguments).result = .ok (value arguments))
    (first : List Doc) (rest : List (List Doc)) :
    let levels := first :: rest
    let curried := Curried.ofFunction call rest.length []
    let answer := Curried.table value [] levels
    (curried.spread levels).result = .ok answer ∧
      (∀ position ∈ positions levels,
        answer.at? (position.map .index) = some (value (pick levels position))) ∧
      (curried.spread levels).log =
        (positions levels).flatMap (fun position => (call (pick levels position)).log) ∧
      ((positions levels).Pairwise (List.Lex (· < ·)) ∧
        ∀ position, position ∈ positions levels ↔
          List.Forall₂ (fun index level => index < level.length) position levels) ∧
      (∀ given : List (List Doc), given.length ≤ rest.length → (curried.spread given).log = []) ∧
      ∀ uses : List (Nat × Doc), Curried.results [curried] uses =
        (Curried.argumentLists (rest.length + 1) [[]] uses).map call := by
  intro levels curried answer
  have whole := Curried.spread_ofFunction total [] first rest
  refine ⟨congrArg Recorded.result whole, fun position inside => ?_, ?_,
    ⟨pairwise_positions levels, fun position => mem_positions_iff⟩, fun given few => ?_,
    fun uses => ?_⟩
  · exact Curried.at?_table value (mem_positions_iff.mp inside) []
  · have calls : (curried.spread levels).log = _ := congrArg Recorded.log whole
    rw [calls, choices_eq_map_pick, List.flatMap_map]
    rfl
  · exact congrArg Recorded.log (Curried.spread_of_missing few [])
  · have short : ∀ bound ∈ [([] : List Doc)], bound.length ≤ rest.length :=
      List.forall_mem_singleton.mpr (Nat.zero_le _)
    exact Curried.results_ofFunction call short uses

/-- Two values, one and two again: four calls of the function, and the order of its arguments
matters. -/
theorem subtraction_of_four_choices :
    let levels : List (List Doc) := [[.int 10, .int 20], [.int 1], [.int 2, .int 3]]
    let trace := ManyFunction.sub.spread levels
    (∀ arguments, (ManyFunction.sub.call arguments).result =
        .ok (ManyFunction.sub.apply arguments)) ∧
      trace.result = .ok (.arr [.arr [.arr [.int 7, .int 6]], .arr [.arr [.int 17, .int 16]]]) ∧
      trace.log = [[.int 10, .int 1, .int 2], [.int 10, .int 1, .int 3], [.int 20, .int 1, .int 2],
        [.int 20, .int 1, .int 3]] ∧
      [1, 0, 0] ∈ positions levels ∧
      (trace.result.toOption.bind fun answer => answer.at? [.index 1, .index 0, .index 0]) =
        some (ManyFunction.sub.apply [.int 20, .int 1, .int 2]) := by
  intro levels trace
  have total : ∀ arguments, (ManyFunction.sub.call arguments).result =
      .ok (ManyFunction.sub.apply arguments) := fun _ => rfl
  obtain ⟨result, at_position, log, -⟩ := curried_calls_once_for_each_choice total
    [.int 10, .int 20] [[.int 1], [.int 2, .int 3]]
  have inside : [1, 0, 0] ∈ positions levels := by decide
  refine ⟨total, result.trans (by decide +kernel), log.trans (by decide +kernel), inside, ?_⟩
  rw [show trace.result = _ from result]
  exact at_position [1, 0, 0] inside

end Waypoint
