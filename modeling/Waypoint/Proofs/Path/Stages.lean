import Waypoint.Path.Stage

/-!
# Steps and their stages

Nothing of a path is lost when it is compiled. A lift stands right after the focus on its own key,
and one stage further on it is clear whether a focus is a plain step or the first half of an array
step; `Path.ofStages?` reads the steps back in this way. It accepts the stages of paths and nothing
else, so a path is told by its stages, which cannot be said of its text.
-/

namespace Waypoint

/-- Every lift stands right after the focus on its key. -/
def Stage.LiftsFollow (stages : List Stage) : Prop :=
  ∀ i key, stages[i]? = some (.lift key) → ∃ j, i = j + 1 ∧ stages[j]? = some (.focus key)

namespace Stage.LiftsFollow

variable {key : String} {stages : List Stage}

theorem nil : LiftsFollow [] := by
  intro i key lift
  cases lift

theorem not_lift_cons : ¬ LiftsFollow (.lift key :: stages) := by
  intro follow
  obtain ⟨j, before, -⟩ := follow 0 key rfl
  exact Nat.succ_ne_zero j before.symm

/-- A lift after a focus is one on the same key. -/
theorem eq_key {again : String} (follow : LiftsFollow (.focus key :: .lift again :: stages)) :
    key = again := by
  obtain ⟨j, before, focus⟩ := follow 1 again rfl
  obtain rfl := Nat.succ.inj before
  exact Stage.focus.inj (Option.some.inj focus)

/-- A focus may stand in front of any stages that do not begin with a lift. -/
theorem focus_cons_iff (plain : ∀ again, stages[0]? ≠ some (.lift again)) :
    LiftsFollow (.focus key :: stages) ↔ LiftsFollow stages := by
  constructor
  · intro follow i again lift
    obtain ⟨j, before, focus⟩ := follow (i + 1) again lift
    obtain rfl := Nat.succ.inj before
    cases i with
    | zero => exact absurd lift (plain again)
    | succ j => exact ⟨j, rfl, focus⟩
  · intro follow i again lift
    cases i with
    | zero => cases lift
    | succ i =>
        obtain ⟨j, rfl, focus⟩ := follow i again lift
        exact ⟨j + 1, rfl, focus⟩

/-- The two stages of an array step belong together. -/
theorem array_cons_iff :
    LiftsFollow (.focus key :: .lift key :: stages) ↔ LiftsFollow stages := by
  constructor
  · intro follow i again lift
    obtain ⟨j, before, focus⟩ := follow (i + 2) again lift
    obtain rfl := Nat.succ.inj before
    cases i with
    | zero => cases focus
    | succ j => exact ⟨j, rfl, focus⟩
  · intro follow i again lift
    match i, lift with
    | 1, lift =>
        obtain rfl := Stage.lift.inj (Option.some.inj lift)
        exact ⟨0, rfl, rfl⟩
    | i + 2, lift =>
        obtain ⟨j, rfl, focus⟩ := follow i again lift
        exact ⟨j + 2, rfl, focus⟩

end Stage.LiftsFollow

/-! ## Reading steps back -/

/-- The steps whose stages these are, if there are any. -/
def Stage.steps? : List Stage → Option (List Segment)
  | [] => some []
  | .lift _ :: _ => none
  | .focus key :: .lift again :: rest =>
    if again = key then (steps? rest).map (.array key :: ·) else none
  | .focus key :: rest => (steps? rest).map (.field key :: ·)

namespace Stage

theorem flatMap_of_steps? {stages : List Stage} {segments : List Segment}
    (reads : steps? stages = some segments) : segments.flatMap Segment.stages = stages := by
  fun_induction steps? stages generalizing segments with
  | case1 =>
      obtain rfl := Option.some.inj reads
      rfl
  | case2 | case4 => cases reads
  | case3 again rest ih | case5 key rest plain ih =>
      obtain ⟨others, back, rfl⟩ := Option.map_eq_some_iff.mp reads
      rw [List.flatMap_cons, ih back]
      rfl

/-- The stages of steps begin with a focus. -/
theorem plain_flatMap (segments : List Segment) (again : String) :
    (segments.flatMap Segment.stages)[0]? ≠ some (.lift again) := by
  cases segments with
  | nil => exact nofun
  | cons segment rest =>
      obtain ⟨key, isArray⟩ := segment
      cases isArray <;> exact fun lift => Stage.noConfusion (Option.some.inj lift)

/-- A focus with no lift after it is a plain step. -/
theorem steps?_focus_cons {key : String} {stages : List Stage}
    (plain : ∀ again, stages[0]? ≠ some (.lift again)) :
    steps? (.focus key :: stages) = (steps? stages).map (.field key :: ·) := by
  match stages with
  | [] => rfl
  | .focus other :: rest => rfl
  | .lift again :: rest => exact absurd rfl (plain again)

/-- What follows a focus tells a plain step from an array step, whatever the keys around it. -/
theorem steps?_flatMap (segments : List Segment) :
    steps? (segments.flatMap Segment.stages) = some segments := by
  induction segments with
  | nil => rfl
  | cons segment rest ih =>
      obtain ⟨key, isArray⟩ := segment
      cases isArray with
      | false =>
          show steps? (.focus key :: rest.flatMap Segment.stages) = _
          rw [steps?_focus_cons (plain_flatMap rest), ih]
          rfl
      | true =>
          show steps? (.focus key :: .lift key :: rest.flatMap Segment.stages) = _
          rw [steps?, if_pos rfl, ih]
          rfl

/-- Stages can be read back where each lift follows its focus, and only there. -/
theorem isSome_steps?_iff (stages : List Stage) :
    (steps? stages).isSome ↔ LiftsFollow stages := by
  fun_induction steps? stages with
  | case1 => exact iff_of_true rfl .nil
  | case2 => exact iff_of_false Bool.false_ne_true LiftsFollow.not_lift_cons
  | case3 again rest ih => rw [Option.isSome_map, ih, LiftsFollow.array_cons_iff]
  | case4 key again rest other =>
      exact iff_of_false Bool.false_ne_true fun follow => other follow.eq_key.symm
  | case5 key rest plain ih =>
      -- This case is left when the one of a lift after the focus does not apply.
      rw [Option.isSome_map, ih, LiftsFollow.focus_cons_iff]
      intro again lift
      obtain ⟨later, rfl⟩ : ∃ later, rest = .lift again :: later := by
        cases rest with
        | nil => cases lift
        | cons first later => exact ⟨later, congrArg (· :: later) (Option.some.inj lift)⟩
      exact plain again later rfl

end Stage

namespace Path

/-- The path whose stages these are, if there is one. -/
def ofStages? (stages : List Stage) : Option Path :=
  (Stage.steps? stages).map Path.mk

theorem ofStages?_eq_some_iff {stages : List Stage} {path : Path} :
    ofStages? stages = some path ↔ path.stages = stages := by
  constructor
  · intro reads
    obtain ⟨segments, back, rfl⟩ := Option.map_eq_some_iff.mp reads
    exact Stage.flatMap_of_steps? back
  · rintro rfl
    rw [ofStages?, stages, Stage.steps?_flatMap]
    rfl

theorem stages_inj {path other : Path} : path.stages = other.stages ↔ path = other := by
  refine ⟨fun same => Option.some.inj ?_, congrArg stages⟩
  rw [← ofStages?_eq_some_iff.mpr rfl, same, ofStages?_eq_some_iff]

theorem liftsFollow_iff {stages : List Stage} :
    Stage.LiftsFollow stages ↔ ∃ path : Path, path.stages = stages := by
  rw [← Stage.isSome_steps?_iff, ← Option.isSome_map (f := Path.mk), Option.isSome_iff_exists]
  exact exists_congr fun path => ofStages?_eq_some_iff

/-- A step has one stage, an array step one more. -/
theorem length_stages (path : Path) : path.stages.length = path.length + path.arrayDepth := by
  obtain ⟨segments⟩ := path
  show (segments.flatMap Segment.stages).length = segments.length + segments.countP (·.isArray)
  induction segments with
  | nil => rfl
  | cons segment rest ih =>
      obtain ⟨key, isArray⟩ := segment
      rw [List.flatMap_cons, List.length_append, ih, List.length_cons, List.countP_cons]
      cases isArray <;> simp [Segment.stages] <;> omega

/-- The plain step whose key is the whole text of a path has that text, and one stage. -/
theorem exists_text_eq {path : Path} (many : path.stageCount ≠ 1) :
    ∃ other : Path, other.text = path.text ∧ other.stages ≠ path.stages := by
  refine ⟨⟨[.field path.text]⟩, rfl, fun same => many ?_⟩
  rw [stageCount, ← same]
  rfl

end Path

/-- A path is compiled without loss. It has a stage for each step and one more for each array step;
each lift comes right after the focus on its key; and from the stages the path can be read back, so
two paths with the same stages are the same path. Texts tell less: any path that has not just one
stage shares its text with a path that has other stages. -/
theorem stages_determine_path (path : Path) :
    path.stageCount = path.length + path.arrayDepth ∧
      (∀ i key, path.stages[i]? = some (.lift key) →
        ∃ j, i = j + 1 ∧ path.stages[j]? = some (.focus key)) ∧
      (∀ stages, Path.ofStages? stages = some path ↔ path.stages = stages) ∧
      (∀ other : Path, path.stages = other.stages ↔ path = other) ∧
      (path.stageCount ≠ 1 →
        ∃ other : Path, other.text = path.text ∧ other.stages ≠ path.stages) := by
  have follow : Stage.LiftsFollow path.stages := Path.liftsFollow_iff.mpr ⟨path, rfl⟩
  exact ⟨path.length_stages, follow, fun _ => Path.ofStages?_eq_some_iff, fun _ => Path.stages_inj,
    Path.exists_text_eq⟩

/-- Steps under equal keys are kept apart: a plain step and an array step after it. -/
example : Path.ofStages? [.focus "a", .focus "a", .lift "a", .focus "a"] =
    some ⟨[.field "a", .array "a", .field "a"]⟩ := rfl

end Waypoint
