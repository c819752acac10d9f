import Mathlib
import Waypoint.Proofs.Path.Translation

/-!
# Chains of stages

An accessor is a chain of stages around a leaf (`Strategies.chain`), and what it comes to is found
by going along the chain. Among plain results this is said by one equivalence for each kind of
stage: an access succeeds where the container has the shape that the stage asks for and the rest of
the chain succeeds inside (`read_focus_eq_ok`, `update_focus_eq_ok`, `lift_eq_ok`).
-/

namespace Waypoint

/-- A relation in two steps, element by element. -/
theorem forall₂_comp_iff {α β γ : Type} {first : α → β → Prop} {second : β → γ → Prop}
    {starts : List α} {ends : List γ} :
    List.Forall₂ (fun a c => ∃ b, first a b ∧ second b c) starts ends ↔
      ∃ middles, List.Forall₂ first starts middles ∧ List.Forall₂ second middles ends := by
  constructor
  · intro all
    induction all with
    | nil => exact ⟨[], .nil, .nil⟩
    | cons head _ ih =>
        obtain ⟨middle, one, two⟩ := head
        obtain ⟨middles, ones, twos⟩ := ih
        exact ⟨middle :: middles, .cons one ones, .cons two twos⟩
  · rintro ⟨middles, ones, twos⟩
    induction ones generalizing ends with
    | nil =>
        cases twos
        exact .nil
    | cons one _ ih =>
        cases twos with
        | cons two twos => exact .cons ⟨_, one, two⟩ (ih twos)

/-- Lists that are related element by element have related elements at every index. -/
theorem rel_getElem? {α β : Type} {related : α → β → Prop} {firsts : List α} {seconds : List β}
    (all : List.Forall₂ related firsts seconds) (index : Nat) :
    Option.Rel related firsts[index]? seconds[index]? := by
  induction all generalizing index with
  | nil => exact .none
  | cons first _ ih =>
      cases index with
      | zero => exact .some first
      | succ index => exact ih index

theorem exists_getElem?_of_forall₂ {α β : Type} {related : α → β → Prop} {firsts : List α}
    {seconds : List β} (all : List.Forall₂ related firsts seconds) {index : Nat} {first : α}
    (at_index : firsts[index]? = some first) :
    ∃ second, seconds[index]? = some second ∧ related first second := by
  have pair := rel_getElem? all index
  rw [at_index] at pair
  generalize seconds[index]? = second? at pair
  cases pair with
  | some holds => exact ⟨_, rfl, holds⟩

/-! ## Values of plain results -/

section Results

variable {value : Doc}

theorem bind_eq_ok {α : Type} {first : Except PathError α} {next : α → Except PathError Doc} :
    first.bind next = .ok value ↔ ∃ inner, first = .ok inner ∧ next inner = .ok value := by
  cases first <;> simp [Except.bind]

/-- Many results are all values. -/
theorem allValues_eq_ok {answers : List (Except PathError Doc)} {values : List Doc} :
    allValues answers = .ok values ↔
      List.Forall₂ (fun answer value => answer = .ok value) answers values := by
  induction answers generalizing values with
  | nil => simp [allValues, eq_comm]
  | cons answer rest ih =>
      rw [List.forall₂_cons_left_iff]
      cases answer with
      | error error => simp [allValues]
      | ok value =>
          cases later : allValues rest with
          | error error =>
              have none : ∀ others, ¬ List.Forall₂ (fun answer value => answer = .ok value) rest
                  others := by
                intro others all
                rw [← ih, later] at all
                cases all
              simp [allValues, later, Except.map, none]
          | ok others =>
              simp [allValues, later, Except.map, ← ih, eq_comm]

theorem andThen_eq_ok {first : Except PathError Doc} {next : Doc → Except PathError Doc} :
    Answer.andThen first next = .ok value ↔
      ∃ inner, first = .ok inner ∧ next inner = .ok value :=
  bind_eq_ok

theorem gather_eq_ok {answers : List (Except PathError Doc)}
    {next : List Doc → Except PathError Doc} :
    Answer.gather answers next = .ok value ↔
      ∃ values, List.Forall₂ (fun answer value => answer = .ok value) answers values ∧
        next values = .ok value :=
  bind_eq_ok.trans (exists_congr fun _ => and_congr_left' allValues_eq_ok)

theorem withMembers_eq_ok {key : String} {doc : Doc}
    {use : List (String × Doc) → Except PathError Doc} :
    withMembers key doc use = .ok value ↔
      ∃ members, doc = .obj members ∧ use members = .ok value := by
  cases doc <;> simp [withMembers, Answer.failure]

theorem withItems_eq_ok {key : String} {doc : Doc} {use : List Doc → Except PathError Doc} :
    withItems key doc use = .ok value ↔
      ∃ items, doc = .arr items ∧ use items = .ok value := by
  cases doc <;> simp [withItems, Answer.failure]

end Results

/-! ## Chains -/

namespace Strategies

section Answers

variable {R : Type} [Answer R] (strategies : Strategies)

/-- Stages around a leaf. -/
def chain (stages : List Stage) (leaf : Doc → R) : Doc → R :=
  stages.foldr (Stage.wrap strategies.wrapping) leaf

theorem accessor_eq_chain (path : Path) (leaf : Doc → R) :
    path.accessor strategies.wrapping leaf = strategies.chain path.stages leaf :=
  path.accessor_eq_foldr strategies.wrapping leaf

@[simp] theorem chain_nil (leaf : Doc → R) : strategies.chain [] leaf = leaf := rfl

theorem chain_focus (key : String) (rest : List Stage) (leaf : Doc → R) (doc : Doc) :
    strategies.chain (.focus key :: rest) leaf doc =
      strategies.object.focus key (strategies.chain rest leaf) doc := rfl

theorem chain_lift (key : String) (rest : List Stage) (leaf : Doc → R) (doc : Doc) :
    strategies.chain (.lift key :: rest) leaf doc =
      strategies.array.lift key (strategies.chain rest leaf) doc := rfl

end Answers

section Values

variable {leaf : Doc → Except PathError Doc} {key : String} {rest : List Stage} {doc value : Doc}

/-- What a read through a focus stage succeeds with. -/
theorem read_focus_eq_ok :
    read.chain (.focus key :: rest) leaf doc = .ok value ↔
      ∃ members, doc = .obj members ∧
        read.chain rest leaf (Doc.member key members) = .ok value :=
  withMembers_eq_ok

/-- What an update through a focus stage succeeds with. -/
theorem update_focus_eq_ok :
    update.chain (.focus key :: rest) leaf doc = .ok value ↔
      ∃ members inner, doc = .obj members ∧
        update.chain rest leaf (Doc.member key members) = .ok inner ∧
        value = .obj (Doc.setMember key inner members) := by
  rw [chain_focus]
  refine withMembers_eq_ok.trans (exists_congr fun members => ?_)
  constructor
  · rintro ⟨shape, ok⟩
    obtain ⟨inner, inside, last⟩ := andThen_eq_ok.mp ok
    exact ⟨inner, shape, inside, (Except.ok.inj last).symm⟩
  · rintro ⟨inner, shape, inside, rfl⟩
    exact ⟨shape, andThen_eq_ok.mpr ⟨inner, inside, rfl⟩⟩

/-- What an access through a lift stage succeeds with, if it takes every element. -/
theorem lift_eq_ok {strategies : Strategies} (each : strategies.array = .each) :
    strategies.chain (.lift key :: rest) leaf doc = .ok value ↔
      ∃ items values, doc = .arr items ∧
        List.Forall₂ (fun item value => strategies.chain rest leaf item = .ok value) items values ∧
        value = .arr values := by
  rw [chain_lift, each]
  refine withItems_eq_ok.trans (exists_congr fun items => ?_)
  constructor
  · rintro ⟨shape, ok⟩
    obtain ⟨values, inside, last⟩ := gather_eq_ok.mp ok
    exact ⟨values, shape, List.forall₂_map_left_iff.mp inside, (Except.ok.inj last).symm⟩
  · rintro ⟨values, shape, inside, rfl⟩
    exact ⟨shape, gather_eq_ok.mpr ⟨values, List.forall₂_map_left_iff.mpr inside, rfl⟩⟩

end Values

end Strategies

namespace CompiledPath

variable (compiled : CompiledPath) (transform : Doc → Trace Notice Doc) (root : Doc)

theorem access_eq_chain :
    compiled.access transform root =
      compiled.strategies.chain compiled.path.stages (recordedLeaf transform) root := by
  rw [access, Strategies.accessor_eq_chain]

/-- The result of an access is that of the chain of its stages among plain results. -/
theorem result_access :
    (compiled.access transform root).result =
      compiled.strategies.chain compiled.path.stages (fun doc => (transform doc).result) root := by
  have leaves : (fun doc => (recordedLeaf transform doc).result) =
      fun doc => (transform doc).result := by
    funext doc
    rw [recordedLeaf, Recorded.result_andThen]
    rfl
  rw [access, Recorded.translation.accessor, leaves, Strategies.accessor_eq_chain]

end CompiledPath

end Waypoint
