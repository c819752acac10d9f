import Waypoint.Proofs.Future.Expected
import Waypoint.Proofs.Path.Translation

/-!
# The positions of a path

A path that reads or updates goes from the root to members and from there to the elements of arrays.
`Reaches` says which positions it comes to: the document at each of them, and the stages that are
left. At a position a path fails where the document does not have the shape that the next stage asks
for, and at a leaf where the transform fails (`errorAt`). These are all the failures that an access
can come to, with waiting or without.
-/

namespace Waypoint

/-- Stages lead from a document to a position, where the stages that are left and the document
stand. -/
inductive Reaches : List Stage → Doc → List Stage → Doc → Prop
  | here (stages : List Stage) (doc : Doc) : Reaches stages doc stages doc
  | focus {key : String} {stages rest : List Stage} {members : List (String × Doc)} {doc : Doc}
      (inside : Reaches stages (Doc.member key members) rest doc) :
      Reaches (.focus key :: stages) (.obj members) rest doc
  | lift {key : String} {stages rest : List Stage} {items : List Doc} {item doc : Doc}
      (member : item ∈ items) (inside : Reaches stages item rest doc) :
      Reaches (.lift key :: stages) (.arr items) rest doc

/-- The failure at a position itself. -/
def errorAt (transform : Doc → Trace Notice Doc) : List Stage → Doc → Option PathError
  | .focus _ :: _, .obj _ => none
  | .focus key :: _, doc => some (.notAnObject key doc.kind)
  | .lift _ :: _, .arr _ => none
  | .lift key :: _, doc => some (.notAnArray key doc.kind)
  | [], doc =>
    match (transform doc).result with
    | .ok _ => none
    | .error error => some error

/-- A path fails with an error at a position that it comes to. -/
def Path.FailsWith (path : Path) (transform : Doc → Trace Notice Doc) (root : Doc)
    (error : PathError) : Prop :=
  ∃ rest doc, Reaches path.stages root rest doc ∧ errorAt transform rest doc = some error

/-- The strategies that read or update and take every element. -/
def Strategies.Plain (strategies : Strategies) : Prop :=
  strategies = .read ∨ strategies = .update

namespace Strategies.Plain

variable {strategies : Strategies}

theorem object (plain : strategies.Plain) :
    strategies.object = .read ∨ strategies.object = .update := by
  rcases plain with rfl | rfl
  · exact .inl rfl
  · exact .inr rfl

theorem array (plain : strategies.Plain) : strategies.array = .each := by
  rcases plain with rfl | rfl <;> rfl

end Strategies.Plain

namespace Future

variable {L : Type} {error : PathError}

/-- The failures of a future, and of what comes after its value. -/
theorem mem_failures_andThen {next : Doc → Future L} : (future : Future L) →
    error ∈ (future.andThen next).failures →
    error ∈ future.failures ∨ ∃ value, error ∈ (next value).failures
  | done value, member => .inr ⟨value, by rwa [andThen] at member⟩
  | fail _, member => .inl (by rwa [andThen] at member)
  | call _ _ after, member => by
      rw [andThen, failures] at member
      rw [failures]
      exact mem_failures_andThen after member
  | join children after, member => by
      rw [andThen, failures] at member
      rw [failures]
      rcases List.mem_append.mp member with own | later
      · exact .inl (List.mem_append_left _ own)
      · cases all : outcomes children with
        | error other =>
            rw [all] at later
            cases later
        | ok values =>
            rw [all] at later
            refine (mem_failures_andThen (after values) later).imp_left fun inner => ?_
            exact List.mem_append_right _ inner

end Future

section Stages

variable {L : Type} {error : PathError} {next : Doc → Future L} {key : String}

/-- A stage that reads or updates a member fails on what is no object, or with what comes after
it. -/
theorem mem_failures_focus (transform : Doc → Trace Notice Doc) {strategy : ObjectStrategy}
    (plain : strategy = .read ∨ strategy = .update) (rest : List Stage) (doc : Doc)
    (member : error ∈ (strategy.focus key next doc).failures) :
    errorAt transform (.focus key :: rest) doc = some error ∨
      ∃ members, doc = .obj members ∧ error ∈ (next (Doc.member key members)).failures := by
  cases doc with
  | obj members =>
      refine .inr ⟨members, rfl, ?_⟩
      rcases plain with rfl | rfl
      · exact member
      · rcases Future.mem_failures_andThen _ member with inner | ⟨value, last⟩
        · exact inner
        · -- the value is put into the object, which cannot fail
          cases (show error ∈ [] from last)
  | null | bool _ | int _ | float _ | str _ | arr _ =>
      left
      rcases plain with rfl | rfl <;>
      · obtain rfl := List.mem_singleton.mp member
        rfl

/-- A stage that takes every element fails on what is no array, or with what comes after it. -/
theorem mem_failures_each (transform : Doc → Trace Notice Doc) (rest : List Stage) (doc : Doc)
    (member : error ∈ (ArrayStrategy.each.lift key next doc).failures) :
    errorAt transform (.lift key :: rest) doc = some error ∨
      ∃ items, doc = .arr items ∧ ∃ item ∈ items, error ∈ (next item).failures := by
  cases doc with
  | arr items =>
      refine .inr ⟨items, rfl, ?_⟩
      have member : error ∈ (Future.join (items.map next) fun results =>
          Future.done (.arr results)).failures := member
      rw [Future.failures] at member
      rcases List.mem_append.mp member with own | later
      · obtain ⟨_, present, inner⟩ := Future.mem_allFailures.mp own
        obtain ⟨item, at_item, rfl⟩ := List.mem_map.mp present
        exact ⟨item, at_item, inner⟩
      · cases all : Future.outcomes (items.map next) with
        | error other =>
            rw [all] at later
            cases later
        | ok values =>
            rw [all] at later
            cases (show error ∈ [] from later)
  | null | bool _ | int _ | float _ | str _ | obj _ =>
      left
      obtain rfl := List.mem_singleton.mp member
      rfl

end Stages

/-- The failures in an access that waits are those of the positions of its path. -/
theorem CompiledPath.failsWith_of_mem_failures {compiled : CompiledPath}
    (plain : compiled.strategies.Plain) {transform : Doc → Trace Notice Doc} {root : Doc}
    {error : PathError} (member : error ∈ (compiled.accessLater transform root).failures) :
    compiled.path.FailsWith transform root error := by
  rw [accessLater, Path.accessor_eq_foldr] at member
  unfold Path.FailsWith
  generalize compiled.path.stages = stages at member ⊢
  induction stages generalizing root with
  | nil =>
      refine ⟨[], root, .here _ _, ?_⟩
      have member : error ∈ (deferredLeaf transform root).failures := member
      rw [deferredLeaf, Future.callback, Future.failures] at member
      rw [errorAt]
      cases result : (transform root).result with
      | ok value =>
          rw [result] at member
          cases (show error ∈ [] from member)
      | error other =>
          rw [result] at member
          obtain rfl := List.mem_singleton.mp member
          rfl
  | cons stage rest ih =>
      rw [List.foldr_cons] at member
      cases stage with
      | focus key =>
          rcases mem_failures_focus transform plain.object rest root member with
            here | ⟨members, rfl, inner⟩
          · exact ⟨_, _, .here _ _, here⟩
          · obtain ⟨left, doc, reaches, fails⟩ := ih inner
            exact ⟨left, doc, .focus reaches, fails⟩
      | lift key =>
          change error ∈ Future.failures (compiled.strategies.array.lift key _ root) at member
          rw [plain.array] at member
          rcases mem_failures_each transform rest root member with
            here | ⟨items, rfl, item, present, inner⟩
          · exact ⟨_, _, .here _ _, here⟩
          · obtain ⟨left, doc, reaches, fails⟩ := ih inner
            exact ⟨left, doc, .lift present reaches, fails⟩

end Waypoint
