import Waypoint.Proofs.Future.Rounds
import Waypoint.Proofs.Path.Positions

/-!
# Waiting does not matter for values

An access that reads or updates through a path comes to the same value with waiting callbacks as
without, and fails exactly where the other one fails. Which failure it reports depends on the
waiting times, but the failure is one at a position of the path. This holds for roots taken one
after another as well as for roots taken side by side.
-/

namespace Waypoint

theorem toOption_eq_some {answer : Except PathError Doc} {value : Doc} :
    answer.toOption = some value ↔ answer = .ok value := by
  cases answer <;> simp [Except.toOption]

theorem toOption_eq_none {answer : Except PathError Doc} :
    answer.toOption = none ↔ ∃ error, answer = .error error := by
  cases answer <;> simp [Except.toOption]

namespace CompiledPath

/-- What an access that waits comes to agrees with the access that does not wait. -/
structure Agrees (compiled : CompiledPath) (transform : Doc → Trace Notice Doc) (root : Doc)
    (result : Option (Except PathError Doc)) : Prop where
  ends : ∃ answer, result = some answer
  value : ∀ value, result = some (.ok value) ↔
    (compiled.access transform root).result = .ok value
  fails : (∃ error, result = some (.error error)) ↔
    ∃ error, (compiled.access transform root).result = .error error
  failure : ∀ error, result = some (.error error) →
    compiled.path.FailsWith transform root error

variable {compiled : CompiledPath} {transform : Doc → Trace Notice Doc}

theorem agrees_of_comesTo (plain : compiled.strategies.Plain) {root : Doc}
    {result : Option (Except PathError Doc)}
    (ended : ∃ answer, result = some answer ∧
      (compiled.accessLater transform root).ComesTo answer) :
    compiled.Agrees transform root result := by
  obtain ⟨answer, rfl, value, failure⟩ := ended
  rw [outcome_accessLater] at value
  refine ⟨⟨answer, rfl⟩, fun doc => ?_, ?_, fun error fails => ?_⟩
  · rw [Option.some_inj, ← toOption_eq_some, value, toOption_eq_some]
  · simp only [Option.some_inj, ← toOption_eq_none, value]
  · exact failsWith_of_mem_failures plain (failure error (Option.some.inj fails))

/-- Roots taken one after another, each access beginning where the one before it ended. -/
theorem runInTurn_agrees (plain : compiled.strategies.Plain) (roots : List Doc)
    (world : World Doc) :
    List.Forall₂ (compiled.Agrees transform) roots
      ((Future.runInTurn (roots.map (compiled.accessLater transform)) world).map
        Report.result) := by
  induction roots generalizing world with
  | nil => exact .nil
  | cons root rest ih =>
      have ended := Future.run_comesTo (compiled.accessLater transform root) world.nextRun rfl
      exact .cons (agrees_of_comesTo plain ended) (ih _)

theorem runTogether_agrees (plain : compiled.strategies.Plain) (roots : List Doc)
    (world : World Doc) (none : world.putOff = []) :
    List.Forall₂ (compiled.Agrees transform) roots
      (Future.runTogether (roots.map (compiled.accessLater transform)) world).1 := by
  have ended := Future.runTogether_comesTo (roots.map (compiled.accessLater transform)) world none
  rw [List.forall₂_map_left_iff] at ended
  exact ended.imp fun root result => agrees_of_comesTo plain

end CompiledPath

/-- An access through a path that reads or updates comes to the same value whatever its callbacks
wait for, and to a failure of its own positions where there is none. -/
theorem access_agrees_whatever_waits (path : Path) (strategies : Strategies)
    (plain : strategies.Plain) (transform : Doc → Trace Notice Doc) (roots : List Doc)
    (delays : List Nat) :
    let compiled : CompiledPath := ⟨path, strategies⟩
    let futures := roots.map (compiled.accessLater transform)
    List.Forall₂ (compiled.Agrees transform) roots
        ((Future.runInTurn futures (World.fresh delays)).map Report.result) ∧
      List.Forall₂ (compiled.Agrees transform) roots
        (Future.runJointly futures (World.fresh delays)).results := by
  intro compiled futures
  exact ⟨CompiledPath.runInTurn_agrees plain roots _,
    CompiledPath.runTogether_agrees plain roots _ rfl⟩

/-- Two elements fail. Without waiting the first one of them is reported, and with waiting the one
that ends its wait first. -/
theorem access_agrees_for_two_failures :
    let path : Path := ⟨[.array "rows"]⟩
    let refusals : List Transform :=
      [.failIf .negative "negative", .failIf (.hasKind .string) "text"]
    let transform := (Transform.seq refusals).run
    let root : Doc := .obj [("rows", .arr [.int 1, .int (-1), .str "x"])]
    let compiled : CompiledPath := ⟨path, .update⟩
    let futures := [root].map (compiled.accessLater transform)
    (compiled.access transform root).result = .error (.transform "negative") ∧
      (Future.runJointly futures (World.fresh [30, 20, 10])).results =
        [some (.error (.transform "text"))] ∧
      Strategies.update.Plain ∧
      List.Forall₂ (compiled.Agrees transform) [root]
        ((Future.runInTurn futures (World.fresh [30, 20, 10])).map Report.result) ∧
      List.Forall₂ (compiled.Agrees transform) [root]
        (Future.runJointly futures (World.fresh [30, 20, 10])).results := by
  refine ⟨rfl, by decide +kernel, .inr rfl, ?_⟩
  exact access_agrees_whatever_waits _ .update (.inr rfl) _ _ _

end Waypoint
