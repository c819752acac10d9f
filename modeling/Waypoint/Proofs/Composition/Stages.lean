import Waypoint.Composition
import Waypoint.Proofs.Future.Chains

/-!
# The stages of a composition

A composition applies its functions from the rightmost to the leftmost, each to what the one before
it gave (`Composition.stages`). Where the functions wait it does so too, one stage after another: it
is a chain, and many of them that run together do not delay one another.
-/

namespace Waypoint

open Fold (backToBack total TakesTurns)

namespace Composition

variable {F L κ : Type}

/-- Functions with their arguments, each applied to what the one before it gave. -/
def passOn (value : F → Doc → Doc) : List F → Doc → List (F × Doc)
  | [], _ => []
  | f :: rest, doc => (f, doc) :: passOn value rest (value f doc)

/-- The functions of a composition with their arguments, from the rightmost to the leftmost. -/
def stages (value : F → Doc → Doc) (composed : Composition F) (doc : Doc) : List (F × Doc) :=
  passOn value composed.functions.reverse doc

/-- The value of a composition. -/
def valueAt (value : F → Doc → Doc) (composed : Composition F) (doc : Doc) : Doc :=
  composed.functions.foldr value doc

/-- The callbacks of a composition, stage by stage. -/
def callbacks (value : F → Doc → Doc) (labels : F → Doc → List L) (composed : Composition F)
    (doc : Doc) : List L :=
  (composed.stages value doc).flatMap fun stage => labels stage.1 stage.2

/-- Functions that do not wait and their counterparts that do. A counterpart calls back with some
labels, one callback after another, and comes to the value of the function. -/
structure Counterparts (call : F → Doc → Trace κ Doc) (later : F → Doc → Future L)
    (value : F → Doc → Doc) (labels : F → Doc → List L) : Prop where
  call : ∀ f doc, (call f doc).result = .ok (value f doc)
  later : ∀ f doc, (later f doc).IsChain (labels f doc) (value f doc)

theorem passOn_append (value : F → Doc → Doc) (first second : List F) (doc : Doc) :
    passOn value (first ++ second) doc =
      passOn value first doc ++
        passOn value second (first.foldl (fun doc f => value f doc) doc) := by
  induction first generalizing doc with
  | nil => rfl
  | cons f rest ih => exact congrArg ((f, doc) :: ·) (ih (value f doc))

section Compose

variable (value : F → Doc → Doc) (labels : F → Doc → List L) (outer inner : Composition F)
  (doc : Doc)

theorem valueAt_compose :
    (compose outer inner).valueAt value doc = outer.valueAt value (inner.valueAt value doc) :=
  List.foldr_append

/-- The stages of the inner composition come first, and hand on their value. -/
theorem stages_compose :
    (compose outer inner).stages value doc =
      inner.stages value doc ++ outer.stages value (inner.valueAt value doc) := by
  rw [stages, functions, List.reverse_append, passOn_append, List.foldl_reverse]
  rfl

/-- The rightmost function comes first. -/
example (f g h : F) : (ofList f [g, h]).stages value doc =
    [(h, doc), (g, value h doc), (f, value g (value h doc))] := rfl

theorem callbacks_compose :
    (compose outer inner).callbacks value labels doc =
      inner.callbacks value labels doc ++
        outer.callbacks value labels (inner.valueAt value doc) := by
  rw [callbacks, stages_compose, List.flatMap_append]
  rfl

end Compose

end Composition

namespace Composition.Counterparts

variable {F L κ : Type} {call : F → Doc → Trace κ Doc} {later : F → Doc → Future L}
  {value : F → Doc → Doc} {labels : F → Doc → List L}

theorem result_apply (counterparts : Counterparts call later value labels)
    (composed : Composition F) (doc : Doc) :
    (composed.apply call doc).result = .ok (composed.valueAt value doc) := by
  induction composed generalizing doc with
  | function f => exact counterparts.call f doc
  | compose outer inner ihOuter ihInner =>
      show ((inner.apply call doc).andThen (outer.apply call)).result = _
      rw [Recorded.result_andThen, ihInner, valueAt_compose]
      exact ihOuter _

theorem isChain_apply (counterparts : Counterparts call later value labels)
    (composed : Composition F) (doc : Doc) :
    (composed.apply later doc).IsChain (composed.callbacks value labels doc)
      (composed.valueAt value doc) := by
  induction composed generalizing doc with
  | function f =>
      have alone : (function f).callbacks value labels doc = labels f doc := List.append_nil _
      rw [alone]
      exact counterparts.later f doc
  | compose outer inner ihOuter ihInner =>
      rw [valueAt_compose, callbacks_compose]
      exact (ihInner doc).andThen (ihOuter _)

end Composition.Counterparts

/-- The same composed function called on many inputs, the callbacks tagged by the positions of the
inputs. -/
def Composition.calledOnAll {F L : Type} (later : F → Doc → Future L) (composed : Composition F)
    (inputs : List Doc) : List (Future (Nat × L)) :=
  inputs.mapIdx fun k doc => (composed.apply later doc).relabel (Prod.mk k)

section CalledOnAll

variable {F L κ : Type} {call : F → Doc → Trace κ Doc} {later : F → Doc → Future L}
  {value : F → Doc → Doc} {labels : F → Doc → List L}

/-- Without the tags they are the calls. -/
theorem Composition.relabel_calledOnAll (later : F → Doc → Future L) (composed : Composition F)
    (inputs : List Doc) :
    (composed.calledOnAll later inputs).map (Future.relabel Prod.snd) =
      inputs.map (composed.apply later) := by
  refine List.ext_getElem? fun k => ?_
  rw [List.getElem?_map, calledOnAll, List.getElem?_mapIdx, List.getElem?_map, Option.map_map]
  congr 1
  funext doc
  rw [Function.comp_apply, Future.relabel_relabel]
  exact Future.relabel_id _

theorem Composition.Counterparts.areChains (counterparts : Counterparts call later value labels)
    (composed : Composition F) (inputs : List Doc) :
    Future.AreChains
      (inputs.map fun doc => (composed.callbacks value labels doc, composed.valueAt value doc))
      (composed.calledOnAll later inputs) := by
  refine ⟨by simp [calledOnAll], fun k future at_k => ?_⟩
  rw [calledOnAll, List.getElem?_mapIdx] at at_k
  obtain ⟨doc, given, rfl⟩ := Option.map_eq_some_iff.mp at_k
  refine ⟨_, _, ?_, (counterparts.isChain_apply composed doc).relabel (Prod.mk k)⟩
  rw [List.getElem?_map, given]
  rfl

end CalledOnAll

namespace ComposedFunction

/-- The value of a composed function: where the transform fails, null. -/
def value : ComposedFunction → Doc → Doc
  | bareIdentity, doc => doc
  | transform _ t, doc => (t.run doc).orNull.value

/-- Its callback, unless it is the bare identity. -/
def labels : ComposedFunction → Doc → List ComposedCall
  | bareIdentity, _ => []
  | transform index _, doc => [⟨index, doc⟩]

theorem result_orNull {κ : Type} (trace : Trace κ Doc) :
    trace.orNull.result = .ok trace.orNull.value := by
  obtain ⟨log, result⟩ := trace
  cases result <;> rfl

/-- Composed functions that wait are the counterparts of those that do not. -/
theorem counterparts : Composition.Counterparts call callLater value labels where
  call := by
    intro f doc
    cases f with
    | bareIdentity => rfl
    | transform index t => exact result_orNull (t.run doc)
  later := by
    intro f doc
    cases f with
    | bareIdentity => exact .done doc
    | transform index t =>
        rw [callLater, Future.callback, result_orNull]
        exact .call _ _ (.done _)

end ComposedFunction

/-- A composition of functions that wait agrees with that of functions that do not, and runs its
stages one at a time. It comes to the value of the composition. On record are the callbacks of the
stages, from the rightmost to the leftmost and each stage called with what the one before it gave;
each callback starts at the instant at which the one before it ends, so the time is the sum of the
waits. Where the composed function is called on many inputs and the futures run together, each of
them comes to the value that it has alone, and on record of each are the callbacks of its stages,
again back to back: they take turns from the beginning on, each with the waiting time that it takes
by its place among all callbacks that start. -/
theorem composition_runs_stage_by_stage {F L κ : Type} {call : F → Doc → Trace κ Doc}
    {later : F → Doc → Future L} {value : F → Doc → Doc} {labels : F → Doc → List L}
    (counterparts : Composition.Counterparts call later value labels)
    (composed : Composition F) :
    (∀ doc, (composed.apply call doc).result = .ok (composed.functions.foldr value doc)) ∧
    (∀ (doc : Doc) (world : World L),
      let report := (composed.apply later doc).reportFrom world.nextRun
      let steps := withWaits world.delays world.started (composed.callbacks value labels doc)
      report.result = some (composed.apply call doc).result ∧
        Entry.calls report.log = backToBack world.now steps ∧
        report.elapsed = world.now + total steps) ∧
    ∀ (inputs : List Doc) (world : World (Nat × L)),
      let report := Future.runJointly (composed.calledOnAll later inputs) world.nextRun
      let steps (k : Nat) := Entry.waitsOf world.delays world.started k report.log
      Future.runJointly (inputs.map (composed.apply later)) (world.nextRun.relabel Prod.snd) =
          report.relabel Prod.snd ∧
        report.results = inputs.map (fun doc => some (composed.apply call doc).result) ∧
        (∀ k doc, inputs[k]? = some doc →
          (steps k).map Prod.fst = composed.callbacks value labels doc ∧
            Entry.eventsOf k report.log = backToBack world.now (steps k) ∧
            TakesTurns world.now (Entry.eventsOf k report.log)) ∧
        report.elapsed = world.now +
          ((List.range inputs.length).map fun k => total (steps k)).max?.getD 0 := by
  refine ⟨fun doc => counterparts.result_apply composed doc, fun doc world => ?_,
    fun inputs world => ?_⟩
  · intro report steps
    obtain ⟨result, record, elapsed⟩ := Future.run_chain (counterparts.isChain_apply composed doc)
      (rfl : world.nextRun.putOff = []) rfl
    refine ⟨?_, record, elapsed⟩
    rw [counterparts.result_apply]
    exact result
  · intro report steps
    obtain ⟨results, records, elapsed⟩ := Future.runTogether_chains
      (counterparts.areChains composed inputs) (rfl : world.nextRun.putOff = []) rfl
    refine ⟨?_, ?_, fun k doc at_k => ?_, ?_⟩
    · rw [← composed.relabel_calledOnAll later inputs]
      exact Future.runJointly_relabel _ world.nextRun
    · refine results.trans ?_
      rw [List.map_map]
      exact List.map_congr_left fun doc _ =>
        congrArg some (counterparts.result_apply composed doc).symm
    · obtain ⟨all, record⟩ := records k (composed.callbacks value labels doc)
        (composed.valueAt value doc) (by rw [List.getElem?_map, at_k]; rfl)
      have same : Entry.eventsOf k report.log = backToBack world.now (steps k) := record
      refine ⟨all, same, ?_⟩
      rw [same]
      exact Fold.takesTurns_backToBack _ _
    · rw [List.length_map] at elapsed
      exact elapsed

/-- Two inputs go through the same two functions. The second one is through the inner function first
and goes on while the first one still waits there. -/
theorem composition_of_two_inputs_in_turns :
    let composed :=
      Composition.ofList (ComposedFunction.transform 0 .increment) [.transform 1 .double]
    let report := Future.runJointly
      (composed.calledOnAll ComposedFunction.callLater [.int 1, .int 10]) (World.fresh [5, 3, 2])
    Composition.Counterparts ComposedFunction.call ComposedFunction.callLater
        ComposedFunction.value ComposedFunction.labels ∧
      report.results = [some (.ok (.int 3)), some (.ok (.int 21))] ∧ report.elapsed = 10 ∧
      Entry.eventsOf 1 report.log = [.started ⟨1, .int 10⟩ 0, .ended ⟨1, .int 10⟩ 3,
        .started ⟨0, .int 20⟩ 3, .ended ⟨0, .int 20⟩ 5] ∧
      TakesTurns 0 (Entry.eventsOf 0 report.log) ∧
      TakesTurns 0 (Entry.eventsOf 1 report.log) := by
  intro composed report
  obtain ⟨-, -, together⟩ :=
    composition_runs_stage_by_stage ComposedFunction.counterparts composed
  obtain ⟨-, -, records, -⟩ := together [.int 1, .int 10] (World.fresh [5, 3, 2])
  exact ⟨ComposedFunction.counterparts, by decide +kernel, by decide +kernel, by decide +kernel,
    (records 0 (.int 1) rfl).2.2, (records 1 (.int 10) rfl).2.2⟩

end Waypoint
