import Mathlib
import Waypoint.CompiledPath

/-!
# How strategy calls are nested

With every strategy call on record, on entry and on return, the record of an access says which calls
are open at each point (`PathCall.opened`). Where strategies use the rest of the chain only by
calling it (`CallsOnly`), a leaf is called with the strategies of all stages open, in the order of
the stages, and every call returns after those that were made inside it. Once a call has returned a
failure, nothing happens but that those still open return failures, innermost first.

All of this is kept by each call on the record (`PathCall.Step`), given which calls are open and
whether one has returned a failure.
-/

namespace Waypoint

/-! ## Strategies that call the rest of the chain -/

/-- Uses the rest of the chain only by calling it, any number of times. Which document it is called
with may depend on the values before; a failure is passed on. -/
inductive CallsOnly : ((Doc → PathTrace) → PathTrace) → Prop
  | ends (result : Except PathError Doc) : CallsOnly fun _ => Trace.ofResult result
  | calls (doc : Doc) {onward : Doc → (Doc → PathTrace) → PathTrace}
      (each : ∀ value, CallsOnly (onward value)) :
      CallsOnly fun next => (next doc).andThen fun value => onward value next

namespace CallsOnly

theorem value (doc : Doc) : CallsOnly fun _ => Answer.value doc :=
  .ends (.ok doc)

theorem failure (error : PathError) : CallsOnly fun _ => Answer.failure error :=
  .ends (.error error)

/-- One call, and what to do with its value. -/
theorem andThen_value (doc : Doc) (rebuild : Doc → Doc) :
    CallsOnly fun next => Answer.andThen (next doc) fun result => Answer.value (rebuild result) :=
  .calls doc fun result => value (rebuild result)

/-- A call for each element, and what to do with the values. -/
theorem gather (items : List Doc) (rebuild : List Doc → Doc) :
    CallsOnly fun next =>
      Answer.gather (items.map next) fun results => Answer.value (rebuild results) := by
  show CallsOnly fun next =>
    (Recorded.sequence (items.map next)).andThen fun results => pure (rebuild results)
  induction items generalizing rebuild with
  | nil => exact value (rebuild [])
  | cons item rest ih =>
      simp only [List.map_cons, Recorded.sequence, Recorded.andThen_assoc, Recorded.pure_andThen]
      exact .calls item fun result => ih fun results => rebuild (result :: results)

/-- A call for each element, one after another. -/
theorem inTurn (done items : List Doc) : CallsOnly fun next => inTurn next done items := by
  induction items generalizing done with
  | nil => exact value (.arr done)
  | cons item rest ih => exact .calls item fun result => ih (done ++ [result])

end CallsOnly

/-- Each stage uses the rest of the chain only by calling it. -/
structure Wrapping.CallsRest (wrapping : Wrapping (Doc → PathTrace)) : Prop where
  focus : ∀ key doc, CallsOnly fun next => wrapping.focus key next doc
  lift : ∀ key doc, CallsOnly fun next => wrapping.lift key next doc

theorem ObjectStrategy.callsOnly (strategy : ObjectStrategy) (key : String) (doc : Doc) :
    CallsOnly fun next => strategy.focus key next doc := by
  -- a call and no more: the call is all that a strategy returns which goes on with nothing
  have alone (inner : Doc) : CallsOnly fun next => next inner := by
    have whole := CallsOnly.andThen_value inner id
    simpa only [id, Answer.andThen, Answer.value, Recorded.andThen_pure] using whole
  cases strategy with
  | read =>
      cases doc with
      | obj members => exact alone (Doc.member key members)
      | null | bool _ | int _ | float _ | str _ | arr _ => exact .failure _
  | update =>
      cases doc with
      | obj members =>
          exact .andThen_value (Doc.member key members) fun result =>
            .obj (Doc.setMember key result members)
      | null | bool _ | int _ | float _ | str _ | arr _ => exact .failure _
  | updateOrZero =>
      exact .andThen_value _ fun result => .obj (Doc.setMember key result _)
  | pass => exact alone doc

theorem ArrayStrategy.callsOnly (strategy : ArrayStrategy) (key : String) (doc : Doc) :
    CallsOnly fun next => strategy.lift key next doc := by
  cases doc with
  | arr items =>
      cases strategy with
      | each | reversed | skipNulls => exact .gather _ .arr
      | oneByOne => exact .inTurn [] items
      | firstOnly =>
          cases items with
          | nil => exact .value (.arr [])
          | cons item rest => exact .andThen_value item fun result => .arr (result :: rest)
  | null | bool _ | int _ | float _ | str _ | obj _ => cases strategy <;> exact .failure _

theorem Strategies.callsRest (strategies : Strategies) :
    (strategies.wrapping : Wrapping (Doc → PathTrace)).CallsRest :=
  ⟨strategies.object.callsOnly, strategies.array.callsOnly⟩

/-! ## Open calls -/

namespace PathCall

/-- The stages whose strategies are open after a call, innermost first, given those before it. Only
the innermost one can return. -/
def openedBy (opened : List Stage) : PathCall → Option (List Stage)
  | leaf _ => some opened
  | enter stage => some (stage :: opened)
  | leave stage _ =>
    match opened with
    | [] => none
    | innermost :: others => if stage = innermost then some others else none

/-- The stages whose strategies are open after some calls, innermost first. -/
def opened (calls : List PathCall) : Option (List Stage) :=
  calls.foldlM openedBy []

variable {stages : List Stage}

/-- A call in an access through the stages. A leaf is called with all of them open. After a failure
only failures are returned. -/
inductive Step (stages : List Stage) : List Stage → Bool → PathCall → List Stage → Bool → Prop
  | leaf (doc : Doc) : Step stages stages.reverse false (.leaf doc) stages.reverse false
  | enter (stage : Stage) (opened : List Stage) :
      Step stages opened false (.enter stage) (stage :: opened) false
  | leave (stage : Stage) (opened : List Stage) {failed ok : Bool}
      (passed_on : failed = true → ok = false) :
      Step stages (stage :: opened) failed (.leave stage ok) opened (!ok)

/-- Calls in an access through the stages: which are open before and after them, and whether one
has returned a failure. -/
inductive Run (stages : List Stage) :
    List Stage → Bool → List PathCall → List Stage → Bool → Prop
  | nil (opened : List Stage) (failed : Bool) : Run stages opened failed [] opened failed
  | cons {opened opened' opened'' : List Stage} {failed failed' failed'' : Bool} {call : PathCall}
      {calls : List PathCall} (step : Step stages opened failed call opened' failed')
      (rest : Run stages opened' failed' calls opened'' failed'') :
      Run stages opened failed (call :: calls) opened'' failed''

variable {opened opened' opened'' : List Stage} {failed failed' failed'' : Bool}
  {calls calls' : List PathCall} {call : PathCall}

theorem Step.openedBy_eq (step : Step stages opened failed call opened' failed') :
    openedBy opened call = some opened' := by
  cases step with
  | leaf doc => rfl
  | enter stage opened => rfl
  | leave stage opened passed_on => simp [openedBy]

namespace Run

theorem append (first : Run stages opened failed calls opened' failed')
    (second : Run stages opened' failed' calls' opened'' failed'') :
    Run stages opened failed (calls ++ calls') opened'' failed'' := by
  induction first with
  | nil opened failed => exact second
  | cons step _ ih => exact .cons step (ih second)

/-- The calls up to some point, and those from there on. -/
theorem split (run : Run stages opened failed (calls ++ calls') opened'' failed'') :
    ∃ opened' failed', Run stages opened failed calls opened' failed' ∧
      Run stages opened' failed' calls' opened'' failed'' := by
  induction calls generalizing opened failed with
  | nil => exact ⟨opened, failed, .nil opened failed, run⟩
  | cons call rest ih =>
      cases run with
      | cons step others =>
          obtain ⟨opened', failed', first, second⟩ := ih others
          exact ⟨opened', failed', .cons step first, second⟩

theorem foldlM_eq (run : Run stages opened failed calls opened' failed') :
    calls.foldlM openedBy opened = some opened' := by
  induction run with
  | nil opened failed => rfl
  | cons step _ ih =>
      rw [List.foldlM_cons, step.openedBy_eq]
      exact ih

/-- After a failure all calls that are open return failures, innermost first. -/
theorem eq_map_leave (run : Run stages opened failed calls opened' failed') (fails : failed = true)
    (all : opened' = []) : calls = opened.map (leave · false) ∧ failed' = true := by
  induction run with
  | nil opened failed =>
      subst all
      exact ⟨rfl, fails⟩
  | cons step _ ih =>
      cases step with
      | leaf doc => cases fails
      | enter stage opened => cases fails
      | leave stage opened passed_on =>
          obtain rfl := passed_on fails
          obtain ⟨rest, ended⟩ := ih rfl all
          exact ⟨by rw [rest, List.map_cons], ended⟩

end Run

end PathCall

/-! ## Accesses -/

section Access

variable {stages above : List Stage} {trace : PathTrace} {next : Doc → PathTrace}

/-- What is recorded while some calls are open leaves just those open, and has failed if one of its
calls has returned a failure. -/
def PathTrace.Within (stages above : List Stage) (trace : PathTrace) : Prop :=
  ∃ failed, PathCall.Run stages above false (Entry.calls trace.log) above failed ∧
    (failed = true → trace.ok = false)

theorem recordedLeaf_within (transform : Doc → Trace Notice Doc) (stages : List Stage) (doc : Doc) :
    (recordedLeaf transform doc).Within stages stages.reverse := by
  have calls : Entry.calls (recordedLeaf transform doc).log = [PathCall.leaf doc] := by
    show PathCall.leaf doc :: Entry.calls ((transform doc).log.map .notice) = _
    rw [Entry.calls_map_notice]
  refine ⟨false, ?_, by simp⟩
  rw [calls]
  exact .cons (.leaf doc) (.nil _ _)

/-- Whatever calls the rest of the chain stays within what the rest of the chain stays within. -/
theorem CallsOnly.within {use : (Doc → PathTrace) → PathTrace} (only : CallsOnly use)
    (each : ∀ doc, (next doc).Within stages above) : (use next).Within stages above := by
  induction only with
  | ends result => exact ⟨false, .nil _ _, by simp⟩
  | @calls doc onward _ ih =>
      obtain ⟨failed, run, fails⟩ := each doc
      cases result : (next doc).result with
      | error error =>
          show PathTrace.Within stages above ((next doc).andThen fun value => onward value next)
          rw [Recorded.andThen_of_error result]
          exact ⟨failed, run, fun _ => rfl⟩
      | ok value =>
          have passed : failed = false := by
            cases failed with
            | false => rfl
            | true =>
                have := fails rfl
                simp [Recorded.ok, result] at this
          subst passed
          obtain ⟨failed, run', fails'⟩ := ih value
          show PathTrace.Within stages above ((next doc).andThen fun value => onward value next)
          rw [Recorded.andThen_of_ok result]
          refine ⟨failed, ?_, fails'⟩
          rw [Entry.calls_append]
          exact run.append run'

/-- A call that has returned leaves open what was open before. -/
theorem PathTrace.Within.bracket {stage : Stage} (within : trace.Within stages (stage :: above)) :
    (PathTrace.bracket stage trace).Within stages above := by
  obtain ⟨failed, run, fails⟩ := within
  refine ⟨!trace.ok, ?_, ?_⟩
  · have calls : Entry.calls (PathTrace.bracket stage trace).log =
        .enter stage :: (Entry.calls trace.log ++ [.leave stage trace.ok]) := by
      show Entry.calls ([.call (.enter stage)] ++ (trace.log ++ [_])) = _
      rw [Entry.calls_append, Entry.calls_append]
      rfl
    rw [calls]
    exact .cons (.enter stage above) (run.append (.cons (.leave stage above fails) (.nil _ _)))
  · show (!trace.ok) = true → trace.ok = false
    simp

/-- The rest of an access stays within the stages before it. -/
theorem Wrapping.CallsRest.within {wrapping : Wrapping (Doc → PathTrace)}
    (rest_only : wrapping.CallsRest) (transform : Doc → Trace Notice Doc) (before rest : List Stage)
    (doc : Doc) :
    (rest.foldr (Stage.wrap wrapping.recorded) (recordedLeaf transform) doc).Within
      (before ++ rest) before.reverse := by
  induction rest generalizing before doc with
  | nil =>
      rw [List.append_nil]
      exact recordedLeaf_within transform before doc
  | cons stage rest ih =>
      -- with this stage open too, the rest stays within the stages before it and this one
      have inside (inner : Doc) :
          (rest.foldr (Stage.wrap wrapping.recorded) (recordedLeaf transform) inner).Within
            (before ++ stage :: rest) (stage :: before.reverse) := by
        simpa using ih (before ++ [stage]) inner
      cases stage with
      | focus key => exact ((rest_only.focus key doc).within inside).bracket
      | lift key => exact ((rest_only.lift key doc).within inside).bracket

end Access

/-- Where the strategies use the rest of the chain only by calling it, as all of `Strategies` do, no
strategy call of an access is skipped, made out of place or left open. Each leaf is called with the
strategies of all stages open, the first stage outermost. All calls return, the innermost one first.
If one returns a failure, the access fails, and what is left of its record is the return of a
failure from each call that is still open. -/
theorem strategy_calls_are_nested :
    (∀ strategies : Strategies,
      (strategies.wrapping : Wrapping (Doc → PathTrace)).CallsRest) ∧
    ∀ wrapping : Wrapping (Doc → PathTrace), wrapping.CallsRest →
      ∀ (path : Path) (transform : Doc → Trace Notice Doc) (root : Doc),
        let trace := path.accessor wrapping.recorded (recordedLeaf transform) root
        let calls := Entry.calls trace.log
        PathCall.opened calls = some [] ∧
          (∀ before doc after, calls = before ++ .leaf doc :: after →
            PathCall.opened before = some path.stages.reverse) ∧
          ∀ before stage after, calls = before ++ .leave stage false :: after →
            trace.ok = false ∧
              ∃ still, PathCall.opened (before ++ [.leave stage false]) = some still ∧
                after = still.map (.leave · false) := by
  refine ⟨Strategies.callsRest, ?_⟩
  intro wrapping rest_only path transform root trace calls
  have within := rest_only.within transform [] path.stages root
  rw [← Path.accessor_eq_foldr] at within
  obtain ⟨failed, run, fails⟩ := within
  refine ⟨run.foldlM_eq, ?_, ?_⟩
  · intro before doc after split
    change PathCall.Run path.stages [] false calls [] failed at run
    rw [split] at run
    obtain ⟨opened, failed, first, others⟩ := run.split
    cases others with
    | cons step _ =>
        cases step with
        | leaf doc => exact first.foldlM_eq
  · intro before stage after split
    change PathCall.Run path.stages [] false calls [] failed at run
    rw [split, List.append_cons] at run
    obtain ⟨opened, failed', first, others⟩ := run.split
    have failed_there : failed' = true := by
      obtain ⟨_, _, -, last⟩ := first.split
      cases last with
      | cons step last =>
          cases last
          cases step
          rfl
    subst failed_there
    obtain ⟨rest, ended⟩ := others.eq_map_leave rfl rfl
    exact ⟨fails ended, opened, first.foldlM_eq, rest⟩

/-- Null is left out, the second row is refused by the transform, and the third one is not
called. -/
theorem strategy_calls_of_rows_are_nested :
    let strategies : Strategies := ⟨.updateOrZero, .skipNulls⟩
    let path := Path.parse "rows[].n"
    let transform := (Transform.failIf .negative "negative").run
    let row (number : Int) := Doc.obj [("n", .int number)]
    let root := Doc.obj [("rows", .arr [.null, row 1, row (-1), row 2])]
    let trace := CompiledPath.accessRecorded ⟨path, strategies⟩ transform root
    let calls := Entry.calls trace.log
    let returned : List PathCall := [.enter (.focus "rows"), .enter (.lift "rows"),
      .enter (.focus "n"), .leaf (.int 1), .leave (.focus "n") true,
      .enter (.focus "n"), .leaf (.int (-1)), .leave (.focus "n") false]
    strategies.wrapping.CallsRest ∧
      calls = returned ++ [.leave (.lift "rows") false, .leave (.focus "rows") false] ∧
      PathCall.opened calls = some [] ∧
      PathCall.opened (returned.take 6) = some path.stages.reverse ∧ trace.ok = false := by
  intro strategies path transform row root trace calls returned
  have nested := strategy_calls_are_nested
  have rest_only := nested.1 strategies
  obtain ⟨all, leaf, failure⟩ := nested.2 strategies.wrapping rest_only path transform root
  have shown : calls = returned ++ [.leave (.lift "rows") false, .leave (.focus "rows") false] := by
    decide +kernel
  exact ⟨rest_only, shown, all, leaf _ (.int (-1)) _ shown, (failure _ _ _ shown).1⟩

end Waypoint
