import Mathlib
import Waypoint.Proofs.Fold.Succession
import Waypoint.Proofs.Future.Relabel
import Waypoint.Proofs.Limit.Outcome

/-!
# One task at a time

With a limit of one, a bounded run is a fold. A task is launched when the one before it is joined,
and takes three rounds at most (`Timeline.settle_alone`). So mapping a function over a list with one
call in flight and mapping it with `flow` go from element to element together, and what is on record
of both are the same calls (`Abreast`).
-/

namespace Waypoint

/-! ## A task that is alone in flight -/

namespace Timeline

variable {V ε : Type}

/-- It starts, ends after its time, and is joined; some of its three rounds may be left. -/
theorem settle_alone (rounds index : Nat) (task : Task V ε) (pending : List (Nat × Task V ε))
    (joined : List (Nat × V)) (now : Nat) (log : List (Entry TaskEvent)) :
    ∃ left, rounds ≤ left ∧
      settle (rounds + 3) ⟨1, pending, [index], joined⟩ ⟨now, [.start index task], [], [], log⟩ =
        match joinEnded [⟨index, now + task.duration, task.completion⟩]
            ⟨1, pending, [index], joined⟩
            ⟨now + task.duration, [], [], [], log ++
              [.call (.started index now), .call (.ended index (now + task.duration))]⟩ with
        | (.error error, timeline) => (.error error, timeline)
        | (.ok pool, timeline) => settle left pool timeline := by
  obtain ⟨duration, completion⟩ := task
  have lines : log ++ [.call (.started index now), .call (.ended index (now + duration))] =
      log ++ [.call (.started index now)] ++ [.call (.ended index (now + duration))] :=
    List.append_cons _ _ _
  rw [lines]
  cases duration with
  | zero => exact ⟨rounds + 2, by omega, rfl⟩
  | succ duration =>
      refine ⟨rounds, Nat.le_refl _, ?_⟩
      let asleep : Timeline V ε :=
        ⟨now, [], [⟨index, now + (duration + 1), completion⟩], [],
          log ++ [.call (.started index now)]⟩
      have wakes : asleep.advance = ⟨now + (duration + 1),
          [.finish ⟨index, now + (duration + 1), completion⟩], [], [], asleep.log⟩ := by
        simp [asleep, advance, nextEnd?, advanceTo]
      calc
        _ = settle (rounds + 2) ⟨1, pending, [index], joined⟩ asleep := rfl
        _ = settle (rounds + 1) ⟨1, pending, [index], joined⟩ asleep.advance := rfl
        _ = _ := by
          rw [wakes]
          rfl

/-- Where nothing is in flight a drain shows nothing. -/
theorem drained_of_idle {timeline : Timeline V ε} (line : timeline.line = [])
    (asleep : timeline.asleep = []) (drain : Nat) :
    (timeline.drained drain).log = timeline.log := by
  unfold drained
  split
  · rfl
  · simp [takeTurns, line, asleep, sortBy]

/-- Nothing happens any more where nothing is in flight. -/
theorem settle_of_idle (rounds : Nat) {pool : Pool V ε} (idle : pool.running = [])
    (timeline : Timeline V ε) : settle rounds pool timeline = (.ok pool, timeline) := by
  cases rounds with
  | zero => rfl
  | succ rounds => rw [settle, if_pos (by rw [idle]; rfl)]

end Timeline

/-- Values that were joined in the order of the input are in that order. -/
theorem results_of_zipIdx {V ε : Type} (limit : Nat) (pending : List (Nat × Task V ε))
    (running : List Nat) (values : List V) :
    (Pool.mk limit pending running (values.zipIdx.map Prod.swap)).results = values := by
  have sorted : (values.zipIdx.map Prod.swap).Pairwise fun a b => a.1 ≤ b.1 := by
    refine List.pairwise_map.mp ?_
    rw [List.map_map]
    have keys : values.zipIdx.map (Prod.fst ∘ Prod.swap) = List.range values.length := by
      simp [Function.comp_def, List.zipIdx_map_snd, List.range_eq_range']
    rw [keys]
    exact List.pairwise_le_range
  rw [Pool.results, sortBy_of_pairwise _ sorted, List.map_map]
  simp [Function.comp_def]

/-- An event of a task as a call. -/
def TaskEvent.ofCall {α : Type} : CallEvent (α × Nat) → TaskEvent
  | .started call time => .started call.2 time
  | .ended call time => .ended call.2 time

section Sequential

variable {α β ε : Type} {f : α → Recorded ε Notice β} {waits : Nat → Nat} {list elements : List α}
  {first now : Nat} {element : α} {collected : List β}

/-! ## A round of the bounded run -/

/-- The calls on elements as tasks that are pending, from the index `first` on. -/
def numbered (f : α → Recorded ε Notice β) (waits : Nat → Nat) (first : Nat) (elements : List α) :
    List (Nat × Task β ε) :=
  (elements.zipIdx first).map fun (element, index) =>
    (index, ⟨waits index, .ofResult (f element).result⟩)

/-- The bounded run with the limit one from the index `first` on: the values before it are joined,
and the next task is launched. -/
def mappedFrom (f : α → Recorded ε Notice β) (waits : Nat → Nat) (total drain rounds : Nat)
    (elements : List α) (first now : Nat) (collected : List β) (log : List (Entry TaskEvent)) :
    LimitReport β ε :=
  let (pool, timeline) := Timeline.refill
    ⟨1, numbered f waits first elements, [], collected.zipIdx.map Prod.swap⟩ ⟨now, [], [], [], log⟩
  .ofRounds total drain (Timeline.settle rounds pool timeline)

variable {total drain rounds : Nat} {log : List (Entry TaskEvent)}

theorem mapLimited_one (f : α → Recorded ε Notice β) (waits : Nat → Nat) (list : List α)
    (drain : Nat) :
    mapLimited 1 (fun element => (f element).result) waits list drain =
      mappedFrom f waits list.length drain (3 * list.length) list 0 0 [] [] := by
  have pending : Pool.new 1 (list.zipIdx.map fun (element, index) =>
        (⟨waits index, .ofResult (f element).result⟩ : Task β ε)) =
      ⟨1, numbered f waits 0 list, [], []⟩ := by
    have indices : list.zipIdx.zipIdx = list.zipIdx.map fun call => (call, call.2) := by
      refine List.ext_getElem (by simp) fun position _ _ => ?_
      simp
    simp only [Pool.new, numbered, List.zipIdx_map, indices, List.map_map]
    rfl
  rw [mapLimited, runLimited, if_neg Nat.one_ne_zero, pending, List.length_map, List.length_zipIdx]
  rfl

/-- Where no element is left it resolves to the values. -/
theorem mappedFrom_nil :
    (mappedFrom f waits total drain rounds [] first now collected log).result = .ok collected ∧
      Entry.calls (mappedFrom f waits total drain rounds [] first now collected log).log =
        Entry.calls log ++ [.resolved now] := by
  have settled : mappedFrom f waits total drain rounds [] first now collected log =
      .ofRounds total drain (.ok ⟨1, [], [], collected.zipIdx.map Prod.swap⟩,
        ⟨now, [], [], [], log ++ []⟩) :=
    congrArg (LimitReport.ofRounds total drain) (Timeline.settle_of_idle rounds rfl _)
  rw [settled]
  constructor
  · exact congrArg Except.ok (results_of_zipIdx 1 [] [] collected)
  · simp only [LimitReport.ofRounds, Timeline.record, List.append_nil, List.append_assoc,
      Entry.calls_append]
    rfl

/-- The next task is alone in flight. -/
theorem mappedFrom_cons :
    mappedFrom f waits total drain rounds (element :: elements) first now collected log =
      .ofRounds total drain (Timeline.settle rounds
        ⟨1, numbered f waits (first + 1) elements, [first], collected.zipIdx.map Prod.swap⟩
        ⟨now, [.start first ⟨waits first, .ofResult (f element).result⟩], [], [],
          log ++ [.notice (.launching first 1)]⟩) :=
  rfl

/-- A call that fails ends it. -/
theorem mappedFrom_of_failure (enough : 3 * (elements.length + 1) ≤ rounds) {error : ε}
    (fails : (f element).result = .error error) :
    let report :=
      mappedFrom f waits total drain rounds (element :: elements) first now collected log
    report.result = .error (.task first error) ∧
      Entry.calls report.log = Entry.calls log ++
        [.started first now, .ended first (now + waits first), .resolved (now + waits first)] := by
  obtain ⟨spare, rfl⟩ : ∃ spare, rounds = spare + 3 := ⟨rounds - 3, by omega⟩
  intro report
  obtain ⟨left, -, settles⟩ := Timeline.settle_alone spare first
    (⟨waits first, .failure error⟩ : Task β ε)
    (numbered f waits (first + 1) elements) (collected.zipIdx.map Prod.swap) now
    (log ++ [.notice (.launching first 1)])
  have settled : report = _ := mappedFrom_cons
  rw [fails, Completion.ofResult, settles] at settled
  rw [settled]
  refine ⟨rfl, ?_⟩
  refine (congrArg Entry.calls (Timeline.drained_of_idle rfl rfl drain)).trans ?_
  simp only [Timeline.record, Entry.calls_append, List.append_assoc]
  rfl

/-- After a call that succeeds it goes on with the next element. -/
theorem mappedFrom_of_value (joined : collected.length = first)
    (enough : 3 * (elements.length + 1) ≤ rounds) {value : β}
    (passes : (f element).result = .ok value) :
    ∃ left after, 3 * elements.length ≤ left ∧
      Entry.calls after =
        Entry.calls log ++ [.started first now, .ended first (now + waits first)] ∧
      mappedFrom f waits total drain rounds (element :: elements) first now collected log =
        mappedFrom f waits total drain left elements (first + 1) (now + waits first)
          (collected ++ [value]) after := by
  obtain ⟨spare, rfl⟩ : ∃ spare, rounds = spare + 3 := ⟨rounds - 3, by omega⟩
  obtain ⟨left, more, settles⟩ := Timeline.settle_alone spare first
    (⟨waits first, .value value⟩ : Task β ε)
    (numbered f waits (first + 1) elements) (collected.zipIdx.map Prod.swap) now
    (log ++ [.notice (.launching first 1)])
  refine ⟨left, log ++ [.notice (.launching first 1)] ++
    [.call (.started first now), .call (.ended first (now + waits first))], by omega, ?_, ?_⟩
  · rw [Entry.calls_append, Entry.calls_append, List.append_assoc]
    rfl
  · have values : (collected ++ [value]).zipIdx.map Prod.swap =
        collected.zipIdx.map Prod.swap ++ [(first, value)] := by
      simp [List.zipIdx_append, joined]
    rw [mappedFrom_cons, passes, Completion.ofResult, settles, mappedFrom, values]
    simp only [Timeline.joinEnded, Pool.join, Pool.leave, List.erase_cons_head]

/-! ## A step of the fold -/

theorem steps_of_stepRecord (index start finish : Nat) (notices : List Notice)
    (more : List (Entry (Fold.Event α (List β)))) (result : Except ε (List β))
    (elapsed : Nat) :
    Fold.Run.steps ⟨result, Fold.stepRecord index element start finish notices ++ more, elapsed⟩ =
      .started element start :: .ended element finish ::
        (Entry.calls more).filterMap Fold.Event.step? := by
  show CallEvent.started element start :: CallEvent.ended element finish ::
    (Entry.calls (notices.map Entry.notice ++ more)).filterMap _ = _
  rw [Entry.calls_append, Entry.calls_map_notice, List.nil_append]

/-- A fold that collects goes on after a step that succeeds, if there is an element left. -/
theorem collect_runFrom {rounds : Nat} (inside : list[first]? = some element) {value : β}
    (passes : (f element).result = .ok value) {later : Fold.Run α (List β) ε}
    (goesOn : (collect f (list.length - 1)).runFrom waits list rounds (first + 1) (first + 1)
      (now + waits first) (collected ++ [value]) = some later) :
    ∃ run, (collect f (list.length - 1)).runFrom waits list (rounds + 1) first first now collected =
        some run ∧
      run.result = later.result ∧ run.elapsed = later.elapsed ∧
      run.steps = .started element now :: .ended element (now + waits first) :: later.steps := by
  have step : (collect f (list.length - 1)).step collected element =
      ⟨(f element).log ++ [], .ok (collected ++ [value])⟩ := Recorded.andThen_of_ok passes
  by_cases left : first < list.length - 1
  · have told : (collect f (list.length - 1)).goesOn first first (collected ++ [value]) = true :=
      decide_eq_true left
    refine ⟨_, (Fold.runFrom_of_goesOn inside step rounds first now told).trans
      (congrArg (Option.map _) goesOn), rfl, rfl, ?_⟩
    rw [Fold.Run.after, List.append_assoc]
    exact steps_of_stepRecord ..
  · have told : (collect f (list.length - 1)).goesOn first first (collected ++ [value]) = false :=
      decide_eq_false left
    have outside : list[first + 1]? = none := List.getElem?_eq_none (by omega)
    rw [Fold.runFrom, outside] at goesOn
    obtain rfl := Option.some.inj goesOn
    exact ⟨_, Fold.runFrom_of_stop inside step rounds first now told, rfl, rfl,
      steps_of_stepRecord ..⟩

/-- A step that fails ends a fold that collects. -/
theorem collect_runFrom_of_failure (rounds : Nat) (inside : list[first]? = some element)
    {error : ε} (fails : (f element).result = .error error) :
    ∃ run, (collect f (list.length - 1)).runFrom waits list (rounds + 1) first first now collected =
        some run ∧
      run.result = .error error ∧ run.elapsed = now + waits first ∧
      run.steps = [.started element now, .ended element (now + waits first)] := by
  refine ⟨_, Fold.runFrom_of_error inside (Recorded.andThen_of_error fails) rounds first now, rfl,
    rfl, ?_⟩
  rw [← List.append_nil (Fold.stepRecord ..)]
  exact steps_of_stepRecord ..

/-! ## Both together -/

/-- The first failure of a function on a list ends both ways of mapping it, and nothing else does.
The number is that of the calls up to there. -/
inductive SameOutcome (f : α → Recorded ε Notice β) (elements : List α) (first : Nat) :
    Except (LimitError ε) (List β) → Except ε (List β) → Nat → Prop
  | values (passed : ∀ element ∈ elements, ∃ value, (f element).result = .ok value)
      (values : List β) :
      SameOutcome f elements first (.ok values) (.ok values) elements.length
  | failure (passed : List α) {element : α} {left : List α}
      (all : ∀ other ∈ passed, ∃ value, (f other).result = .ok value)
      (split : elements = passed ++ element :: left) {error : ε}
      (fails : (f element).result = .error error) :
      SameOutcome f elements first (.error (.task (first + passed.length) error)) (.error error)
        (passed.length + 1)

/-- Calls one after another, each on an element with its index. -/
def callsOn (waits : Nat → Nat) (now : Nat) (elements : List (α × Nat)) :
    List (CallEvent (α × Nat)) :=
  Fold.backToBack now (elements.map fun call => (call, waits call.2))

/-- A bounded run and a fold that both have the elements from the index `first` on still before
them have made the same calls on the first `count` of those. -/
structure Abreast (f : α → Recorded ε Notice β) (waits : Nat → Nat) (elements : List α)
    (first now : Nat) (before : List TaskEvent) (report : LimitReport β ε)
    (run : Fold.Run α (List β) ε) (count : Nat) : Prop where
  limited : Entry.calls report.log =
    before ++ (callsOn waits now ((elements.zipIdx first).take count)).map TaskEvent.ofCall ++
      [.resolved run.elapsed]
  folded : run.steps =
    (callsOn waits now ((elements.zipIdx first).take count)).map (CallEvent.relabel Prod.fst)
  outcome : SameOutcome f elements first report.result run.result count

/-- An element on which the function succeeds comes before those that are left. -/
theorem SameOutcome.cons {report : Except (LimitError ε) (List β)}
    {result : Except ε (List β)} {count : Nat}
    (same : SameOutcome f elements (first + 1) report result count)
    (passes : ∃ value, (f element).result = .ok value) :
    SameOutcome f (element :: elements) first report result (count + 1) := by
  cases same with
  | values passed values =>
      exact .values (List.forall_mem_cons.mpr ⟨passes, passed⟩) values
  | failure passed all split fails =>
      have whole : SameOutcome f (element :: elements) first _ _ _ :=
        .failure (element :: passed) (List.forall_mem_cons.mpr ⟨passes, all⟩)
          (congrArg (element :: ·) split) fails
      have index : first + (element :: passed).length = first + 1 + passed.length := by
        rw [List.length_cons]
        omega
      rwa [index] at whole

theorem Abreast.nil {before : List TaskEvent} {report : LimitReport β ε}
    (record : Entry.calls report.log = before ++ [.resolved now])
    (result : report.result = .ok collected) :
    Abreast f waits [] first now before report ⟨.ok collected, [], now⟩ 0 where
  limited := by
    rw [record]
    simp [callsOn, Fold.backToBack]
  folded := rfl
  outcome := result ▸ .values (fun _ none => by cases none) collected

/-- Both have called the function on an element, with success, and then went on. -/
theorem Abreast.cons {before : List TaskEvent} {report : LimitReport β ε}
    {run later : Fold.Run α (List β) ε} {count : Nat}
    (abreast : Abreast f waits elements (first + 1) (now + waits first)
      (before ++ [.started first now, .ended first (now + waits first)]) report later count)
    (passes : ∃ value, (f element).result = .ok value) (result : run.result = later.result)
    (elapsed : run.elapsed = later.elapsed)
    (steps : run.steps =
      .started element now :: .ended element (now + waits first) :: later.steps) :
    Abreast f waits (element :: elements) first now before report run (count + 1) where
  limited := by
    rw [abreast.limited, elapsed]
    simp [callsOn, Fold.backToBack, TaskEvent.ofCall]
  folded := by
    rw [steps, abreast.folded]
    rfl
  outcome := result ▸ abreast.outcome.cons passes

/-- Where a call fails both end. -/
theorem Abreast.of_failure {before : List TaskEvent} {report : LimitReport β ε}
    {run : Fold.Run α (List β) ε} {error : ε} (fails : (f element).result = .error error)
    (record : Entry.calls report.log = before ++
      [.started first now, .ended first (now + waits first), .resolved (now + waits first)])
    (failed : report.result = .error (.task first error)) (result : run.result = .error error)
    (elapsed : run.elapsed = now + waits first)
    (steps : run.steps = [.started element now, .ended element (now + waits first)]) :
    Abreast f waits (element :: elements) first now before report run 1 where
  limited := by
    rw [record, elapsed]
    simp [callsOn, Fold.backToBack, TaskEvent.ofCall]
  folded := steps
  outcome := by
    rw [failed, result]
    exact .failure [] (by simp) rfl fails

/-- From any element on a bounded run with the limit one and a fold are abreast. -/
theorem abreast_from (here : list.drop first = elements) (joined : collected.length = first)
    (enough : 3 * elements.length ≤ rounds) (log : List (Entry TaskEvent)) :
    ∃ run count, (collect f (list.length - 1)).runFrom waits list elements.length first first now
        collected = some run ∧
      Abreast f waits elements first now (Entry.calls log)
        (mappedFrom f waits total drain rounds elements first now collected log) run count := by
  induction elements generalizing first now collected rounds log with
  | nil =>
      have outside : list[first]? = none := List.getElem?_eq_none (List.drop_eq_nil_iff.mp here)
      obtain ⟨result, record⟩ := mappedFrom_nil
      exact ⟨⟨.ok collected, [], now⟩, 0, by rw [Fold.runFrom, outside], .nil record result⟩
  | cons element elements ih =>
      have inside : list[first]? = some element := by
        rw [← List.head?_drop, here]
        rfl
      have rest : list.drop (first + 1) = elements := by
        rw [← List.tail_drop, here]
        rfl
      cases comes : (f element).result with
      | error error =>
          obtain ⟨run, ran, result, elapsed, steps⟩ :=
            collect_runFrom_of_failure elements.length inside comes
          obtain ⟨failed, record⟩ := mappedFrom_of_failure enough comes
          exact ⟨run, 1, ran, .of_failure comes record failed result elapsed steps⟩
      | ok value =>
          obtain ⟨left, after, more, calls, goesOn⟩ := mappedFrom_of_value joined enough comes
          have values : (collected ++ [value]).length = first + 1 := by simp [joined]
          obtain ⟨later, count, ran, abreast⟩ := ih rest values more after
          obtain ⟨run, whole, result, elapsed, steps⟩ := collect_runFrom inside comes ran
          rw [calls] at abreast
          exact ⟨run, count + 1, whole, goesOn ▸ abreast.cons ⟨value, comes⟩ result elapsed steps⟩

/-- Every call ends. -/
theorem ended_callsOn (waits : Nat → Nat) (now : Nat) (calls : List (α × Nat)) :
    ((callsOn waits now calls).map (CallEvent.relabel Prod.fst)).filterMap CallEvent.ended? =
      calls.map Prod.fst := by
  induction calls generalizing now with
  | nil => rfl
  | cons call rest ih => exact congrArg (call.1 :: ·) (ih (now + waits call.2))

end Sequential

/-- With a limit of one, mapping a function over a list is `flow`. Both make the same calls, on the
elements of the list in order up to the first failure, with the same starts and ends, and take the
same time. One comes to values exactly if the other does, and then to the same. One fails exactly
if the other does, with the same error; the bounded run names the index of the call that failed, and
the calls before it are all that succeeded. -/
theorem map_with_limit_one_is_flow {α β ε : Type} (f : α → Recorded ε Notice β) (waits : Nat → Nat)
    (list : List α) (drain : Nat) :
    let report := mapLimited 1 (fun element => (f element).result) waits list drain
    ∃ run count, flow f waits list = some run ∧
      Entry.calls report.log =
        (callsOn waits 0 (list.zipIdx.take count)).map TaskEvent.ofCall ++
          [.resolved run.elapsed] ∧
      run.steps = (callsOn waits 0 (list.zipIdx.take count)).map (CallEvent.relabel Prod.fst) ∧
      (∀ values, report.result = .ok values ↔ run.result = .ok values) ∧
      (∀ error, (∃ index, report.result = .error (.task index error)) ↔
        run.result = .error error) ∧
      ∀ failure, report.result = .error failure → ∃ passed element left error,
        failure = .task passed.length error ∧ list = passed ++ element :: left ∧
        (∀ other ∈ passed, ∃ value, (f other).result = .ok value) ∧
        (f element).result = .error error ∧
        run.steps.filterMap CallEvent.ended? = passed ++ [element] := by
  intro report
  obtain ⟨run, count, ran, limited, folded, outcome⟩ : ∃ run count,
      flow f waits list = some run ∧ Abreast f waits list 0 0 [] report run count := by
    rw [show report = _ from mapLimited_one f waits list drain]
    exact abreast_from List.drop_zero rfl (Nat.le_refl _) []
  refine ⟨run, count, ran, limited, folded, ?_⟩
  generalize report.result = result, run.result = folds at outcome
  cases outcome with
  | values passed values =>
      refine ⟨fun other => ?_, fun error => ?_, fun _ same => nomatch same⟩
      · simp only [Except.ok.injEq]
      · exact ⟨fun ⟨_, same⟩ => (nomatch same), fun same => nomatch same⟩
  | @failure passed element left all split error fails =>
      refine ⟨fun _ => ?_, fun other => ?_, ?_⟩
      · exact ⟨fun same => (nomatch same), fun same => nomatch same⟩
      · simp only [Except.error.injEq, LimitError.task.injEq, exists_and_right, exists_eq',
          true_and]
      · rintro _ ⟨⟩
        refine ⟨passed, element, left, error, by rw [Nat.zero_add], split, all, fails, ?_⟩
        have prefixes : list.take (passed.length + 1) = passed ++ [element] := by
          rw [split, List.take_length_add_append, List.take_succ_cons, List.take_zero]
        rw [folded, ended_callsOn, List.map_take, List.zipIdx_map_fst, prefixes]

end Waypoint
