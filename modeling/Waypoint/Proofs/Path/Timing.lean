import Waypoint.Proofs.Future.Punctual
import Waypoint.Proofs.Path.Located

/-!
# When and with what an access finishes

The time at which an access ends, and the result, are found by recursion over the stages of its
path, given how long each leaf waits (`CompiledPath.finish`). A leaf waits for its own time. A focus
finishes as what comes after it does. A lift finishes with its last element, or with a failure: with
the earliest one where there are at most thirty elements, and with the one of the lowest index where
there are more.

Of several failures at the same time the one of the lowest index counts, with one exception. An
element of a small lift in which large lifts are nested may be left before it has failed, and then
the failure of another element may be the first one that is seen. It changes the failure that is
reported but not the time (`access_reports_failure_of_later_element`).
-/

namespace Waypoint

namespace Finish

variable {α β γ : Type}

theorem map_id (finish : Finish α) : finish.map id = finish := by
  obtain ⟨time, outcome, rivals, nesting⟩ := finish
  cases outcome <;> rfl

theorem map_map (f : α → β) (g : β → γ) (finish : Finish α) :
    (finish.map f).map g = finish.map (g ∘ f) := by
  obtain ⟨time, outcome, rivals, nesting⟩ := finish
  cases outcome <;> rfl

end Finish

/-- The values of a traversal are put to further use. -/
theorem Future.Finishes.andThen_done {L : Type} {wait : L → Nat} {future : Future L}
    {finish : Finish Doc} (finishes : future.Finishes wait finish) (g : Doc → Doc) :
    (future.andThen fun value => .done (g value)).Finishes wait (finish.map g) := by
  cases finishes with
  | atOnce result =>
      cases result with
      | ok value => exact .atOnce (.ok (g value))
      | error error => exact .atOnce (.error error)
  | call label notices result =>
      cases result with
      | ok value => exact .call label notices (.ok (g value))
      | error error => exact .call label notices (.error error)
  | join rebuild length each =>
      rw [Finish.map_map]
      exact .join (g ∘ rebuild) length each

/-- What an object strategy makes of the value for the member under a key. -/
def ObjectStrategy.rebuild (strategy : ObjectStrategy) (key : String)
    (members : List (String × Doc)) (value : Doc) : Doc :=
  match strategy with
  | .update => .obj (Doc.setMember key value members)
  | _ => value

namespace Strategies

/-- When and with what the rest of an access finishes that reads or updates from a location on,
given the waits of the leaves. -/
def finish (strategies : Strategies) (transform : Doc → Trace Notice Doc) (wait : Location → Nat) :
    List Stage → Location → Doc → Finish Doc
  | [], location, doc => ⟨wait location, (transform doc).result, [], 0⟩
  | .focus key :: rest, location, .obj members =>
    (strategies.finish transform wait rest (location ++ [.key key]) (Doc.member key members)).map
      (strategies.object.rebuild key members)
  | .focus key :: _, _, doc => .atOnce (.error (.notAnObject key doc.kind))
  | .lift _ :: rest, location, .arr items =>
    (Finish.gather (items.mapIdx fun index item =>
      strategies.finish transform wait rest (location ++ [.index index]) item)).map .arr
  | .lift key :: _, _, doc => .atOnce (.error (.notAnArray key doc.kind))

variable {strategies : Strategies} {transform : Doc → Trace Notice Doc} {wait : Location → Nat}

/-- The access finishes in this way. -/
theorem located_finishes (plain : strategies.Plain) (stages : List Stage) (location : Location)
    (doc : Doc) :
    (strategies.located transform stages location doc).Finishes wait
      (strategies.finish transform wait stages location doc) := by
  induction stages generalizing location doc with
  | nil => exact .call location _ _
  | cons stage rest ih =>
      cases stage with
      | focus key =>
          cases doc with
          | obj members =>
              have inner := ih (location ++ [.key key]) (Doc.member key members)
              rcases plain with rfl | rfl
              · rw [finish]
                exact (Finish.map_id _).symm ▸ inner
              · exact inner.andThen_done _
          | null | bool _ | int _ | float _ | str _ | arr _ =>
              rcases plain with rfl | rfl <;> exact .atOnce (.error _)
      | lift key =>
          cases doc with
          | arr items =>
              refine .join Doc.arr (by rw [List.length_mapIdx, List.length_mapIdx])
                fun element child pair => ?_
              obtain ⟨index, here⟩ := List.mem_iff_getElem?.mp pair
              rw [List.getElem?_zip_eq_some, List.getElem?_mapIdx, List.getElem?_mapIdx] at here
              obtain ⟨item, at_index, rfl⟩ := Option.map_eq_some_iff.mp here.1
              rw [at_index] at here
              obtain rfl := Option.some.inj here.2
              exact ih _ _
          | null | bool _ | int _ | float _ | str _ | obj _ => exact .atOnce (.error _)

/-- Only nested large lifts leave open which failure is reported. -/
theorem rivals_finish (stages : List Stage) (location : Location) (doc : Doc)
    (shallow : (strategies.finish transform wait stages location doc).nesting ≤ 1) :
    (strategies.finish transform wait stages location doc).rivals = [] := by
  induction stages generalizing location doc with
  | nil => rfl
  | cons stage rest ih =>
      cases stage with
      | focus key =>
          cases doc with
          | obj members => exact ih _ _ shallow
          | null | bool _ | int _ | float _ | str _ | arr _ => rfl
      | lift key =>
          cases doc with
          | arr items =>
              refine Finish.rivals_gather (fun element member shallow => ?_) shallow
              obtain ⟨index, bound, rfl⟩ := List.mem_mapIdx.mp member
              exact ih _ _ shallow
          | null | bool _ | int _ | float _ | str _ | obj _ => rfl

end Strategies

/-- When and with what an access finishes. -/
def CompiledPath.finish (compiled : CompiledPath) (transform : Doc → Trace Notice Doc)
    (wait : Location → Nat) (root : Doc) : Finish Doc :=
  compiled.strategies.finish transform wait compiled.path.stages [] root

namespace CompiledPath

variable {compiled : CompiledPath} (plain : compiled.strategies.Plain)
  (transform : Doc → Trace Notice Doc) (root : Doc)

include plain

theorem traversal_accessLocated : (compiled.accessLocated transform root).Traversal :=
  have finishes : (compiled.accessLocated transform root).Finishes (fun _ => 0) _ :=
    Strategies.located_finishes plain compiled.path.stages [] root
  finishes.traversal

/-- No leaf is started twice. -/
theorem startOrder_nodup (delays : List Nat) :
    (compiled.startOrder transform root delays).Nodup :=
  Future.starts_nodup (traversal_accessLocated plain transform root)
    (Strategies.labels_located plain _ _ _).1 delays

/-- Only leaves are started. -/
theorem startOrder_focuses (delays : List Nat) :
    ∀ location ∈ compiled.startOrder transform root delays,
      compiled.path.Focuses root location := by
  intro location member
  have inside := Future.mem_starts (traversal_accessLocated plain transform root) member
  obtain ⟨hops, leaf, rfl, reaches⟩ := (Strategies.labels_located plain _ _ _).2 location inside
  exact ⟨leaf, reaches⟩

end CompiledPath

/-- An access that reads or updates ends at the time that the recursion over its stages gives, and
with the result that it gives or, where large lifts are nested in an element of a small one, with
the failure of a rival. Each leaf waits for the time that the order of the starts gives it; no leaf
starts twice, and how long a leaf would wait that does not start does not matter. -/
theorem access_finishes_in_time (path : Path) (strategies : Strategies) (plain : strategies.Plain)
    (transform : Doc → Trace Notice Doc) (root : Doc) (delays : List Nat) (wait : Location → Nat)
    (waits : let compiled : CompiledPath := ⟨path, strategies⟩
      let order := compiled.startOrder transform root delays
      order.map wait = (List.range order.length).map (waitOf delays)) :
    let compiled : CompiledPath := ⟨path, strategies⟩
    let report := (compiled.accessLater transform root).report delays
    let order := compiled.startOrder transform root delays
    let finish := compiled.finish transform wait root
    order.Nodup ∧ (∀ location ∈ order, path.Focuses root location) ∧
      Entry.starts report.log = order.map (fun location => (root.at? location).getD .null) ∧
      report.elapsed = finish.time ∧
      (∃ result, report.result = some result ∧ finish.Admits result) ∧
      (finish.nesting ≤ 1 → report.result = some finish.outcome) := by
  intro compiled report order finish
  -- the access runs as the one whose callbacks are labelled by locations, which all differ
  have relabelled := compiled.report_accessLocated transform root plain delays
  have given (n : Nat) (location : Location) (at_n : order[n]? = some location) :
      wait location = waitOf delays n := by
    obtain ⟨inside, -⟩ := List.getElem?_eq_some_iff.mp at_n
    have same : (order.map wait)[n]? = ((List.range order.length).map (waitOf delays))[n]? :=
      congrArg (·[n]?) waits
    rw [List.getElem?_map, at_n, List.getElem?_map, List.getElem?_range inside] at same
    exact Option.some.inj same
  obtain ⟨elapsed, result, ended, admits⟩ :=
    Future.report_finishes (Strategies.located_finishes plain path.stages [] root) delays given
  have ended' : report.result = some result :=
    (congrArg Report.result relabelled).trans ended
  refine ⟨CompiledPath.startOrder_nodup plain transform root delays,
    CompiledPath.startOrder_focuses plain transform root delays,
    compiled.starts_accessLater transform root plain delays,
    (congrArg Report.elapsed relabelled).trans elapsed, ⟨result, ended', admits⟩,
    fun shallow => ?_⟩
  rw [ended']
  exact congrArg some (admits.eq_outcome (Strategies.rivals_finish _ _ _ shallow))

/-- The second and the third of thirty-one rows fail. The second one counts, though it fails later,
and the access ends when the first one has its value. -/
theorem access_to_long_array_finishes_in_time :
    let path := Path.parse "rows[].n"
    let refusals : List Transform :=
      [.failIf (.equals (.int (-1))) "first", .failIf .negative "second"]
    let transform := (Transform.seq refusals).run
    let numbers : List Int := [1, -1, -2] ++ List.replicate 28 2
    let root : Doc := .obj [("rows", .arr (numbers.map fun number => .obj [("n", .int number)]))]
    let delays := [7, 3, 1]
    let compiled : CompiledPath := ⟨path, .update⟩
    let order := compiled.startOrder transform root delays
    let wait (location : Location) := waitOf delays (order.idxOf location)
    let report := (compiled.accessLater transform root).report delays
    Strategies.update.Plain ∧ order.map wait = (List.range order.length).map (waitOf delays) ∧
      report.elapsed = 7 ∧ report.result = some (.error (.transform "first")) := by
  intro path refusals transform numbers root delays compiled order wait report
  have waits : order.map wait = (List.range order.length).map (waitOf delays) := by decide +kernel
  obtain ⟨-, -, -, elapsed, -, outcome⟩ :=
    access_finishes_in_time path .update (.inr rfl) transform root delays wait waits
  refine ⟨.inr rfl, waits, elapsed.trans ?_, (outcome ?_).trans ?_⟩
  · decide +kernel
  · decide +kernel
  · decide +kernel

/-- Two leaves fail at the same time. The first one lies in large lifts within each other, and those
have not been asked for all that they contain when the second one is seen to fail. -/
theorem access_reports_failure_of_later_element :
    let compiled : CompiledPath := ⟨Path.parse "a[].b[].c[].d[].e[]", .read⟩
    let refusals : List Transform :=
      [.failIf (.equals (.int (-1))) "first", .failIf .negative "second"]
    let transform := (Transform.seq refusals).run
    let delays := [1, 1, 5, 6, 5, 5, 6, 5]
    let under (key : String) (items : List Doc) : Doc := .obj [(key, .arr items)]
    let leaves (numbers : List Int) := under "e" (numbers.map Doc.int)
    let many (number : Int) := under "d" (List.replicate 30 (leaves []) ++ [leaves [number]])
    let busy (one two : Int) :=
      under "c" (List.replicate 30 (under "d" []) ++ [under "d" [leaves [one, two]]])
    let deep := under "c" ([many 1, many 2, under "d" [leaves [-1]]] ++
      List.replicate 28 (under "d" []))
    let rows := [deep, busy 3 4, busy 5 6] ++ List.replicate 28 (under "c" [])
    let root := under "a" [under "b" rows, under "b" [under "c" [under "d" [leaves [-2]]]]]
    let order := compiled.startOrder transform root delays
    let wait (location : Location) := waitOf delays (order.idxOf location)
    let report := (compiled.accessLater transform root).report delays
    let finish := compiled.finish transform wait root
    order.map wait = (List.range order.length).map (waitOf delays) ∧
      report.elapsed = 5 ∧ finish.time = 5 ∧
      finish.outcome = .error (.transform "first") ∧
      report.result = some (.error (.transform "second")) := by
  decide +kernel

end Waypoint
