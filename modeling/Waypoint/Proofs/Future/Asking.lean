import Waypoint.Future.Poll
import Waypoint.Proofs.Future.Ready

/-!
# Asking the children of a join

One visit of a running future keeps all that was said so far (`Running.Visited`). So does asking the
children of a join in whichever way, as long as every visit does: either the join may end with the
failure that is reported, or its children are taken further, none is forgotten, and unless the join
is restless all of them are quiet (`Running.Inquired`). A join that stops early is restless, and
then something in it has taken a step or has lost a place in a queue.
-/

namespace Waypoint

variable {L : Type}

namespace Running

/-! ## Visits -/

/-- What a visit leaves behind. -/
structure Visited (running : Running L) (world : World L) (visit : Visit L) : Prop where
  after : world.Later visit.world
  refines : Refines running visit.running
  ready : Ready visit.world visit.running
  quiet : visit.restless = false → Quiet visit.world visit.running
  falls : Backlog.Falls visit.restless (running.backlog world) (visit.running.backlog visit.world)

/-- Asking is sound for all that has no more than some steps left. -/
def Sound (ask : Running L → World L → Visit L) (depth : Nat) : Prop :=
  ∀ running world, Ready world running → running.size world.now ≤ depth →
    Visited running world (ask running world)

theorem Visited.of_finished (result : Except PathError Doc) (world : World L) :
    Visited (finished result) world ⟨finished result, world, false⟩ where
  after := .refl world
  refines := .refl _
  ready := .finished result
  quiet := fun _ => .finished result
  falls := .refl _

/-! ## Inquiries -/

/-- The children of a join between two rounds. A strict join has none with a failure that ends
it. -/
structure Standing (strict : Bool) (world : World L) (agenda : Agenda)
    (children : List (Running L)) : Prop where
  ready : ∀ child ∈ children, Ready world child
  attended : Attended world agenda children
  clear : strict = true → agenda.Clear children

theorem Standing.of_fresh (strict : Bool) (world : World L) (children : List (Future L)) :
    Standing strict world (.ofCount children.length) (children.map fresh) where
  ready := by
    intro child member
    obtain ⟨future, _, rfl⟩ := List.mem_map.mp member
    exact .fresh future
  attended := .of_fresh world children
  clear := fun _ => clear_of_fresh _ children

/-- The children of a join have been taken further. -/
structure Kept (strict busy : Bool) (world : World L) (agenda : Agenda)
    (children : List (Running L)) (inquiry : Inquiry L) : Prop where
  refines : RefinesAll children inquiry.children
  standing : Standing strict inquiry.world inquiry.agenda inquiry.children
  quiet : inquiry.restless = false → ∀ child ∈ inquiry.children, Quiet inquiry.world child
  falls : Backlog.Falls busy (backlogAll children agenda world)
    (backlogAll inquiry.children inquiry.agenda inquiry.world)

/-- What an inquiry leaves behind. -/
structure Inquired (strict busy : Bool) (world : World L) (agenda : Agenda)
    (children : List (Running L)) (inquiry : Inquiry L) : Prop where
  after : world.Later inquiry.world
  failed : ∀ error, inquiry.failure = some error → strict = true ∧ MayFail children error
  kept : inquiry.failure = none → Kept strict busy world agenda children inquiry

variable {strict busy : Bool} {world world' : World L} {agenda agenda' : Agenda}
  {children children' : List (Running L)} {inquiry : Inquiry L}

namespace Inquired

theorem of_standing (standing : Standing strict world agenda children) (restless : Bool)
    (quiet : restless = false → ∀ child ∈ children, Quiet world child) :
    Inquired strict false world agenda children ⟨children, agenda, none, world, restless⟩ where
  after := .refl world
  failed := fun _ failure => nomatch failure
  kept := fun _ => ⟨.refl children, standing, quiet, .refl _⟩

/-- One step first; it counts whatever is restless afterwards. -/
theorem of_step (after : world.Later world') (refines : RefinesAll children children')
    (falls : Backlog.Falls true (backlogAll children agenda world)
      (backlogAll children' agenda' world'))
    (rest : Inquired strict busy world' agenda' children' inquiry) (busy' : Bool) :
    Inquired strict busy' world agenda children inquiry where
  after := after.trans rest.after
  failed := fun error failure =>
    ⟨(rest.failed error failure).1, refines.mayFail (rest.failed error failure).2⟩
  kept := fun passes =>
    have kept := rest.kept passes
    ⟨refines.trans kept.refines, kept.standing, kept.quiet,
      (falls.trans kept.falls).of_busy busy'⟩

theorem afterwards (inquired : Inquired strict busy world agenda children inquiry)
    (restless : Bool) : Inquired strict busy world agenda children (inquiry.after restless) where
  after := inquired.after
  failed := inquired.failed
  kept := fun passes =>
    have kept := inquired.kept passes
    ⟨kept.refines, kept.standing, fun calm => kept.quiet ((Bool.or_eq_false_iff.mp calm).2),
      kept.falls⟩

/-- The join ends with the failure of a child. -/
theorem of_failure {error : PathError} (after : world.Later inquiry.world)
    (refines : RefinesAll children children') (member : finished (.error error) ∈ children')
    (is_strict : strict = true) (failure : inquiry.failure = some error) :
    Inquired strict busy world agenda children inquiry where
  after := after
  failed := by
    intro other given
    obtain rfl : error = other := Option.some.inj (failure.symm.trans given)
    exact ⟨is_strict, refines.mayFail (.of_mem member)⟩
  kept := fun passes => nomatch failure.symm.trans passes

end Inquired

/-! ## Asking all children -/

theorem MayFail.tail {error : PathError} (may : MayFail children error) (child : Running L) :
    MayFail (child :: children) error where
  expected := by
    rw [expectedAll, may.expected]
    cases child.expected <;> rfl
  failure := List.mem_append_right _ may.failure

/-- The first child is taken further, then those after it. -/
theorem Inquired.cons {child : Running L} {visit : Visit L} {rest : List (Running L)}
    (visited : Visited child world visit)
    (passes : strict = true → ∀ error, visit.running ≠ finished (.error error))
    (inquired : Inquired strict busy visit.world .all rest inquiry) (all : inquiry.agenda = .all) :
    Inquired strict (visit.restless || busy) world .all (child :: rest)
      ((inquiry.behind visit.running).after visit.restless) where
  after := visited.after.trans inquired.after
  failed := fun error failure =>
    have first : RefinesAll (child :: rest) (visit.running :: rest) :=
      List.Forall₂.cons visited.refines (RefinesAll.refl rest)
    ⟨(inquired.failed error failure).1,
      first.mayFail ((inquired.failed error failure).2.tail visit.running)⟩
  kept := by
    intro none
    obtain ⟨refines, ⟨ready, attended, clear⟩, quiet, falls⟩ := inquired.kept none
    refine ⟨.cons visited.refines refines, ⟨?_, ?_, ?_⟩, ?_, ?_⟩
    · intro other member
      rcases List.mem_cons.mp member with rfl | later
      · exact visited.ready.later inquired.after.toLasts
      · exact ready other later
    · show Attended inquiry.world inquiry.agenda (visit.running :: inquiry.children)
      rw [all]
      exact ⟨trivial, fun _ _ _ => .inl trivial⟩
    · intro is_strict
      show inquiry.agenda.Clear (visit.running :: inquiry.children)
      rw [all]
      have clear := clear is_strict
      rw [all] at clear
      intro error member
      rcases List.mem_cons.mp member with same | later
      · exact passes is_strict error same.symm
      · exact clear error later
    · intro calm other member
      obtain ⟨own, others⟩ := Bool.or_eq_false_iff.mp calm
      rcases List.mem_cons.mp member with rfl | later
      · exact (visited.quiet own).later inquired.after.toLasts
      · exact quiet others other later
    · have at_zero : (child :: rest)[0]? = some child := rfl
      have first : Backlog.Falls visit.restless (backlogAll (child :: rest) .all world)
          (backlogAll (visit.running :: rest) .all visit.world) :=
        visited.falls.set at_zero visited.after.now (Nat.le_refl _)
      exact first.trans (falls.tail inquired.after.now visit.running)

theorem askAll_agenda (ask : Running L → World L → Visit L) (strict : Bool)
    (children : List (Running L)) (world : World L) :
    (askAll ask strict children world).agenda = .all := by
  fun_induction askAll ask strict children world with
  | case1 world => rfl
  | case2 world result rest ih => exact ih
  | case3 => rfl
  | case4 => assumption

variable {ask : Running L → World L → Visit L} {depth : Nat}

theorem Standing.tail {child : Running L} {rest : List (Running L)}
    (standing : Standing strict world .all (child :: rest)) : Standing strict world .all rest where
  ready := fun other member => standing.ready other (List.mem_cons_of_mem _ member)
  attended := ⟨trivial, fun _ _ _ => .inl trivial⟩
  clear := fun is_strict error member =>
    standing.clear is_strict error (List.mem_cons_of_mem _ member)

theorem Standing.later (standing : Standing strict world agenda children)
    (after : world.Lasts world') : Standing strict world' agenda children where
  ready := fun child member => (standing.ready child member).later after
  attended := standing.attended.later after
  clear := standing.clear

theorem askAll_inquired (sound : Sound ask depth) (children : List (Running L)) (world : World L)
    (standing : Standing strict world .all children) (bound : sizes world.now children ≤ depth) :
    Inquired strict (askAll ask strict children world).restless world .all children
      (askAll ask strict children world) := by
  fun_induction askAll ask strict children world with
  | case1 world => exact .of_standing standing false fun _ child member => nomatch member
  | case2 world result rest ih =>
      have rest_bound : sizes rest.now result ≤ depth := by
        rw [sizes] at bound
        omega
      exact (ih standing.tail rest_bound).cons (.of_finished world rest)
        (fun is_strict error same =>
          standing.clear is_strict error (same ▸ List.mem_cons_self))
        (askAll_agenda ask strict result rest)
  | case3 child rest world unfinished visit error ends is_strict =>
      rw [sizes] at bound
      have visited : Visited child world visit :=
        sound child world (standing.ready child List.mem_cons_self) (by omega)
      have first : RefinesAll (child :: rest) (visit.running :: rest) :=
        List.Forall₂.cons visited.refines (RefinesAll.refl rest)
      exact .of_failure visited.after first (ends ▸ List.mem_cons_self) is_strict rfl
  | case4 child rest world unfinished visit passes ih =>
      rw [sizes] at bound
      have visited : Visited child world visit :=
        sound child world (standing.ready child List.mem_cons_self) (by omega)
      have rest_bound : sizes visit.world.now rest ≤ depth := by
        rw [visited.after.now]
        omega
      have inquired := ih (standing.tail.later visited.after.toLasts) rest_bound
      exact .cons visited (fun is_strict error => passes error is_strict) inquired
        (askAll_agenda ask strict rest visit.world)

/-! ## Asking the children in a queue -/

section Queue

variable {index : Nat} {queue : List Nat} {child child' : Running L}

/-- A failure that ends the join can only come from a child that has finished. -/
theorem nextFailure_set (none : nextFailure children = none) (index : Nat)
    (unfinished : child'.isFinished = false) :
    nextFailure (children.set index child') = .none := by
  induction children generalizing index with
  | nil => exact none
  | cons first rest ih =>
      cases index with
      | zero =>
          cases child' with
          | finished result => cases unfinished
          | fresh _ | waiting _ _ | joining _ _ _ => rfl
      | succ index =>
          rw [List.set_cons_succ]
          match first with
          | .finished (.ok value) => exact ih none index
          | .finished (.error error) => cases none
          | .fresh _ | .waiting _ _ | .joining _ _ _ => rfl

theorem getElem?_set_of_at (at_index : children[index]? = some child) (other : Nat) :
    (children.set index child')[other]? =
      if other = index then some child' else children[other]? := by
  obtain ⟨inside, -⟩ := List.getElem?_eq_some_iff.mp at_index
  rw [List.getElem?_set]
  by_cases same : index = other
  · subst same
    simp [inside]
  · rw [if_neg same, if_neg (Ne.symm same)]

/-- The child at the front of the queue has been asked. It leaves the queue where it is quiet. -/
theorem Attended.pop (attended : Attended world (.queued (index :: queue)) children)
    (at_index : children[index]? = some child) (after : world.Lasts world')
    (quiet : Quiet world' child') :
    Attended world' (.queued queue) (children.set index child') where
  fits := by
    obtain ⟨nodup, valid⟩ := attended.fits
    obtain ⟨absent, nodup⟩ := List.nodup_cons.mp nodup
    refine ⟨nodup, fun other member => ?_⟩
    obtain ⟨sibling, at_other, open_sibling⟩ := valid other (List.mem_cons_of_mem _ member)
    refine ⟨sibling, ?_, open_sibling⟩
    have differs : other ≠ index := fun same => absent (same ▸ member)
    rw [getElem?_set_of_at at_index, if_neg differs]
    exact at_other
  quiet := by
    intro other sibling at_other
    rw [getElem?_set_of_at at_index] at at_other
    by_cases same : other = index
    · rw [if_pos same] at at_other
      obtain rfl := Option.some.inj at_other
      exact .inr quiet
    · rw [if_neg same] at at_other
      rcases attended.quiet other sibling at_other with asks | before
      · rcases List.mem_cons.mp asks with front | later
        · exact absurd front same
        · exact .inl later
      · exact .inr (before.later after)

/-- It goes to the end of the queue where it is not. -/
theorem Attended.requeue (attended : Attended world (.queued (index :: queue)) children)
    (at_index : children[index]? = some child) (after : world.Lasts world')
    (unfinished : child'.isFinished = false) :
    Attended world' (.queued (queue ++ [index])) (children.set index child') where
  fits := by
    obtain ⟨nodup, valid⟩ := attended.fits
    refine ⟨(List.perm_append_singleton index queue).nodup_iff.mpr nodup, fun other member => ?_⟩
    rw [getElem?_set_of_at at_index]
    by_cases same : other = index
    · exact ⟨child', by rw [if_pos same], unfinished⟩
    · rw [if_neg same]
      exact valid other ((List.perm_append_singleton index queue).mem_iff.mp member)
  quiet := by
    intro other sibling at_other
    rw [getElem?_set_of_at at_index] at at_other
    by_cases same : other = index
    · left
      exact List.mem_append_right _ (List.mem_singleton.mpr same)
    · rw [if_neg same] at at_other
      refine (attended.quiet other sibling at_other).imp (fun asks => ?_) (Quiet.later · after)
      exact (List.perm_append_singleton index queue).mem_iff.mpr asks

theorem ready_set (ready : ∀ child ∈ children, Ready world child) (after : world.Lasts world')
    (ready' : Ready world' child') (index : Nat) :
    ∀ child ∈ children.set index child', Ready world' child := by
  intro other member
  rcases List.mem_or_eq_of_mem_set member with before | rfl
  · exact (ready other before).later after
  · exact ready'

/-- A join with a queue that still asks: a bound on the steps and on the unfinished children. -/
structure Queueing (strict : Bool) (depth unfinished : Nat) (world : World L) (queue : List Nat)
    (children : List (Running L)) : Prop where
  standing : Standing strict world (.queued queue) children
  bound : sizes world.now children ≤ depth
  few : (children.countP fun child => !child.isFinished) ≤ unfinished

namespace Queueing

variable {unfinished : Nat} {visit : Visit L}

theorem unfinished_front
    (queueing : Queueing strict depth unfinished world (index :: queue) children)
    (at_index : children[index]? = some child) : child.isFinished = false := by
  obtain ⟨front, at_front, open_front⟩ :=
    queueing.standing.attended.fits.2 index List.mem_cons_self
  obtain rfl := Option.some.inj (at_index.symm.trans at_front)
  exact open_front

theorem visited (queueing : Queueing strict depth unfinished world (index :: queue) children)
    (at_index : children[index]? = some child) (sound : Sound ask depth) :
    Visited child world (ask child world) := by
  have member := List.mem_of_getElem? at_index
  exact sound child world (queueing.standing.ready child member)
    (Nat.le_trans (size_le_sizes member) queueing.bound)

theorem bound_set (queueing : Queueing strict depth unfinished world (index :: queue) children)
    (at_index : children[index]? = some child) (visited : Visited child world visit) :
    sizes visit.world.now (children.set index visit.running) ≤ depth := by
  have steps := sizes_set world.now visit.running at_index
  have fewer := visited.falls.steps_le
  have bound := queueing.bound
  simp only [backlog, visited.after.now] at fewer
  rw [visited.after.now]
  omega

theorem countP_set (queueing : Queueing strict depth unfinished world (index :: queue) children)
    (at_index : children[index]? = some child) (child' : Running L) :
    ((children.set index child').countP fun child => !child.isFinished) +
      (if child'.isFinished then 1 else 0) = children.countP fun child => !child.isFinished := by
  obtain ⟨inside, same⟩ := List.getElem?_eq_some_iff.mp at_index
  have positive : 0 < children.countP fun child => !child.isFinished := by
    refine List.countP_pos_iff.mpr ⟨child, List.mem_of_getElem? at_index, ?_⟩
    rw [queueing.unfinished_front at_index]
    rfl
  rw [List.countP_set inside, same, queueing.unfinished_front at_index]
  cases child'.isFinished with
  | true => simp only [Bool.not_false, Bool.not_true, if_true, Bool.false_eq_true, if_false]; omega
  | false => simp only [Bool.not_false, if_true, Bool.false_eq_true, if_false]; omega

theorem finish
    (queueing : Queueing strict depth (unfinished + 1) world (index :: queue) children)
    (at_index : children[index]? = some child) (visited : Visited child world visit)
    (finished : visit.running.isFinished = true)
    (passes : strict = true → nextFailure (children.set index visit.running) = none) :
    Queueing strict depth unfinished visit.world queue (children.set index visit.running) where
  standing :=
    { ready := ready_set queueing.standing.ready visited.after.toLasts visited.ready index
      attended := queueing.standing.attended.pop at_index visited.after.toLasts
        (.of_isFinished _ finished)
      clear := passes }
  bound := queueing.bound_set at_index visited
  few := by
    have fewer := queueing.countP_set at_index visit.running
    have few := queueing.few
    rw [if_pos finished] at fewer
    omega

theorem few_set (queueing : Queueing strict depth unfinished world (index :: queue) children)
    (at_index : children[index]? = some child) (child' : Running L) :
    ((children.set index child').countP fun child => !child.isFinished) ≤ unfinished := by
  have fewer := queueing.countP_set at_index child'
  have few := queueing.few
  omega

/-- The child is quiet and leaves the queue. -/
theorem pop (queueing : Queueing strict depth unfinished world (index :: queue) children)
    (at_index : children[index]? = some child) (visited : Visited child world visit)
    (open_child : visit.running.isFinished = false) (calm : visit.restless = false) :
    Queueing strict depth unfinished visit.world queue (children.set index visit.running) where
  standing :=
    { ready := ready_set queueing.standing.ready visited.after.toLasts visited.ready index
      attended := queueing.standing.attended.pop at_index visited.after.toLasts
        (visited.quiet calm)
      clear := fun is_strict =>
        nextFailure_set (queueing.standing.clear is_strict) index open_child }
  bound := queueing.bound_set at_index visited
  few := queueing.few_set at_index visit.running

/-- The child is restless and goes to the end of the queue. -/
theorem requeue (queueing : Queueing strict depth unfinished world (index :: queue) children)
    (at_index : children[index]? = some child) (visited : Visited child world visit)
    (open_child : visit.running.isFinished = false) :
    Queueing strict depth unfinished visit.world (queue ++ [index])
      (children.set index visit.running) where
  standing :=
    { ready := ready_set queueing.standing.ready visited.after.toLasts visited.ready index
      attended := queueing.standing.attended.requeue at_index visited.after.toLasts open_child
      clear := fun is_strict =>
        nextFailure_set (queueing.standing.clear is_strict) index open_child }
  bound := queueing.bound_set at_index visited
  few := queueing.few_set at_index visit.running

end Queueing

/-- A child that leaves the queue is a step for the join. -/
theorem Inquired.of_pop {visit : Visit L} (at_index : children[index]? = some child)
    (visited : Visited child world visit)
    (rest : Inquired strict busy visit.world (.queued queue) (children.set index visit.running)
      inquiry) (busy' : Bool) :
    Inquired strict busy' world (.queued (index :: queue)) children inquiry :=
  .of_step visited.after (.set at_index visited.refines)
    (visited.falls.set_shorter at_index visited.after.now (Nat.lt_succ_self _)) rest busy'

/-- So is one that stays restless. -/
theorem Inquired.of_requeue {visit : Visit L} (at_index : children[index]? = some child)
    (visited : Visited child world visit) (restless : visit.restless = true)
    (rest : Inquired strict busy visit.world (.queued (queue ++ [index]))
      (children.set index visit.running) inquiry) (busy' : Bool) :
    Inquired strict busy' world (.queued (index :: queue)) children inquiry := by
  have same_length : (Agenda.queued (queue ++ [index])).length ≤
      (Agenda.queued (index :: queue)).length := by
    simp [Agenda.length]
  have falls := visited.falls.set at_index visited.after.now same_length
  rw [restless] at falls
  exact .of_step visited.after (.set at_index visited.refines) falls rest busy'

end Queue

/-- Asking the children in a queue up to the next one that finishes. It stops without having asked
anybody only if it may not ask at all. -/
theorem askUntil_inquired (sound : Sound ask depth)
    (onward : List (Running L) → List Nat → World L → Inquiry L) (unfinished : Nat)
    (goesOn : ∀ children queue world, Queueing strict depth unfinished world queue children →
      Inquired strict (onward children queue world).restless world (.queued queue) children
        (onward children queue world))
    (asks : Nat) (warned : Bool) (children : List (Running L)) (queue : List Nat)
    (world : World L) (queueing : Queueing strict depth (unfinished + 1) world queue children) :
    Inquired strict
      (asks != 0 && (askUntil ask strict onward asks warned children queue world).restless) world
      (.queued queue) children (askUntil ask strict onward asks warned children queue world) := by
  fun_induction askUntil ask strict onward asks warned children queue world with
  | case1 warned children queue world =>
      -- nobody is asked, so nothing is said of what is restless
      exact .of_standing queueing.standing true fun calm => nomatch calm
  | case2 asks warned children world =>
      refine .of_standing queueing.standing false fun _ child member => ?_
      obtain ⟨index, at_index⟩ := List.getElem?_of_mem member
      rcases queueing.standing.attended.quiet index child at_index with asks | quiet
      · cases asks
      · exact quiet
  | case3 asks warned children index queue world missing ih =>
      -- a queue holds positions of children only
      obtain ⟨child, at_index, _⟩ := queueing.standing.attended.fits.2 index List.mem_cons_self
      rw [missing] at at_index
      cases at_index
  | case4 asks warned children index queue world child at_index visit children' finished error next
      is_strict =>
      have visited := queueing.visited at_index sound
      exact .of_failure visited.after (.set at_index visited.refines) (mem_of_nextFailure next)
        is_strict rfl
  | case5 asks warned children index queue world child at_index visit children' finished passes =>
      have visited := queueing.visited at_index sound
      have none (is_strict : strict = true) :
          nextFailure (children.set index visit.running) = .none := by
        cases next : nextFailure (children.set index visit.running) with
        | none => rfl
        | some error => exact absurd next (passes error is_strict)
      -- one unfinished child less: this is what the count in `goesOn` is for
      have rest := goesOn _ _ _ (queueing.finish at_index visited finished none)
      exact .of_pop at_index visited (rest.afterwards _) _
  | case6 asks children index queue world child at_index visit children' unfinished restless =>
      have visited := queueing.visited at_index sound
      have rest := queueing.requeue at_index visited (Bool.eq_false_iff.mpr unfinished)
      exact .of_requeue at_index visited restless
        (.of_standing rest.standing true fun calm => nomatch calm) _
  | case7 asks warned children index queue world child at_index visit children' unfinished restless
      first ih =>
      have visited := queueing.visited at_index sound
      have rest := ih (queueing.requeue at_index visited (Bool.eq_false_iff.mpr unfinished))
      exact .of_requeue at_index visited restless (rest.afterwards true) _
  | case8 asks warned children index queue world child at_index visit children' unfinished calm
      ih =>
      have visited := queueing.visited at_index sound
      have rest := ih (queueing.pop at_index visited (Bool.eq_false_iff.mpr unfinished)
        (Bool.eq_false_iff.mpr calm))
      exact .of_pop at_index visited rest _

theorem askQueued_inquired (sound : Sound ask depth) (unfinished : Nat)
    (children : List (Running L)) (queue : List Nat) (world : World L)
    (queueing : Queueing strict depth unfinished world queue children) :
    Inquired strict (askQueued ask strict unfinished children queue world).restless world
      (.queued queue) children (askQueued ask strict unfinished children queue world) := by
  induction unfinished generalizing children queue world with
  | zero =>
      -- the count bounds the unfinished children, so all have finished
      refine .of_standing queueing.standing false fun _ child member => ?_
      have none := List.countP_eq_zero.mp (Nat.le_zero.mp queueing.few) child member
      exact .of_isFinished world (by simpa using none)
  | succ unfinished ih =>
      exact askUntil_inquired sound (askQueued ask strict unfinished) unfinished ih
        (unfinished + 1) false children queue world queueing

/-- Asking the children of a join. -/
theorem inquire_inquired (sound : Sound ask depth)
    (standing : Standing strict world agenda children) (bound : sizes world.now children ≤ depth) :
    Inquired strict (inquire ask strict children agenda world).restless world agenda children
      (inquire ask strict children agenda world) := by
  cases agenda with
  | all => exact askAll_inquired sound children world standing bound
  | queued queue =>
      exact askQueued_inquired sound _ children queue world ⟨standing, bound, Nat.le_refl _⟩

end Running

end Waypoint
