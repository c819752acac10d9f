import Waypoint.Proofs.Future.Calls

/-!
# Quiet and ready futures

A running future is quiet where nothing in it can be taken further before the next round
(`Running.Quiet`). The invariant of a run is that no join forgets a child: what is not on its agenda
is quiet (`Running.Ready`). Both last as long as the round does, and where the callbacks that can go
on in another round call for their joins, what was ready is ready again (`Running.Ready.arouse`).
-/

namespace Waypoint

variable {L : Type}

namespace PendingCall

/-- A wait is put on the clock before it is over. -/
def Timely (world : World L) (call : PendingCall L) : Prop :=
  call.turn = none → world.now < call.deadline

/-- A callback was put off, or waits on the clock for a later time. -/
def Settled (world : World L) (call : PendingCall L) : Prop :=
  call.Timely world ∧
    (call.number ∈ world.putOff ∨ call.turn ≠ none ∧ world.now < call.deadline)

theorem Settled.of_turn {world : World L} {call : PendingCall L} (turn : call.turn ≠ none)
    (before : world.now < call.deadline) : call.Settled world :=
  ⟨fun off => absurd off turn, .inr ⟨turn, before⟩⟩

theorem Timely.later {world later : World L} {call : PendingCall L} (timely : call.Timely world)
    (after : world.Lasts later) : call.Timely later := by
  intro off
  rw [after.now]
  exact timely off

theorem Settled.later {world later : World L} {call : PendingCall L} (settled : call.Settled world)
    (after : world.Lasts later) : call.Settled later := by
  obtain ⟨timely, postponed | ⟨turn, before⟩⟩ := settled
  · exact ⟨timely.later after, .inl (after.putOff postponed)⟩
  · refine ⟨timely.later after, .inr ⟨turn, ?_⟩⟩
    rw [after.now]
    exact before

end PendingCall

/-! ## Agendas -/

namespace Agenda

/-- Whether the child at a position is on the agenda. -/
def Asks (agenda : Agenda) (index : Nat) : Prop :=
  match agenda with
  | all => True
  | queued queue => index ∈ queue

/-- A queue holds unfinished children, each of them once. -/
def Fits (agenda : Agenda) (children : List (Running L)) : Prop :=
  match agenda with
  | all => True
  | queued queue =>
    queue.Nodup ∧ ∀ index ∈ queue, ∃ child, children[index]? = some child ∧
      child.isFinished = false

/-- No child has a failure that ends the join. -/
def Clear (agenda : Agenda) (children : List (Running L)) : Prop :=
  match agenda with
  | all => ∀ error, .finished (.error error) ∉ children
  | queued _ => Running.nextFailure children = none

def unfinished (children : List (Running L)) : List Nat :=
  (children.zipIdx.filter fun entry => !entry.1.isFinished).map Prod.snd

theorem mem_unfinished {children : List (Running L)} {index : Nat} {child : Running L}
    (at_index : children[index]? = some child) (open_child : child.isFinished = false) :
    index ∈ unfinished children := by
  refine List.mem_map.mpr ⟨(child, index), List.mem_filter.mpr ⟨?_, ?_⟩, rfl⟩
  · exact List.mem_zipIdx_iff_getElem?.mpr at_index
  · rw [open_child]
    rfl

theorem length_unfinished (children : List (Running L)) :
    (unfinished children).length = children.countP fun child => !child.isFinished := by
  rw [unfinished, List.length_map, ← List.countP_eq_length_filter]
  have whole : children.zipIdx.map Prod.fst = children := List.zipIdx_map_fst 0 children
  rw [← whole, List.countP_map, whole]
  rfl

/-- There are no more places in a queue than unfinished children. -/
theorem Fits.length_le {agenda : Agenda} {children : List (Running L)}
    (fits : agenda.Fits children) :
    agenda.length ≤ children.countP fun child => !child.isFinished := by
  cases agenda with
  | all => exact Nat.zero_le _
  | queued queue =>
      obtain ⟨nodup, valid⟩ := fits
      rw [← length_unfinished]
      refine (nodup.subperm fun index member => ?_).length_le
      obtain ⟨child, at_index, open_child⟩ := valid index member
      exact mem_unfinished at_index open_child

/-- A join that neither fails nor has all values is left with an unfinished child. -/
theorem Clear.exists_unfinished {agenda : Agenda} {children : List (Running L)}
    (clear : agenda.Clear children) (missing : Running.values? children = none) :
    ∃ child ∈ children, child.isFinished = false := by
  have next : Running.nextFailure children = none := by
    cases agenda with
    | all =>
        cases fails : Running.nextFailure children with
        | none => rfl
        | some error => exact absurd (Running.mem_of_nextFailure fails) (clear error)
    | queued queue => exact clear
  clear clear
  -- the values at the front are passed over; a failure after them would be the next one
  induction children with
  | nil => cases missing
  | cons child rest ih =>
      match child with
      | .finished (.ok value) =>
        obtain ⟨other, member, open_child⟩ := ih (Option.map_eq_none_iff.mp missing) next
        exact ⟨other, List.mem_cons_of_mem _ member, open_child⟩
      | .finished (.error error) => cases next
      | .fresh _ | .waiting _ _ | .joining _ _ _ => exact ⟨_, List.mem_cons_self, rfl⟩

end Agenda

namespace Running

variable {world world' : World L} {running : Running L} {children : List (Running L)}
  {agenda : Agenda}

/-! ## Quiet futures -/

/-- Asking again in the same round would be in vain. -/
inductive Quiet (world : World L) : Running L → Prop
  | finished (result : Except PathError Doc) : Quiet world (.finished result)
  | waiting {call : PendingCall L} {next : Future L} (settled : call.Settled world) :
      Quiet world (.waiting call next)
  | joining {children : List (Running L)} {agenda : Agenda} {next : List Doc → Future L}
      (quiet : ∀ child ∈ children, Quiet world child) : Quiet world (.joining children agenda next)

namespace Quiet

theorem of_isFinished (world : World L) (finished : running.isFinished = true) :
    Quiet world running := by
  cases running with
  | finished result => exact .finished result
  | fresh _ | waiting _ _ | joining _ _ _ => cases finished

theorem settled (quiet : Quiet world running) : ∀ call ∈ running.calls, call.Settled world := by
  induction quiet with
  | finished result => intro call member; cases member
  | waiting settled =>
      intro call member
      obtain rfl := List.mem_singleton.mp member
      exact settled
  | joining _ ih =>
      intro call member
      obtain ⟨child, present, own⟩ := mem_allCalls.mp member
      exact ih child present call own

/-- It stays quiet while its callbacks stay settled. -/
theorem mono (quiet : Quiet world running)
    (settled : ∀ call ∈ running.calls, call.Settled world → call.Settled world') :
    Quiet world' running := by
  induction quiet with
  | finished result => exact .finished result
  | waiting before => exact .waiting (settled _ List.mem_cons_self before)
  | joining _ ih =>
      refine .joining fun child present => ih child present fun call own => ?_
      exact settled call (mem_allCalls.mpr ⟨child, present, own⟩)

theorem later (quiet : Quiet world running) (after : world.Lasts world') : Quiet world' running :=
  quiet.mono fun _ _ settled => settled.later after

theorem arouse (quiet : Quiet world running) (rank : PendingCall L → Option Nat) :
    Quiet world (running.arouse rank) := by
  induction quiet with
  | finished result => exact .finished result
  | waiting settled => exact .waiting settled
  | joining _ ih =>
      refine .joining fun child member => ?_
      rw [arouseAll_eq_map] at member
      obtain ⟨child, present, rfl⟩ := List.mem_map.mp member
      exact ih child present

end Quiet

/-! ## Ready futures -/

/-- The agenda of a join leaves out quiet children only. -/
structure Attended (world : World L) (agenda : Agenda) (children : List (Running L)) : Prop where
  fits : agenda.Fits children
  quiet : ∀ index child, children[index]? = some child → agenda.Asks index ∨ Quiet world child

/-- No join in a running future forgets a child or waits for nothing. -/
inductive Ready (world : World L) : Running L → Prop
  | fresh (future : Future L) : Ready world (.fresh future)
  | waiting {call : PendingCall L} {next : Future L} (timely : call.Timely world) :
      Ready world (.waiting call next)
  | joining {children : List (Running L)} {agenda : Agenda} {next : List Doc → Future L}
      (ready : ∀ child ∈ children, Ready world child) (attended : Attended world agenda children)
      (clear : agenda.Clear children) (missing : values? children = none) :
      Ready world (.joining children agenda next)
  | finished (result : Except PathError Doc) : Ready world (.finished result)

theorem Attended.later (attended : Attended world agenda children) (after : world.Lasts world') :
    Attended world' agenda children where
  fits := attended.fits
  quiet := fun index child at_index =>
    (attended.quiet index child at_index).imp_right (Quiet.later · after)

theorem Ready.later (ready : Ready world running) (after : world.Lasts world') :
    Ready world' running := by
  induction ready with
  | fresh future => exact .fresh future
  | waiting timely => exact .waiting (timely.later after)
  | joining _ attended clear missing ih =>
      exact .joining ih (attended.later after) clear missing
  | finished result => exact .finished result

theorem Attended.of_fresh (world : World L) (children : List (Future L)) :
    Attended world (.ofCount children.length) (children.map fresh) := by
  unfold Agenda.ofCount
  split
  · exact ⟨trivial, fun _ _ _ => .inl trivial⟩
  · refine ⟨⟨List.nodup_range, fun index member => ?_⟩, fun index child at_index => .inl ?_⟩
    · have inside := List.mem_range.mp member
      exact ⟨fresh children[index], by simp [inside], rfl⟩
    · obtain ⟨inside, -⟩ := List.getElem?_eq_some_iff.mp at_index
      rw [List.length_map] at inside
      exact List.mem_range.mpr inside

theorem clear_of_fresh (agenda : Agenda) (children : List (Future L)) :
    agenda.Clear (children.map fresh) := by
  cases agenda with
  | all =>
      intro error member
      obtain ⟨_, _, same⟩ := List.mem_map.mp member
      cases same
  | queued queue => cases children <;> rfl

/-! ## Places and steps -/

/-- What holds of each of many running futures holds of all of them together. -/
theorem allPlaces_le {now : Nat} (each : ∀ child ∈ children,
      child.places + (if child.isFinished then 0 else 1) ≤ child.size now) :
    (children.countP fun child => !child.isFinished) + allPlaces children ≤
      sizes now children := by
  induction children with
  | nil => exact Nat.le_refl _
  | cons child rest ih =>
      have own := each child List.mem_cons_self
      have others := ih fun other member => each other (List.mem_cons_of_mem _ member)
      rw [List.countP_cons, allPlaces, sizes]
      cases finished : child.isFinished with
      | true =>
          simp only [finished, if_true, Bool.not_true, Bool.false_eq_true, if_false] at own ⊢
          omega
      | false =>
          simp only [finished, Bool.false_eq_true, if_false, Bool.not_false, if_true] at own ⊢
          omega

/-- There are fewer places in the queues of an unfinished future than steps left of it. -/
theorem Ready.places_le (ready : Ready world running) (now : Nat) :
    running.places + (if running.isFinished then 0 else 1) ≤ running.size now := by
  induction ready with
  | fresh future => exact size_pos rfl now
  | @waiting call next timely => exact @size_pos L (.waiting call next) rfl now
  | @joining children agenda next _ attended _ _ ih =>
      -- one step of each unfinished child pays for its place, the join's own step is left over
      have queue := attended.fits.length_le
      have together := allPlaces_le ih
      rw [places, size]
      simp only [isFinished, result?, Option.isSome_none, Bool.false_eq_true, if_false]
      omega
  | finished result => exact Nat.le_refl _

theorem Attended.places_le (attended : Attended world agenda children)
    (ready : ∀ child ∈ children, Ready world child) (now : Nat) :
    agenda.length + allPlaces children ≤ sizes now children := by
  have queue := attended.fits.length_le
  have together := allPlaces_le fun child member => (ready child member).places_le now
  omega

/-- A quiet future that has not finished waits in a callback. -/
theorem Ready.exists_call (ready : Ready world running) (quiet : Quiet world running)
    (unfinished : running.isFinished = false) : ∃ call, call ∈ running.calls := by
  induction ready with
  | fresh future => cases quiet
  | @waiting call next timely => exact ⟨call, List.mem_cons_self⟩
  | joining _ _ clear missing ih =>
      -- a join that goes on has an unfinished child, and the callback is found in there
      obtain ⟨child, member, open_child⟩ := clear.exists_unfinished missing
      cases quiet with
      | joining each =>
          obtain ⟨call, own⟩ := ih child member (each child member) open_child
          exact ⟨call, mem_allCalls.mpr ⟨child, member, own⟩⟩
  | finished result => cases unfinished

/-! ## Calling for joins -/

section Arouse

variable {rank : PendingCall L → Option Nat}

/-- Those that are called for are on the agenda, and so are those that were. -/
theorem asks_summon {index : Nat} (called : List Nat)
    (asks : agenda.Asks index ∨ index ∈ called) : (agenda.summon called).Asks index := by
  cases agenda with
  | all => trivial
  | queued queue =>
      refine List.mem_append.mpr ?_
      by_cases present : index ∈ queue
      · exact .inl present
      · right
        rcases asks with already | member
        · exact absurd already present
        · simpa [member] using present

theorem fits_summon (fits : agenda.Fits children) :
    (agenda.summon (calling rank children)).Fits (arouseAll rank children) := by
  cases agenda with
  | all => trivial
  | queued queue =>
      obtain ⟨nodup, valid⟩ := fits
      refine ⟨?_, fun index member => ?_⟩
      · refine nodup.append ((calling_nodup rank children).filter _) fun index old new => ?_
        have absent := (List.mem_filter.mp new).2
        simp [old] at absent
      · have unfinished : ∃ child, children[index]? = some child ∧ child.isFinished = false := by
          rcases List.mem_append.mp member with old | new
          · exact valid index old
          · obtain ⟨child, at_index, called⟩ := mem_calling.mp (List.mem_filter.mp new).1
            exact ⟨child, at_index, unfinished_of_rank? called⟩
        obtain ⟨child, at_index, open_child⟩ := unfinished
        refine ⟨child.arouse rank, ?_, ?_⟩
        · rw [arouseAll_eq_map, List.getElem?_map, at_index]
          rfl
        · rw [isFinished_arouse]
          exact open_child

/-- Every callback that is no longer settled calls, so no child of the join is forgotten. -/
theorem Attended.arouse (attended : Attended world agenda children)
    (settled : ∀ call ∈ allCalls children, call.Settled world →
      (rank call).isSome ∨ call.Settled world') :
    Attended world' (agenda.summon (calling rank children)) (arouseAll rank children) where
  fits := fits_summon attended.fits
  quiet := by
    intro index child at_index
    rw [arouseAll_eq_map, List.getElem?_map] at at_index
    obtain ⟨child, before, rfl⟩ := Option.map_eq_some_iff.mp at_index
    rcases attended.quiet index child before with asks | quiet
    · exact .inl (asks_summon _ (.inl asks))
    -- a quiet child is called for, or all its callbacks stay settled
    · cases called : child.rank? rank with
      | some least =>
          left
          exact asks_summon _ (.inr (mem_calling.mpr ⟨child, before, by simp [called]⟩))
      | none =>
          right
          refine (quiet.mono fun call own before' => ?_).arouse rank
          have whole := mem_allCalls.mpr ⟨child, List.mem_of_getElem? before, own⟩
          rcases settled call whole before' with some | still
          · rw [rank?_eq_none called own] at some
            cases some
          · exact still

theorem clear_summon (clear : agenda.Clear children) (called : List Nat) :
    (agenda.summon called).Clear (arouseAll rank children) := by
  cases agenda with
  | all =>
      intro error member
      rw [arouseAll_eq_map] at member
      obtain ⟨child, present, same⟩ := List.mem_map.mp member
      exact clear error (arouse_eq_finished same ▸ present)
  | queued queue =>
      show nextFailure (arouseAll rank children) = none
      rw [nextFailure_arouseAll]
      exact clear

theorem values?_arouseAll (rank : PendingCall L → Option Nat) (children : List (Running L)) :
    values? (arouseAll rank children) = values? children := by
  induction children with
  | nil => rfl
  | cons child rest ih =>
      match child with
      | .finished (.ok value) =>
        rw [arouseAll, Running.arouse, values?, values?, ih]
      | .finished (.error _) | .fresh _ | .waiting _ _ | .joining _ _ _ => rfl

/-- What was ready is ready in another round if the callbacks that are no longer settled there have
called. -/
theorem Ready.arouse (ready : Ready world running)
    (timely : ∀ call ∈ running.calls, call.Timely world → call.Timely world')
    (settled : ∀ call ∈ running.calls, call.Settled world →
      (rank call).isSome ∨ call.Settled world') : Ready world' (running.arouse rank) := by
  induction ready with
  | fresh future => exact .fresh future
  | waiting before => exact .waiting (timely _ List.mem_cons_self before)
  | joining _ attended clear missing ih =>
      refine .joining (fun child member => ?_) (attended.arouse settled) (clear_summon clear _) ?_
      · rw [arouseAll_eq_map] at member
        obtain ⟨child, present, rfl⟩ := List.mem_map.mp member
        exact ih child present
          (fun call own => timely call (mem_allCalls.mpr ⟨child, present, own⟩))
          (fun call own => settled call (mem_allCalls.mpr ⟨child, present, own⟩))
      · rw [values?_arouseAll]
        exact missing
  | finished result => exact .finished result

end Arouse

end Running

end Waypoint
