import Mathlib
import Waypoint.Proofs.Future.Starts

/-!
# The books of a run

What is on record of a run, and when, follows from what may happen to any one of its callbacks,
however its futures are put together. The books of a run hold just that: the clock, the callbacks
that have not started, those that wait with their deadlines, and the record. While the clock stands
still callbacks start, end at their deadlines or are dropped (`Books.Step`); the clock only moves on
to the next deadline, and only if there is nothing left to start (`Books.Move`). Books that begin
with nothing on record stay balanced (`Books.Balanced.course`).
-/

namespace Waypoint

variable {L : Type}

/-- What a run has to account for. -/
structure Books (L : Type) where
  now : Nat
  /-- The number of callbacks started so far, in this run or before. -/
  started : Nat
  unstarted : Multiset L
  /-- The callbacks that wait, each with its deadline. -/
  waiting : Multiset (L × Nat)
  log : List (Entry (CallEvent L))

namespace Books

/-- One thing happens while the clock stands still. Callbacks are dropped only in `lossy` books, and
`before` says which callback may start before which. -/
inductive Step (lossy : Prop) (before : L → L → Prop) (delays : List Nat) :
    Books L → Books L → Prop
  | start {now started : Nat} {label : L} {rest : Multiset L} {waiting : Multiset (L × Nat)}
      {log : List (Entry (CallEvent L))} (first : ∀ other ∈ rest, before label other) :
      Step lossy before delays ⟨now, started, label ::ₘ rest, waiting, log⟩
        ⟨now, started + 1, rest, (label, now + waitOf delays started) ::ₘ waiting,
          log ++ [.call (.started label now)]⟩
  | finish {now started deadline : Nat} {label : L} {unstarted : Multiset L}
      {waiting : Multiset (L × Nat)} {log : List (Entry (CallEvent L))} (notices : List Notice)
      (due : deadline ≤ now) :
      Step lossy before delays ⟨now, started, unstarted, (label, deadline) ::ₘ waiting, log⟩
        ⟨now, started, unstarted, waiting,
          log ++ .call (.ended label now) :: notices.map .notice⟩
  | drop {now started : Nat} {unstarted unstarted' : Multiset L}
      {waiting waiting' : Multiset (L × Nat)} {log : List (Entry (CallEvent L))}
      (allowed : lossy) (fewer : unstarted' ≤ unstarted) (fewer' : waiting' ≤ waiting) :
      Step lossy before delays ⟨now, started, unstarted, waiting, log⟩
        ⟨now, started, unstarted', waiting', log⟩

/-- Many things happen while the clock stands still. -/
abbrev Steps (lossy : Prop) (before : L → L → Prop) (delays : List Nat) :
    Books L → Books L → Prop :=
  Relation.ReflTransGen (Step lossy before delays)

/-- One thing happens, or the clock moves on to the next deadline. -/
inductive Move (lossy : Prop) (before : L → L → Prop) (delays : List Nat) :
    Books L → Books L → Prop
  | step {books books' : Books L} (step : Step lossy before delays books books') :
      Move lossy before delays books books'
  | advance {now started time : Nat} {label : L} {waiting : Multiset (L × Nat)}
      {log : List (Entry (CallEvent L))} (next : (label, time) ∈ waiting)
      (least : ∀ other later, (other, later) ∈ waiting → time ≤ later) :
      Move lossy before delays ⟨now, started, 0, waiting, log⟩
        ⟨max now time, started, 0, waiting, log⟩

abbrev Course (lossy : Prop) (before : L → L → Prop) (delays : List Nat) :
    Books L → Books L → Prop :=
  Relation.ReflTransGen (Move lossy before delays)

variable {lossy : Prop} {before : L → L → Prop} {delays : List Nat} {books books' : Books L}

theorem Steps.course (steps : Steps lossy before delays books books') :
    Course lossy before delays books books' :=
  Relation.ReflTransGen.mono (fun _ _ => .step) _ _ steps

/-! ## Books that are part of others -/

/-- The same books with further callbacks in them. -/
def beside (unstarted : Multiset L) (waiting : Multiset (L × Nat)) (books : Books L) : Books L :=
  { books with unstarted := books.unstarted + unstarted, waiting := books.waiting + waiting }

theorem Step.unstarted_le (step : Step lossy before delays books books') :
    books'.unstarted ≤ books.unstarted := by
  cases step with
  | start first => exact Multiset.le_cons_self _ _
  | finish notices due => exact le_refl _
  | drop allowed fewer fewer' => exact fewer

theorem Steps.unstarted_le (steps : Steps lossy before delays books books') :
    books'.unstarted ≤ books.unstarted := by
  induction steps with
  | refl => exact le_refl _
  | tail _ step ih => exact step.unstarted_le.trans ih

theorem Step.mono {lossy' : Prop} (step : Step lossy before delays books books')
    (allows : lossy → lossy') : Step lossy' before delays books books' := by
  cases step with
  | start first => exact .start first
  | finish notices due => exact .finish notices due
  | drop allowed fewer fewer' => exact .drop (allows allowed) fewer fewer'

theorem Steps.mono {lossy' : Prop} (steps : Steps lossy before delays books books')
    (allows : lossy → lossy') : Steps lossy' before delays books books' :=
  Relation.ReflTransGen.mono (fun _ _ step => Step.mono step allows) _ _ steps

theorem Course.mono {lossy' : Prop} (course : Course lossy before delays books books')
    (allows : lossy → lossy') : Course lossy' before delays books books' := by
  refine Relation.ReflTransGen.mono (fun _ _ move => ?_) _ _ course
  cases move with
  | step step => exact .step (step.mono allows)
  | advance next least => exact .advance next least

/-- What happens to some callbacks happens to them beside others, before which they may start. -/
theorem Step.beside {unstarted : Multiset L} (step : Step lossy before delays books books')
    (ahead : ∀ one ∈ books.unstarted, ∀ other ∈ unstarted, before one other)
    (waiting : Multiset (L × Nat)) :
    Step lossy before delays (books.beside unstarted waiting)
      (books'.beside unstarted waiting) := by
  cases step with
  | @start now started label rest inside log first =>
      simp only [Books.beside, Multiset.cons_add]
      refine .start fun other member => ?_
      rcases Multiset.mem_add.mp member with own | others
      · exact first other own
      · exact ahead label (Multiset.mem_cons_self label rest) other others
  | finish notices due =>
      simp only [Books.beside, Multiset.cons_add]
      exact .finish notices due
  | drop allowed fewer fewer' =>
      exact .drop allowed (add_le_add_left fewer _) (add_le_add_left fewer' _)

theorem Steps.beside {unstarted : Multiset L} (steps : Steps lossy before delays books books')
    (ahead : ∀ one ∈ books.unstarted, ∀ other ∈ unstarted, before one other)
    (waiting : Multiset (L × Nat)) :
    Steps lossy before delays (books.beside unstarted waiting)
      (books'.beside unstarted waiting) := by
  induction steps with
  | refl => exact .refl
  | tail steps step ih =>
      refine ih.tail (step.beside (fun one member => ?_) waiting)
      exact ahead one (Multiset.mem_of_le (Steps.unstarted_le steps) member)

/-! ## Balanced books -/

/-- Some callback on record waits until a time, in a run that begins at a time and with a number of
callbacks started before it. -/
def WaitsTo (begin first : Nat) (delays : List Nat) (log : List (Entry (CallEvent L))) (label : L)
    (time : Nat) : Prop :=
  ∃ n, (Entry.starts log)[n]? = some label ∧ time = begin + waitOf delays (first + n)

/-- What the books of a run say at any time, if it begins with some callbacks to start. -/
structure Balanced (lossy : Prop) (before : L → L → Prop) (delays : List Nat) (begin first : Nat)
    (initial : Multiset L) (books : Books L) : Prop where
  count : books.started = first + (Entry.starts books.log).length
  /-- Callbacks start at once. -/
  atOnce : ∀ label time, .call (.started label time) ∈ books.log → time = begin
  still : books.unstarted = 0 ∨ books.now = begin
  inOrder : (Entry.starts books.log).Pairwise before
  ahead : ∀ one ∈ Entry.starts books.log, ∀ other ∈ books.unstarted, before one other
  /-- Those that wait do so for their time, and those that have ended have done so. -/
  waits : ∀ label time, (label, time) ∈ books.waiting →
    WaitsTo begin first delays books.log label time ∧ books.now ≤ time
  ended : ∀ label time, .call (.ended label time) ∈ books.log →
    WaitsTo begin first delays books.log label time ∧ time ≤ books.now
  /-- The clock stands where the run began or where a wait ends. -/
  reached : books.now = begin ∨ ∃ label, WaitsTo begin first delays books.log label books.now
  starts_le : ↑(Entry.starts books.log) + books.unstarted ≤ initial
  ends_le : ↑(Entry.ends books.log) + books.waiting.map Prod.fst ≤ ↑(Entry.starts books.log)
  /-- Nothing is missing unless it may be dropped. -/
  whole : ¬ lossy → ↑(Entry.starts books.log) + books.unstarted = initial ∧
    ↑(Entry.ends books.log) + books.waiting.map Prod.fst = ↑(Entry.starts books.log)

variable {begin first : Nat} {initial : Multiset L} {log : List (Entry (CallEvent L))} {label : L}
  {time : Nat}

/-- What waits goes on waiting when more is put on record. -/
theorem WaitsTo.append (waits : WaitsTo begin first delays log label time)
    (more : List (Entry (CallEvent L))) :
    WaitsTo begin first delays (log ++ more) label time := by
  obtain ⟨n, at_n, same⟩ := waits
  refine ⟨n, ?_, same⟩
  obtain ⟨inside, -⟩ := List.getElem?_eq_some_iff.mp at_n
  rw [Entry.starts_append, List.getElem?_append_left inside]
  exact at_n

/-- The callback that starts next waits for the next time. -/
theorem waitsTo_started (begin first : Nat) (delays : List Nat)
    (log : List (Entry (CallEvent L))) (label : L) (now : Nat) :
    WaitsTo begin first delays (log ++ [.call (.started label now)]) label
      (begin + waitOf delays (first + (Entry.starts log).length)) := by
  refine ⟨(Entry.starts log).length, ?_, rfl⟩
  rw [Entry.starts_append, List.getElem?_append_right (Nat.le_refl _)]
  simp

namespace Balanced

/-- A run begins with balanced books. -/
theorem begins (lossy : Prop) (before : L → L → Prop) (delays : List Nat) (begin first : Nat)
    (initial : Multiset L) :
    Balanced lossy before delays begin first initial ⟨begin, first, initial, 0, []⟩ where
  count := rfl
  atOnce := fun _ _ member => by cases member
  still := .inr rfl
  inOrder := .nil
  ahead := fun _ member => by cases member
  waits := fun _ _ member => absurd member (Multiset.notMem_zero _)
  ended := fun _ _ member => by cases member
  reached := .inl rfl
  starts_le := by simp
  ends_le := by simp
  whole := fun _ => by simp

theorem start {now started : Nat} {rest : Multiset L} {waiting : Multiset (L × Nat)}
    (balanced : Balanced lossy before delays begin first initial
      ⟨now, started, label ::ₘ rest, waiting, log⟩) (leads : ∀ other ∈ rest, before label other) :
    Balanced lossy before delays begin first initial
      ⟨now, started + 1, rest, (label, now + waitOf delays started) ::ₘ waiting,
        log ++ [.call (.started label now)]⟩ := by
  obtain ⟨count, atOnce, still, inOrder, ahead, waits, ended, reached, starts_le, ends_le, whole⟩ :=
    balanced
  -- something is left to start, so the clock has not moved yet
  obtain rfl : now = begin := still.resolve_left (Multiset.cons_ne_zero)
  obtain rfl : started = first + (Entry.starts log).length := count
  have starts : Entry.starts (log ++ [.call (.started label now)]) = Entry.starts log ++ [label] :=
    by simp
  have ends : Entry.ends (log ++ [.call (.started label now)]) = Entry.ends log := by simp
  have more : (↑(Entry.starts log ++ [label]) : Multiset L) = label ::ₘ ↑(Entry.starts log) := by
    rw [← Multiset.coe_add, Multiset.coe_singleton, add_comm, Multiset.singleton_add]
  constructor
  case count =>
    rw [starts, List.length_append, List.length_singleton]
    rfl
  case atOnce =>
    intro other time member
    rcases List.mem_append.mp member with before | here
    · exact atOnce other time before
    · simp only [List.mem_singleton, Entry.call.injEq, CallEvent.started.injEq] at here
      exact here.2
  case still => exact .inr rfl
  case inOrder =>
    rw [starts, List.pairwise_append]
    refine ⟨inOrder, List.pairwise_singleton _ _, fun one member other here => ?_⟩
    rw [List.mem_singleton.mp here]
    exact ahead one member label (Multiset.mem_cons_self label rest)
  case ahead =>
    rw [starts]
    intro one member other left
    rcases List.mem_append.mp member with before | here
    · exact ahead one before other (Multiset.mem_cons_of_mem left)
    · rw [List.mem_singleton.mp here]
      exact leads other left
  case waits =>
    intro other time member
    rcases Multiset.mem_cons.mp member with same | before
    · obtain ⟨rfl, rfl⟩ := Prod.mk.inj same
      exact ⟨waitsTo_started _ _ _ _ _ _, Nat.le_add_right _ _⟩
    · exact ⟨(waits other time before).1.append _, (waits other time before).2⟩
  case ended =>
    intro other time member
    have before : .call (.ended other time) ∈ log := by simpa using member
    exact ⟨(ended other time before).1.append _, (ended other time before).2⟩
  case reached => exact .inl rfl
  case starts_le =>
    rw [starts, more, Multiset.cons_add, ← Multiset.add_cons]
    exact starts_le
  case ends_le =>
    rw [starts, more, ends, Multiset.map_cons, Multiset.add_cons]
    exact Multiset.cons_le_cons label ends_le
  case whole =>
    intro kept
    obtain ⟨all, every⟩ := whole kept
    rw [starts, more, ends, Multiset.map_cons, Multiset.add_cons, Multiset.cons_add,
      ← Multiset.add_cons]
    exact ⟨all, congrArg (label ::ₘ ·) every⟩

theorem finish {now started deadline : Nat} {unstarted : Multiset L}
    {waiting : Multiset (L × Nat)}
    (balanced : Balanced lossy before delays begin first initial
      ⟨now, started, unstarted, (label, deadline) ::ₘ waiting, log⟩) (notices : List Notice)
    (due : deadline ≤ now) :
    Balanced lossy before delays begin first initial
      ⟨now, started, unstarted, waiting,
        log ++ .call (.ended label now) :: notices.map .notice⟩ := by
  obtain ⟨count, atOnce, still, inOrder, ahead, waits, ended, reached, starts_le, ends_le, whole⟩ :=
    balanced
  obtain ⟨own, le⟩ := waits label deadline (Multiset.mem_cons_self _ _)
  obtain rfl : now = deadline := Nat.le_antisymm le due
  have starts : Entry.starts (log ++ .call (.ended label now) :: notices.map .notice) =
      Entry.starts log := by simp
  have ends : Entry.ends (log ++ .call (.ended label now) :: notices.map .notice) =
      Entry.ends log ++ [label] := by simp
  have moved : (↑(Entry.ends log ++ [label]) + waiting.map Prod.fst : Multiset L) =
      ↑(Entry.ends log) + ((label, now) ::ₘ waiting).map Prod.fst := by
    rw [← Multiset.coe_add, Multiset.coe_singleton, add_assoc, Multiset.singleton_add,
      Multiset.map_cons]
  constructor
  case count => rw [starts]; exact count
  case atOnce =>
    intro other time member
    exact atOnce other time (by simpa using member)
  case still => exact still
  case inOrder => rw [starts]; exact inOrder
  case ahead => rw [starts]; exact ahead
  case waits =>
    intro other time member
    obtain ⟨before, le⟩ := waits other time (Multiset.mem_cons_of_mem member)
    exact ⟨before.append _, le⟩
  case ended =>
    intro other time member
    rcases List.mem_append.mp member with before | here
    · exact ⟨(ended other time before).1.append _, (ended other time before).2⟩
    · have same : other = label ∧ time = now := by simpa using here
      obtain ⟨rfl, rfl⟩ := same
      exact ⟨own.append _, Nat.le_refl _⟩
  case reached =>
    refine reached.imp_right fun ⟨other, before⟩ => ⟨other, before.append _⟩
  case starts_le => rw [starts]; exact starts_le
  case ends_le => rw [starts, ends, moved]; exact ends_le
  case whole => rw [starts, ends, moved]; exact whole

theorem drop {now started : Nat} {unstarted unstarted' : Multiset L}
    {waiting waiting' : Multiset (L × Nat)}
    (balanced : Balanced lossy before delays begin first initial
      ⟨now, started, unstarted, waiting, log⟩) (allowed : lossy) (fewer : unstarted' ≤ unstarted)
    (fewer' : waiting' ≤ waiting) :
    Balanced lossy before delays begin first initial
      ⟨now, started, unstarted', waiting', log⟩ := by
  obtain ⟨count, atOnce, still, inOrder, ahead, waits, ended, reached, starts_le, ends_le, -⟩ :=
    balanced
  constructor
  case count => exact count
  case atOnce => exact atOnce
  case still =>
    refine still.imp_left fun (none : unstarted = 0) => ?_
    rw [none] at fewer
    exact Multiset.le_zero.mp fewer
  case inOrder => exact inOrder
  case ahead =>
    exact fun one member other left => ahead one member other (Multiset.mem_of_le fewer left)
  case waits => exact fun other time member => waits other time (Multiset.mem_of_le fewer' member)
  case ended => exact ended
  case reached => exact reached
  case starts_le => exact (add_le_add_right fewer _).trans starts_le
  case ends_le => exact (add_le_add_right (Multiset.map_le_map fewer') _).trans ends_le
  case whole => exact fun kept => absurd allowed kept

theorem advance {now started time : Nat} {waiting : Multiset (L × Nat)}
    (balanced : Balanced lossy before delays begin first initial
      ⟨now, started, 0, waiting, log⟩) (next : (label, time) ∈ waiting)
    (least : ∀ other later, (other, later) ∈ waiting → time ≤ later) :
    Balanced lossy before delays begin first initial
      ⟨max now time, started, 0, waiting, log⟩ := by
  obtain ⟨own, le⟩ := balanced.waits label time next
  rw [show max now time = time from Nat.max_eq_right le]
  exact
    { count := balanced.count
      atOnce := balanced.atOnce
      still := .inl rfl
      inOrder := balanced.inOrder
      ahead := balanced.ahead
      waits := fun other later member =>
        ⟨(balanced.waits other later member).1, least other later member⟩
      ended := fun other earlier member =>
        ⟨(balanced.ended other earlier member).1,
          (balanced.ended other earlier member).2.trans le⟩
      reached := .inr ⟨label, own⟩
      starts_le := balanced.starts_le
      ends_le := balanced.ends_le
      whole := balanced.whole }

/-- Books stay balanced whatever happens. -/
theorem move (balanced : Balanced lossy before delays begin first initial books)
    (move : Move lossy before delays books books') :
    Balanced lossy before delays begin first initial books' := by
  cases move with
  | advance next least => exact balanced.advance next least
  | step step =>
      cases step with
      | start leads => exact balanced.start leads
      | finish notices due => exact balanced.finish notices due
      | drop allowed fewer fewer' => exact balanced.drop allowed fewer fewer'

theorem course (course : Course lossy before delays ⟨begin, first, initial, 0, []⟩ books) :
    Balanced lossy before delays begin first initial books := by
  induction course with
  | refl => exact .begins _ _ _ _ _ _
  | tail _ next ih => exact ih.move next

end Balanced

end Books

end Waypoint
