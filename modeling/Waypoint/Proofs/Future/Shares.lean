import Waypoint.Proofs.Fold.Succession
import Waypoint.Proofs.Future.Relabel

/-!
# Shares of a record

Where callbacks are tagged, each tag has its share of the record of a run: its events, and its
callbacks in the order in which they start, with the times that they wait (`World.share`). A
callback takes its waiting time by its place among all that start, and what happens to it changes no
share but its own.
-/

namespace Waypoint

open Fold (total)

variable {L : Type}

/-- Callbacks that start one after another, with their waiting times. Before the first one `first`
callbacks have started. -/
def withWaits (delays : List Nat) (first : Nat) (labels : List L) : List (L × Nat) :=
  (labels.zipIdx first).map fun (label, n) => (label, waitOf delays n)

theorem map_fst_withWaits (delays : List Nat) (first : Nat) (labels : List L) :
    (withWaits delays first labels).map Prod.fst = labels := by
  rw [withWaits, List.map_map]
  exact List.zipIdx_map_fst first labels

theorem withWaits_concat (delays : List Nat) (first : Nat) (labels : List L) (label : L) :
    withWaits delays first (labels ++ [label]) =
      withWaits delays first labels ++ [(label, waitOf delays (first + labels.length))] := by
  simp [withWaits, List.zipIdx_append]

/-- The event without its tag, if it has the tag `k`. -/
def CallEvent.ofTag (k : Nat) : CallEvent (Nat × L) → Option (CallEvent L)
  | started (tag, label) time => if tag = k then some (started label time) else none
  | ended (tag, label) time => if tag = k then some (ended label time) else none

namespace Entry

/-- The events with a tag. -/
def eventsOf (k : Nat) (log : List (Entry (CallEvent (Nat × L)))) : List (CallEvent L) :=
  (calls log).filterMap (CallEvent.ofTag k)

/-- The callbacks with a tag in the order in which they start, with their waiting times. Before the
first one on record `first` callbacks have started. -/
def waitsOf (delays : List Nat) (first k : Nat) (log : List (Entry (CallEvent (Nat × L)))) :
    List (L × Nat) :=
  (withWaits delays first (starts log)).filterMap fun ((tag, label), wait) =>
    if tag = k then some (label, wait) else none

/-- Where there is one tag all is its share. -/
theorem eventsOf_relabel (k : Nat) (log : List (Entry (CallEvent L))) :
    eventsOf k (log.map (Entry.relabel (Prod.mk k))) = calls log := by
  rw [eventsOf, calls_relabel, List.filterMap_map]
  refine (List.filterMap_congr fun event _ => ?_).trans List.filterMap_some
  cases event <;> exact if_pos rfl

theorem waitsOf_relabel (delays : List Nat) (first k : Nat) (log : List (Entry (CallEvent L))) :
    waitsOf delays first k (log.map (Entry.relabel (Prod.mk k))) =
      withWaits delays first (starts log) := by
  simp [waitsOf, withWaits, starts_relabel, List.zipIdx_map, Function.comp_def]

end Entry

/-- What is on record of the callbacks with a tag. -/
structure Share (L : Type) where
  events : List (CallEvent L)
  waited : List (L × Nat)

namespace Share

/-- A callback starts. -/
def start (label : L) (time wait : Nat) (share : Share L) : Share L :=
  ⟨share.events ++ [.started label time], share.waited ++ [(label, wait)]⟩

/-- A callback ends. -/
def finish (label : L) (time : Nat) (share : Share L) : Share L :=
  ⟨share.events ++ [.ended label time], share.waited⟩

end Share

namespace World

variable {first j k : Nat} {label : L} {world later : World (Nat × L)}

/-- The share of a tag, where `first` callbacks started before the record begins. -/
def share (first k : Nat) (world : World (Nat × L)) : Share L :=
  ⟨Entry.eventsOf k world.log, Entry.waitsOf world.delays first k world.log⟩

/-- All callbacks that have started are on record, but for the first ones. -/
def Counts (first : Nat) (world : World L) : Prop :=
  world.started = first + (Entry.starts world.log).length

theorem share_recordStart (counts : world.Counts first) :
    (world.recordStart (k, label)).share first k =
      (world.share first k).start label world.now world.nextWait := by
  have place : first + (Entry.starts world.log).length = world.started := counts.symm
  simp [share, Share.start, recordStart, Entry.eventsOf, Entry.waitsOf, Entry.calls, Entry.call?,
    CallEvent.ofTag, withWaits_concat, place, nextWait]

theorem share_recordStart_of_ne (other : j ≠ k) :
    (world.recordStart (k, label)).share first j = world.share first j := by
  simp [share, recordStart, Entry.eventsOf, Entry.waitsOf, Entry.calls, Entry.call?,
    CallEvent.ofTag, withWaits_concat, other.symm]

theorem share_recordEnd (notices : List Notice) :
    (world.recordEnd (k, label) notices).share first k =
      (world.share first k).finish label world.now := by
  simp [share, Share.finish, recordEnd, Entry.eventsOf, Entry.waitsOf, Entry.calls, Entry.call?,
    CallEvent.ofTag]

theorem share_recordEnd_of_ne (other : j ≠ k) (notices : List Notice) :
    (world.recordEnd (k, label) notices).share first j = world.share first j := by
  simp [share, recordEnd, Entry.eventsOf, Entry.waitsOf, Entry.calls, Entry.call?,
    CallEvent.ofTag, other.symm]

/-- From one world to another, at the same time, nothing has happened but to callbacks with the tag
`k`. -/
structure Keeps (first k : Nat) (world later : World (Nat × L)) : Prop where
  now : later.now = world.now
  delays : later.delays = world.delays
  counts : later.Counts first
  others : ∀ j ≠ k, later.share first j = world.share first j
  grows : total (world.share first k).waited ≤ total (later.share first k).waited

namespace Keeps

/-- Nothing has happened to callbacks. -/
theorem of_eq (counts : world.Counts first) (now : later.now = world.now)
    (delays : later.delays = world.delays) (started : later.started = world.started)
    (log : later.log = world.log) : world.Keeps first k later where
  now := now
  delays := delays
  counts := by rwa [Counts, started, log]
  others := fun j _ => by rw [share, share, delays, log]
  grows := by rw [share, share, delays, log]

theorem refl (counts : world.Counts first) : world.Keeps first k world :=
  .of_eq counts rfl rfl rfl rfl

theorem trans {last : World (Nat × L)} (one : world.Keeps first k later)
    (two : later.Keeps first k last) : world.Keeps first k last where
  now := two.now.trans one.now
  delays := two.delays.trans one.delays
  counts := two.counts
  others := fun j other => (two.others j other).trans (one.others j other)
  grows := one.grows.trans two.grows

theorem recordStart (counts : world.Counts first) (label : L) :
    world.Keeps first k (world.recordStart (k, label)) where
  now := rfl
  delays := rfl
  counts := by
    have place : world.started = first + (Entry.starts world.log).length := counts
    show world.started + 1 = _
    simp [World.recordStart, place, Nat.add_assoc]
  others := fun _ other => share_recordStart_of_ne other
  grows := by
    rw [share_recordStart counts, Share.start, Fold.total_append]
    exact Nat.le_add_right _ _

theorem recordEnd (counts : world.Counts first) (label : L) (notices : List Notice) :
    world.Keeps first k (world.recordEnd (k, label) notices) where
  now := rfl
  delays := rfl
  counts := by
    have place : world.started = first + (Entry.starts world.log).length := counts
    show world.started = _
    simp [World.recordEnd, place]
  others := fun _ other => share_recordEnd_of_ne other notices
  grows := by
    rw [share_recordEnd notices]
    exact Nat.le_refl _

end Keeps

end World

end Waypoint
