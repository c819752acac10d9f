/-!
# Waits

How long a callback waits before it ends, in milliseconds. No wait is longer than `longestWait`;
one that is asked to be is cut short.
-/

namespace Waypoint

/-- The longest wait, thirty years of 365 days. -/
def longestWait : Nat :=
  30 * 365 * 24 * 60 * 60 * 1000

/-- The time that a wait takes when it is asked to take `time`. -/
def boundedWait (time : Nat) : Nat :=
  min time longestWait

theorem boundedWait_le (time : Nat) : boundedWait time ≤ longestWait :=
  Nat.min_le_right ..

/-- A wait that is not too long takes the time that it is asked to take. -/
theorem boundedWait_eq {time : Nat} (le : time ≤ longestWait) : boundedWait time = time :=
  Nat.min_eq_left le

/-- The waiting time of the `n`-th callback: the list is used over and over, and an empty list means
that nothing waits. -/
def waitOf (delays : List Nat) (n : Nat) : Nat :=
  boundedWait (delays[n % delays.length]?.getD 0)

end Waypoint
