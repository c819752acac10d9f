import Waypoint.Path.Basic

/-!
# Stages

A path is compiled to a list of stages. A plain step gives one stage, an array step two: the focus
on the key, then the lift over the elements found there. Every stage is carried out by a strategy.
-/

namespace Waypoint

/-- One application of a strategy: to the member under a key, or to the elements of the array found
there. The key of a lift only names the array in messages. -/
inductive Stage where
  | focus (key : String)
  | lift (key : String)
  deriving DecidableEq, Inhabited, Repr

def Segment.stages (segment : Segment) : List Stage :=
  if segment.isArray then [.focus segment.key, .lift segment.key] else [.focus segment.key]

def Path.stages (path : Path) : List Stage :=
  path.segments.flatMap Segment.stages

/-- Number of stages: how many strategies are applied on the way to one leaf. -/
def Path.stageCount (path : Path) : Nat :=
  path.stages.length

end Waypoint
