import Waypoint.Composition
import Waypoint.Curry
import Waypoint.Fold.Course
import Waypoint.Fold.Rule
import Waypoint.Fold.Sequence
import Waypoint.Limit.Interleaving
import Waypoint.Limit.Timeline
import Waypoint.Path.Document
import Waypoint.Path.Summary
import Waypoint.Proofs.Limit.FirstFailure
import Waypoint.Proofs.Limit.Outcome
import Waypoint.Proofs.Limit.Slots
import Waypoint.Proofs.Path.Concatenation
import Waypoint.Proofs.Path.Elsewhere
import Waypoint.Proofs.Path.ReadAfterUpdate
import Waypoint.Proofs.Path.Text
import Waypoint.Proofs.Path.Waiting
import Waypoint.Session
import Waypoint.Proofs.Path.Fusion
import Waypoint.Proofs.Doc.Agreement
import Waypoint.Proofs.Path.Divergence
import Waypoint.Proofs.Future.Instant
import Waypoint.Proofs.Path.Instant
import Waypoint.Proofs.Future.Finish
import Waypoint.Proofs.Future.OnTime
import Waypoint.Proofs.Future.Relabel
import Waypoint.Proofs.Future.Order
import Waypoint.Proofs.Future.Punctual
import Waypoint.Proofs.Path.Located
import Waypoint.Proofs.Path.Timing
import Waypoint.Proofs.Path.Similarity
import Waypoint.Proofs.Path.Brackets
import Waypoint.Proofs.Fold.Visits
import Waypoint.Proofs.Path.EventLog
import Waypoint.Proofs.Fold.Succession
import Waypoint.Proofs.Limit.Sequential
import Waypoint.Proofs.Limit.Timetable
import Waypoint.Proofs.Limit.Steps
import Waypoint.Proofs.Limit.Greedy
import Waypoint.Proofs.Future.FirstRound
import Waypoint.Proofs.Strategy.FailingLift
import Waypoint.Proofs.Path.Levels
import Waypoint.Proofs.Path.Completion
import Waypoint.Proofs.Fold.Ending
import Waypoint.Proofs.Fold.Mapping
import Waypoint.Proofs.Fold.Suffix
import Waypoint.Proofs.Limit.Notices
import Waypoint.Proofs.Composition.Stages
import Waypoint.Proofs.Composition.Grouping
import Waypoint.Proofs.Curry.Choices
import Waypoint.Proofs.Path.Stages
import Waypoint.Proofs.Session
