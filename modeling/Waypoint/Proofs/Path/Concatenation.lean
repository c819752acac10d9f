import Mathlib
import Waypoint.Path.Accessor
import Waypoint.Proofs.Path.Text

/-!
# Paths one after another

Texts joined by a dot are read to the steps of the one and then those of the other. The accessor of
two paths one after another is the accessor of the first path around that of the second one. Nothing
is asked of the strategies, so the law holds for whatever a stage does with the rest of the chain:
it may leave it out, apply it many times, keep a state or wait.
-/

namespace Waypoint

namespace Path

/-- A text is cut at the dot that it was joined by, whatever other dots it holds. -/
theorem segments_parse_append (source other : String) :
    (parse (source ++ "." ++ other)).segments =
      (parse source).segments ++ (parse other).segments := by
  have cut : (source ++ "." ++ other).toList.splitOn '.' =
      source.toList.splitOn '.' ++ other.toList.splitOn '.' := by
    rw [String.toList_append, String.toList_append, List.append_assoc]
    exact List.splitOn_append_cons_self source.toList other.toList
  rw [segments_parse, cut, List.map_append, segments_parse, segments_parse]

/-- A step gives its stages without regard to the steps around it. -/
theorem stages_append (p q : List Segment) :
    Path.stages ⟨p ++ q⟩ = Path.stages ⟨p⟩ ++ Path.stages ⟨q⟩ :=
  List.flatMap_append

/-- The stages of the first path are wrapped around those of the second one. -/
theorem accessor_append {A : Type} (wrapping : Wrapping A) (p q : List Segment) (leaf : A) :
    Path.accessor wrapping ⟨p ++ q⟩ leaf =
      Path.accessor wrapping ⟨p⟩ (Path.accessor wrapping ⟨q⟩ leaf) := by
  rw [accessor_eq_foldr, accessor_eq_foldr, accessor_eq_foldr, stages_append, List.foldr_append]

end Path

/-- The accessor of two paths one after another is the accessor of the first one applied to the
accessor of the second one, for strategies of any kind, and with the record of all strategy calls
and leaf calls. Texts joined by a dot give such paths. -/
theorem accessor_of_joined_paths :
    (∀ source other : String,
      (Path.parse (source ++ "." ++ other)).segments =
        (Path.parse source).segments ++ (Path.parse other).segments) ∧
      (∀ (A : Type) (wrapping : Wrapping A) (p q : List Segment) (leaf : A),
        Path.accessor wrapping ⟨p ++ q⟩ leaf =
          Path.accessor wrapping ⟨p⟩ (Path.accessor wrapping ⟨q⟩ leaf)) ∧
      ∀ (wrapping : Wrapping (Doc → PathTrace)) (p q : List Segment)
        (transform : Doc → Trace Notice Doc) (root : Doc),
        Path.accessor wrapping.recorded ⟨p ++ q⟩ (recordedLeaf transform) root =
          Path.accessor wrapping.recorded ⟨p⟩
            (Path.accessor wrapping.recorded ⟨q⟩ (recordedLeaf transform)) root := by
  refine ⟨Path.segments_parse_append, fun _ => Path.accessor_append, ?_⟩
  intro wrapping p q transform root
  rw [Path.accessor_append]

end Waypoint
