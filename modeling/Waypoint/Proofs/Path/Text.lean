import Mathlib
import Waypoint.Path.Document

/-!
# Paths and their texts

Reading and writing are inverse on the well-formed paths. Every text is the text of the path read
from it (`Path.text_parse`), and a path comes back from its text where it has a step, no key holds a
dot and no plain key ends in the marker (`Path.parse_text_iff`). So the well-formed paths are the
paths that are read from texts, one from each.

Reading cuts a text at its dots and looks for the marker at the end of each piece. The cut is the
one of `List.splitOn`, which is inverse to `List.intercalate`; what is left to see is that one step
comes back from its piece.
-/

namespace Waypoint

namespace Segment

/-- What an array step is written with after its key. -/
def marker : List Char :=
  ['[', ']']

/-- A step that can be told from its text among others: the key holds no dot, and a plain key does
not end as an array step does. -/
structure WellFormed (segment : Segment) : Prop where
  noDot : '.' ∉ segment.key.toList
  noMarker : segment.isArray = false → ¬ marker <:+ segment.key.toList

instance (segment : Segment) : Decidable segment.WellFormed :=
  decidable_of_iff ('.' ∉ segment.key.toList ∧
      (segment.isArray = false → ¬ marker <:+ segment.key.toList))
    ⟨fun h => ⟨h.1, h.2⟩, fun h => ⟨h.noDot, h.noMarker⟩⟩

/-! ## The marker at the end of a piece -/

theorem beforeMarker_append (key : List Char) : beforeMarker (key ++ marker) = some key := by
  induction key with
  | nil => rfl
  | cons c rest ih =>
      -- a text that is the marker has length two, and this one is longer
      have longer : c :: (rest ++ marker) ≠ ['[', ']'] := by
        intro eq
        have lengths := congrArg List.length eq
        simp [marker] at lengths
      rw [List.cons_append, beforeMarker, if_neg longer, ih]
      rfl

theorem beforeMarker_eq_some {cs key : List Char} :
    beforeMarker cs = some key ↔ cs = key ++ marker := by
  constructor
  · intro found
    induction cs generalizing key with
    | nil => cases found
    | cons c rest ih =>
        rw [beforeMarker] at found
        by_cases atEnd : c :: rest = ['[', ']']
        · rw [if_pos atEnd] at found
          obtain rfl := Option.some.inj found
          exact atEnd
        · rw [if_neg atEnd] at found
          obtain ⟨inner, at_rest, rfl⟩ := Option.map_eq_some_iff.mp found
          rw [ih at_rest]
          rfl
  · rintro rfl
    exact beforeMarker_append key

theorem beforeMarker_eq_none {cs : List Char} : beforeMarker cs = none ↔ ¬ marker <:+ cs := by
  constructor
  · rintro missing ⟨key, rfl⟩
    rw [beforeMarker_append] at missing
    cases missing
  · intro noMarker
    cases found : beforeMarker cs with
    | none => rfl
    | some key => exact absurd ⟨key, (beforeMarker_eq_some.mp found).symm⟩ noMarker

/-! ## One step and its piece -/

theorem toList_text (segment : Segment) :
    segment.text.toList =
      if segment.isArray then segment.key.toList ++ marker else segment.key.toList := by
  unfold text
  split
  · rw [String.toList_append]
    rfl
  · rfl

/-- A piece is the text of the step read from it. -/
theorem toList_text_ofChars (cs : List Char) : (ofChars cs).text.toList = cs := by
  rw [toList_text, ofChars]
  cases found : beforeMarker cs with
  | none => exact String.toList_ofList
  | some key =>
      show (String.ofList key).toList ++ marker = cs
      rw [String.toList_ofList, beforeMarker_eq_some.mp found]

theorem isArray_ofChars (cs : List Char) : (ofChars cs).isArray = decide (marker <:+ cs) := by
  rw [ofChars]
  cases found : beforeMarker cs with
  | none => exact (decide_eq_false (beforeMarker_eq_none.mp found)).symm
  | some key => exact (decide_eq_true ⟨key, (beforeMarker_eq_some.mp found).symm⟩).symm

/-- The step read from a piece is well-formed if the piece holds no dot. -/
theorem wellFormed_ofChars {cs : List Char} (noDot : '.' ∉ cs) : (ofChars cs).WellFormed := by
  rw [ofChars]
  cases found : beforeMarker cs with
  | none =>
      have same : (String.ofList cs).toList = cs := String.toList_ofList
      refine ⟨?_, ?_⟩
      · show '.' ∉ (String.ofList cs).toList
        rwa [same]
      · intro _
        show ¬ marker <:+ (String.ofList cs).toList
        rw [same]
        exact beforeMarker_eq_none.mp found
  | some key =>
      refine ⟨?_, fun plain => Bool.noConfusion plain⟩
      show '.' ∉ (String.ofList key).toList
      rw [String.toList_ofList]
      rw [beforeMarker_eq_some.mp found] at noDot
      exact fun inKey => noDot (List.mem_append_left _ inKey)

namespace WellFormed

variable {segment : Segment}

theorem dot_notMem_text (wellFormed : segment.WellFormed) : '.' ∉ segment.text.toList := by
  rw [toList_text]
  split
  · intro member
    rcases List.mem_append.mp member with inKey | inMarker
    · exact wellFormed.noDot inKey
    · exact absurd inMarker (by decide)
  · exact wellFormed.noDot

/-- A well-formed step is read from its text. -/
theorem ofChars_text (wellFormed : segment.WellFormed) :
    ofChars segment.text.toList = segment := by
  obtain ⟨key, isArray⟩ := segment
  cases isArray with
  | true =>
      have found : beforeMarker (Segment.text ⟨key, true⟩).toList = some key.toList := by
        rw [toList_text]
        exact beforeMarker_append key.toList
      rw [ofChars, found]
      exact congrArg array String.ofList_toList
  | false =>
      have plain : beforeMarker (Segment.text ⟨key, false⟩).toList = none := by
        rw [toList_text]
        exact beforeMarker_eq_none.mpr (wellFormed.noMarker rfl)
      rw [ofChars, plain]
      exact congrArg field String.ofList_toList

end WellFormed

end Segment

namespace Path

/-- A path that can be read back from its text: it has a step, and every step is well-formed. -/
structure WellFormed (path : Path) : Prop where
  nonempty : path.segments ≠ []
  segments : ∀ segment ∈ path.segments, segment.WellFormed

instance (path : Path) : Decidable path.WellFormed :=
  decidable_of_iff (path.segments ≠ [] ∧ ∀ segment ∈ path.segments, segment.WellFormed)
    ⟨fun h => ⟨h.1, h.2⟩, fun h => ⟨h.nonempty, h.segments⟩⟩

/-! ## The pieces of a text -/

theorem pieces_eq_splitOn (cs : List Char) : pieces cs = cs.splitOn '.' := by
  induction cs with
  | nil => rfl
  | cons c rest ih =>
      rw [pieces, List.splitOn_cons_eq_if_modifyHead, ih]
      by_cases dot : c = '.'
      · simp [dot]
      · simp only [dot, if_false, beq_iff_eq]
        cases pieces : rest.splitOn '.' with
        | nil => exact absurd pieces (List.splitOn_ne_nil _ _)
        | cons piece others => rfl

theorem length_splitOn (cs : List Char) : (cs.splitOn '.').length = cs.count '.' + 1 := by
  induction cs with
  | nil => rfl
  | cons c rest ih =>
      rw [List.splitOn_cons_eq_if_modifyHead, List.count_cons]
      by_cases dot : c = '.'
      · simp [dot, ih]
      · simp [dot, ih]

theorem dot_notMem_of_mem_splitOn {cs piece : List Char} (member : piece ∈ cs.splitOn '.') :
    '.' ∉ piece := by
  induction cs generalizing piece with
  | nil =>
      obtain rfl := List.mem_singleton.mp member
      exact List.not_mem_nil
  | cons c rest ih =>
      rw [List.splitOn_cons_eq_if_modifyHead] at member
      by_cases dot : c = '.'
      · simp only [dot, beq_self_eq_true, if_true, List.mem_cons] at member
        rcases member with rfl | later
        · exact List.not_mem_nil
        · exact ih later
      · simp only [dot, beq_iff_eq, if_false] at member
        cases pieces : rest.splitOn '.' with
        | nil => exact absurd pieces (List.splitOn_ne_nil _ _)
        | cons first others =>
            rw [pieces] at member ih
            rcases List.mem_cons.mp member with rfl | later
            · intro inside
              rcases List.mem_cons.mp inside with eq | inFirst
              · exact dot eq.symm
              · exact ih List.mem_cons_self inFirst
            · exact ih (List.mem_cons_of_mem _ later)

theorem segments_parse (source : String) :
    (parse source).segments = (source.toList.splitOn '.').map Segment.ofChars := by
  rw [parse, pieces_eq_splitOn]

theorem toList_text (path : Path) :
    path.text.toList =
      ['.'].intercalate (path.segments.map fun segment => segment.text.toList) := by
  rw [text, String.toList_intercalate, List.map_map]
  rfl

/-! ## Reading and writing -/

/-- Every text is the text of the path read from it. -/
theorem text_parse (source : String) : (parse source).text = source := by
  have pieces : (parse source).segments.map (fun segment => segment.text.toList) =
      source.toList.splitOn '.' := by
    rw [segments_parse, List.map_map]
    exact List.map_id'' Segment.toList_text_ofChars _
  apply String.toList_inj.mp
  rw [toList_text, pieces]
  exact List.intercalate_splitOn '.'

theorem wellFormed_parse (source : String) : (parse source).WellFormed := by
  refine ⟨?_, ?_⟩
  · rw [segments_parse]
    exact fun empty => List.splitOn_ne_nil _ _ (List.map_eq_nil_iff.mp empty)
  · intro segment member
    rw [segments_parse] at member
    obtain ⟨piece, among, rfl⟩ := List.mem_map.mp member
    exact Segment.wellFormed_ofChars (dot_notMem_of_mem_splitOn among)

theorem WellFormed.parse_text {path : Path} (wellFormed : path.WellFormed) :
    parse path.text = path := by
  have cut : path.text.toList.splitOn '.' =
      path.segments.map fun segment => segment.text.toList := by
    rw [toList_text]
    apply List.splitOn_intercalate
    · intro piece among
      obtain ⟨segment, member, rfl⟩ := List.mem_map.mp among
      exact (wellFormed.segments segment member).dot_notMem_text
    · exact fun empty => wellFormed.nonempty (List.map_eq_nil_iff.mp empty)
  have back : (parse path.text).segments = path.segments := by
    rw [segments_parse, cut, List.map_map]
    exact (List.map_congr_left fun segment member =>
      (wellFormed.segments segment member).ofChars_text).trans (List.map_id _)
  exact congrArg Path.mk back

/-- The paths that come back from their texts are the well-formed ones. -/
theorem parse_text_iff (path : Path) : parse path.text = path ↔ path.WellFormed := by
  constructor
  · intro back
    rw [← back]
    exact wellFormed_parse path.text
  · exact WellFormed.parse_text

theorem arrayDepth_parse (source : String) :
    (parse source).arrayDepth =
      (source.toList.splitOn '.').countP fun piece => Segment.marker <:+ piece := by
  rw [arrayDepth, segments_parse, List.countP_map]
  congr 1
  funext piece
  exact Segment.isArray_ofChars piece

end Path

/-- Reading and writing are inverse exactly on the well-formed paths: a text is read to the one
well-formed path with that text, a step for each piece between its dots and an array step for each
piece that ends in the marker. A document keeps the text of a path, so it gives back the same paths
as the text does. -/
theorem parse_and_text_inverse :
    (∀ source : String,
      (Path.parse source).text = source ∧
        (Path.parse source).length = source.toList.count '.' + 1 ∧
        (Path.parse source).arrayDepth =
          (source.toList.splitOn '.').countP fun piece => ['[', ']'] <:+ piece) ∧
      (∀ path : Path, Path.parse path.text = path ↔
        path.segments ≠ [] ∧ (∀ segment ∈ path.segments, '.' ∉ segment.key.toList) ∧
          ∀ segment ∈ path.segments, segment.isArray = false →
            ¬ ['[', ']'] <:+ segment.key.toList) ∧
      (∀ p q : Path, p.WellFormed → q.WellFormed → p.text = q.text → p = q) ∧
      (∀ source : String, ∃! path : Path, path.WellFormed ∧ path.text = source) ∧
      ∀ path : Path, path.toDoc = .str path.text ∧
        (Path.ofDoc? path.toDoc = some path ↔ path.WellFormed) := by
  refine ⟨?_, ?_, ?_, ?_, ?_⟩
  · intro source
    refine ⟨Path.text_parse source, ?_, Path.arrayDepth_parse source⟩
    rw [Path.length, Path.segments_parse, List.length_map, Path.length_splitOn]
  · intro path
    rw [Path.parse_text_iff]
    constructor
    · intro wellFormed
      exact ⟨wellFormed.nonempty, fun segment member => (wellFormed.segments segment member).noDot,
        fun segment member => (wellFormed.segments segment member).noMarker⟩
    · rintro ⟨nonempty, noDot, noMarker⟩
      exact ⟨nonempty, fun segment member => ⟨noDot segment member, noMarker segment member⟩⟩
  · intro p q wellFormed wellFormed' texts
    rw [← wellFormed.parse_text, texts, wellFormed'.parse_text]
  · intro source
    refine ⟨Path.parse source, ⟨Path.wellFormed_parse source, Path.text_parse source⟩, ?_⟩
    rintro path ⟨wellFormed, rfl⟩
    exact wellFormed.parse_text.symm
  · intro path
    refine ⟨rfl, ?_⟩
    rw [← Path.parse_text_iff]
    exact Option.some_inj

/-- Only the last marker belongs to the step, so a key may end in one if its step is an array step.
A plain key that ends in one is lost. -/
theorem parse_and_text_of_markers :
    let p := Path.parse "grid[][].a"
    let q : Path := ⟨[.array "grid[]", .field "a"]⟩
    let lost : Path := ⟨[.field "rows[]"]⟩
    (p.WellFormed ∧ q.WellFormed ∧ p.text = q.text) ∧ p = q ∧
      lost.text = "rows[]" ∧ Path.parse lost.text ≠ lost := by
  intro p q lost
  have texts : p.WellFormed ∧ q.WellFormed ∧ p.text = q.text := by decide +kernel
  obtain ⟨-, back, injective, -⟩ := parse_and_text_inverse
  refine ⟨texts, injective p q texts.1 texts.2.1 texts.2.2, rfl, ?_⟩
  intro same
  exact absurd ((back lost).mp same) (by decide +kernel)

end Waypoint
