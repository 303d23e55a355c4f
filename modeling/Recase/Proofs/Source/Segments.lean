import Recase.Proofs.Name.Extension
import Recase.Proofs.Path.Text
import Recase.Source.Conversion

/-!
# The segments of a specifier

* `convertSegment_eq_fileName`: the rule for segments is the rule for files, whether a segment is a
  step, has an extension, or has none.
* `pieces_convertSpecifier`: a relative specifier is converted segment by segment, and
  `convertSpecifier_convertSpecifier` only once.
* `KeepsShape`: a specifier with as many segments, the same steps at the same places, and a first
  dot or slash where there was one (`convertSpecifier_keepsShape`).
-/

namespace Recase.Source

open Name Text

variable {cs : List Char} {c : Char}

/-! ## One segment -/

/-- The rule for files makes an empty segment or one of dots of no other. -/
theorem fileName_eq_step_iff {segment step : List Char} (h : step ∈ [[], ['.'], ['.', '.']]) :
    fileName segment = step ↔ segment = step := by
  have hmark : ∀ c ∈ step, IsMark c := by
    simp only [List.mem_cons, List.not_mem_nil, or_false] at h
    rcases h with rfl | rfl | rfl <;> simp [IsMark]
  constructor
  · intro heq
    have hsame : fileName segment = segment := fileName_of_isMark (heq ▸ hmark)
    exact hsame.symm.trans heq
  · rintro rfl
    exact fileName_of_isSmall fun c hc => isSmall_of_isMark (hmark c hc)

/-- A segment is converted as a file name is. -/
theorem convertSegment_eq_fileName (segment : List Char) :
    convertSegment segment = fileName segment := by
  rw [convertSegment]
  split_ifs with hstep hext
  · -- a step
    refine ((fileName_eq_step_iff ?_).mpr rfl).symm
    simpa [or_assoc, or_comm, or_left_comm] using hstep
  · -- a name with an extension
    rfl
  · -- a name without one
    have hnil : (cutExtension segment).2 = [] := by simpa using hext
    have happ := cutExtension_append segment
    rw [hnil, List.append_nil] at happ
    rw [fileName_eq, hnil, happ, List.append_nil]

/-! ## All segments -/

theorem isRelativeSpecifier_iff :
    isRelativeSpecifier cs = true ↔ cs.head? = some '.' ∨ cs.head? = some '/' := by
  simp [isRelativeSpecifier]

theorem convertSpecifier_of_not_isRelativeSpecifier (h : ¬ isRelativeSpecifier cs = true) :
    convertSpecifier cs = cs := if_neg h

/-- The segments of a relative specifier are converted one by one. -/
theorem pieces_convertSpecifier (h : isRelativeSpecifier cs = true) :
    pieces (· == '/') (convertSpecifier cs) = (pieces (· == '/') cs).map fileName := by
  rw [convertSpecifier, if_pos h, joinPieces_eq_intercalate, pieces_intercalate,
    List.map_congr_left fun piece _ => convertSegment_eq_fileName piece]
  · simpa using pieces_ne_nil _ cs
  · intro part hpart
    obtain ⟨piece, hpiece, rfl⟩ := List.mem_map.mp hpart
    rw [convertSegment_eq_fileName, mem_fileName_iff_of_isMark (by decide)]
    exact fun hm => by simpa using not_of_mem_pieces hpiece _ hm

/-- A dot or a slash in front stays there. -/
theorem head?_convertSpecifier (hc : c = '.' ∨ c = '/') (h : cs.head? = some c) :
    (convertSpecifier cs).head? = some c := by
  have hrelative : isRelativeSpecifier cs = true := by
    rw [isRelativeSpecifier_iff, h]
    simpa using hc
  obtain ⟨rest, rfl⟩ := List.head?_eq_some_iff.mp h
  obtain ⟨first, more, hpieces⟩ := List.exists_cons_of_ne_nil (pieces_ne_nil (· == '/') rest)
  rw [convertSpecifier, if_pos hrelative, pieces]
  rcases hc with rfl | rfl
  · -- the first segment begins with the dot, and so does its converted form
    have hfirst : (fileName ('.' :: first)).head? = some '.' :=
      (head?_fileName_iff_of_isMark (.inl rfl)).mpr rfl
    rw [if_neg (by simp), hpieces, List.map_cons, convertSegment_eq_fileName]
    cases more with
    | nil => exact hfirst
    | cons piece more => simp [joinPieces, List.head?_append, hfirst]
  · -- the first segment is empty, and others follow
    rw [if_pos (by simp), hpieces]
    rfl

/-- The specifier of a file stays one. -/
theorem isRelativeSpecifier_convertSpecifier (h : isRelativeSpecifier cs = true) :
    isRelativeSpecifier (convertSpecifier cs) = true := by
  rw [isRelativeSpecifier_iff] at h ⊢
  exact h.imp (head?_convertSpecifier (.inl rfl)) (head?_convertSpecifier (.inr rfl))

/-- Converting a specifier twice is converting it once. -/
theorem convertSpecifier_convertSpecifier (cs : List Char) :
    convertSpecifier (convertSpecifier cs) = convertSpecifier cs := by
  by_cases h : isRelativeSpecifier cs = true
  · have htwice : fileName ∘ fileName = fileName := funext fileName_fileName
    rw [← joinPieces_pieces '/' (convertSpecifier (convertSpecifier cs)),
      pieces_convertSpecifier (isRelativeSpecifier_convertSpecifier h), pieces_convertSpecifier h,
      List.map_map, htwice, ← pieces_convertSpecifier h, joinPieces_pieces]
  · rw [convertSpecifier_of_not_isRelativeSpecifier h,
      convertSpecifier_of_not_isRelativeSpecifier h]

/-! ## The shape of a specifier -/

/-- The second specifier has as many segments as the first, the same steps at the same places, and
the dot or slash in front that the first one has. -/
structure KeepsShape (cs cs' : List Char) : Prop where
  length : (pieces (· == '/') cs').length = (pieces (· == '/') cs).length
  steps : ∀ i : Nat, ∀ step ∈ [[], ['.'], ['.', '.']],
    (pieces (· == '/') cs')[i]? = some step ↔ (pieces (· == '/') cs)[i]? = some step
  head : ∀ c, c = '.' ∨ c = '/' → cs.head? = some c → cs'.head? = some c

theorem KeepsShape.refl (cs : List Char) : KeepsShape cs cs where
  length := rfl
  steps _ _ _ := Iff.rfl
  head _ _ h := h

theorem keepsShape_of_isRelativeSpecifier (h : isRelativeSpecifier cs = true) :
    KeepsShape cs (convertSpecifier cs) where
  length := by rw [pieces_convertSpecifier h, List.length_map]
  steps i step hstep := by
    rw [pieces_convertSpecifier h, List.getElem?_map, Option.map_eq_some_iff]
    constructor
    · rintro ⟨segment, hsegment, heq⟩
      rw [hsegment, (fileName_eq_step_iff hstep).mp heq]
    · exact fun hsame => ⟨step, hsame, (fileName_eq_step_iff hstep).mpr rfl⟩
  head _ := head?_convertSpecifier

/-- A specifier is converted once and for all and keeps its shape. That of a package stays as it is,
and that of a file has every segment converted as a file name is. -/
theorem convertSpecifier_keepsShape (cs : List Char) :
    convertSpecifier (convertSpecifier cs) = convertSpecifier cs ∧
      KeepsShape cs (convertSpecifier cs) ∧
      (cs.head? ≠ some '.' ∧ cs.head? ≠ some '/' → convertSpecifier cs = cs) ∧
      (cs.head? = some '.' ∨ cs.head? = some '/' →
        pieces (· == '/') (convertSpecifier cs) = (pieces (· == '/') cs).map fileName) := by
  refine ⟨convertSpecifier_convertSpecifier cs, ?_, fun hpackage => ?_, fun hfile => ?_⟩
  · by_cases h : isRelativeSpecifier cs = true
    · exact keepsShape_of_isRelativeSpecifier h
    · rw [convertSpecifier_of_not_isRelativeSpecifier h]
      exact .refl cs
  · refine convertSpecifier_of_not_isRelativeSpecifier fun h => ?_
    exact (isRelativeSpecifier_iff.mp h).elim hpackage.1 hpackage.2
  · exact pieces_convertSpecifier (isRelativeSpecifier_iff.mpr hfile)

/-- A package, and a file whose specifier has empty segments, dots alone, a hidden name and one with
dots. -/
theorem convertSpecifier_keepsShape_hidden :
    convertSpecifier "@Scope/fooBar.ts".toList = "@Scope/fooBar.ts".toList ∧
      pieces (· == '/') (convertSpecifier ".././/.../.Foo.d.ts/HTTPServer/fooBar.D.ts".toList) =
        (pieces (· == '/') ".././/.../.Foo.d.ts/HTTPServer/fooBar.D.ts".toList).map fileName := by
  refine ⟨(convertSpecifier_keepsShape _).2.2.1 ⟨by decide, by decide⟩, ?_⟩
  exact (convertSpecifier_keepsShape _).2.2.2 (.inl (by decide))

end Recase.Source
