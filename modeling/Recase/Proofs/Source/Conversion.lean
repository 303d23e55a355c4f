import Recase.Proofs.Source.Specifier
import Recase.Source.Conversion

/-!
# What the conversion of a text changes

A text is cut at its quotes and line breaks. A specifier stands between two quotes and holds no such
character, so it is one of the pieces, and a pass over the text changes whole pieces and nothing
else.

* `interleave_pieces`: a text is its pieces with its separators between them.
* `not_isBreak_of_mem_convertSpecifier`: a converted specifier is one piece again.
* `IsConversion`: a text with some of its pieces converted, and how many. Each pass makes one
  (`convertForm_isConversion`), and two make one with both counts (`IsConversion.trans`).
* `convertText_parts`: the exact effect of the three passes.
-/

namespace Recase

open Name Text

/-! ## Texts cut at separators -/

variable {isSeparator : Char → Bool} {c : Char} {xs ys cs : List Char}

theorem Text.pieces_append_cons (h : isSeparator c = true) :
    pieces isSeparator (xs ++ c :: ys) = pieces isSeparator xs ++ pieces isSeparator ys := by
  simp only [pieces_eq_splitOnP]
  exact List.splitOnP_append_cons xs ys h

theorem Text.pieces_of_not (h : ∀ x ∈ xs, isSeparator x = false) :
    pieces isSeparator xs = [xs] := by
  rw [pieces_eq_splitOnP, List.splitOnP_eq_singleton h]

/-- The pieces hold the characters at which the text is not cut. -/
theorem Text.flatten_pieces (isSeparator : Char → Bool) (cs : List Char) :
    (pieces isSeparator cs).flatten = cs.filter (!isSeparator ·) := by
  induction cs with
  | nil => rfl
  | cons c rest ih =>
    obtain ⟨first, more, hpieces⟩ := List.exists_cons_of_ne_nil (pieces_ne_nil isSeparator rest)
    rw [hpieces] at ih
    rw [pieces, hpieces]
    split <;> simp_all

/-- Pieces with separators between them, one after the other. -/
def Text.interleave : List (List Char) → List Char → List Char
  | [], _ => []
  | piece :: _, [] => piece
  | piece :: more, c :: separators => piece ++ c :: interleave more separators

/-- A text is its pieces with its separators between them. -/
theorem Text.interleave_pieces (isSeparator : Char → Bool) (cs : List Char) :
    interleave (pieces isSeparator cs) (cs.filter isSeparator) = cs := by
  induction cs with
  | nil => rfl
  | cons c rest ih =>
    by_cases hc : isSeparator c = true
    · rw [pieces, if_pos hc, List.filter_cons_of_pos hc, interleave, ih, List.nil_append]
    · obtain ⟨first, more, hpieces⟩ := List.exists_cons_of_ne_nil (pieces_ne_nil isSeparator rest)
      rw [hpieces] at ih
      rw [pieces, if_neg hc, hpieces, List.filter_cons_of_neg hc]
      cases hrest : rest.filter isSeparator <;> simp_all [interleave]

namespace Source

/-! ## Breaks -/

/-- A character that no specifier holds: a quote or a line break. -/
def isBreak (c : Char) : Bool := isMark c || c == '\r' || c == '\n'

theorem isInSpecifier_eq (c : Char) : isInSpecifier c = !isBreak c := by
  simp [isInSpecifier, isBreak, bne, Bool.and_assoc]

theorem isBreak_of_isMark (h : isMark c = true) : isBreak c = true := by simp [isBreak, h]

theorem toNat_of_isBreak (h : isBreak c = true) : c.toNat ≤ 95 ∧ c ≠ '-' ∧ c ≠ '/' := by
  simp only [isBreak, isMark, Bool.or_eq_true, beq_iff_eq] at h
  rcases h with ((rfl | rfl) | rfl) | rfl <;> decide

theorem mem_of_mem_fileName (hbreak : isBreak c = true) (h : c ∈ fileName cs) : c ∈ cs := by
  obtain ⟨hle, hne, -⟩ := toNat_of_isBreak hbreak
  rw [fileName_eq, List.mem_append] at h
  rw [← cutExtension_append cs, List.mem_append]
  exact h.imp_left (mem_of_mem_kebab hle hne)

theorem mem_of_mem_convertSpecifier (hbreak : isBreak c = true) (h : c ∈ convertSpecifier cs) :
    c ∈ cs := by
  by_cases hrelative : isRelativeSpecifier cs = true
  · have hslash : c ∈ (pieces (· == '/') (convertSpecifier cs)).flatten := by
      rw [flatten_pieces, List.mem_filter]
      exact ⟨h, by simpa using (toNat_of_isBreak hbreak).2.2⟩
    rw [pieces_convertSpecifier hrelative, ← List.flatMap_def, List.mem_flatMap] at hslash
    obtain ⟨piece, hpiece, hc⟩ := hslash
    have hmem : c ∈ (pieces (· == '/') cs).flatten :=
      List.mem_flatten_of_mem hpiece (mem_of_mem_fileName hbreak hc)
    rw [flatten_pieces] at hmem
    exact (List.mem_filter.mp hmem).1
  · rwa [convertSpecifier, if_neg hrelative] at h

/-- A converted specifier is one piece, as the specifier is. -/
theorem not_isBreak_of_mem_convertSpecifier (h : ∀ c ∈ cs, isBreak c = false) :
    ∀ c ∈ convertSpecifier cs, isBreak c = false := by
  intro c hc
  by_contra hbreak
  rw [Bool.not_eq_false] at hbreak
  exact absurd (h c (mem_of_mem_convertSpecifier hbreak hc)) (by simp [hbreak])

/-! ## Pieces before and after -/

/-- The pieces of two texts, some of them converted and all others the same, and how many are
not. -/
inductive Converted : List (List Char) → List (List Char) → Nat → Prop
  | nil : Converted [] [] 0
  | kept (piece : List Char) {ps ps' : List (List Char)} {n : Nat} :
      Converted ps ps' n → Converted (piece :: ps) (piece :: ps') n
  | changed {piece : List Char} {ps ps' : List (List Char)} {n : Nat} :
      convertSpecifier piece ≠ piece → Converted ps ps' n →
        Converted (piece :: ps) (convertSpecifier piece :: ps') (n + 1)

namespace Converted

variable {ps ps' ps'' qs qs' : List (List Char)} {n m : Nat}

theorem refl (ps : List (List Char)) : Converted ps ps 0 := by
  induction ps with
  | nil => exact .nil
  | cons piece ps ih => exact .kept piece ih

theorem append (h : Converted ps ps' n) (hqs : Converted qs qs' m) :
    Converted (ps ++ qs) (ps' ++ qs') (n + m) := by
  induction h with
  | nil => simpa using hqs
  | kept piece _ ih => exact .kept piece ih
  | changed hne _ ih => rw [Nat.add_right_comm]; exact .changed hne ih

theorem convert (piece : List Char) (h : Converted ps ps' n) :
    Converted (piece :: ps) (convertSpecifier piece :: ps')
      (if convertSpecifier piece = piece then n else n + 1) := by
  split
  · rename_i hsame
    rw [hsame]
    exact .kept piece h
  · rename_i hne
    exact .changed hne h

/-- No piece is converted twice, so that the counts add up. -/
theorem trans (h : Converted ps ps' n) (h' : Converted ps' ps'' m) : Converted ps ps'' (n + m) := by
  induction h generalizing ps'' m with
  | nil => simpa using h'
  | kept piece _ ih =>
    cases h' with
    | kept _ h' => exact .kept piece (ih h')
    | changed hne h' => exact .changed hne (ih h')
  | changed hne _ ih =>
    rw [Nat.add_right_comm]
    cases h' with
    | kept _ h' => exact .changed hne (ih h')
    | changed hagain _ => exact absurd (convertSpecifier_convertSpecifier _) hagain

theorem forall₂ (h : Converted ps ps' n) :
    List.Forall₂ (fun piece converted => converted = piece ∨
      isRelativeSpecifier piece = true ∧ converted = convertSpecifier piece) ps ps' := by
  induction h with
  | nil => exact .nil
  | kept piece _ ih => exact .cons (.inl rfl) ih
  | changed hne _ ih =>
    refine .cons (.inr ⟨?_, rfl⟩) ih
    by_contra hrelative
    exact hne (if_neg hrelative)

theorem countP_zip (h : Converted ps ps' n) : (ps.zip ps').countP (fun p => p.1 ≠ p.2) = n := by
  induction h with
  | nil => rfl
  | kept piece _ ih => simpa using ih
  | changed hne _ ih => simpa [Ne.symm hne] using ih

theorem eq_zero_iff (h : Converted ps ps' n) : n = 0 ↔ ps' = ps := by
  induction h with
  | nil => simp
  | kept piece _ ih => simpa using ih
  | changed hne _ _ => simp [hne]

end Converted

/-- A text with `n` of its pieces converted and its separators as they are. -/
structure IsConversion (cs cs' : List Char) (n : Nat) : Prop where
  breaks : cs'.filter isBreak = cs.filter isBreak
  pieces : Converted (pieces isBreak cs) (pieces isBreak cs') n

namespace IsConversion

variable {cs' cs'' : List Char} {n m : Nat}

theorem refl (cs : List Char) : IsConversion cs cs 0 := ⟨rfl, .refl _⟩

theorem trans (h : IsConversion cs cs' n) (h' : IsConversion cs' cs'' m) :
    IsConversion cs cs'' (n + m) := ⟨h'.breaks.trans h.breaks, h.pieces.trans h'.pieces⟩

theorem eq_zero_iff (h : IsConversion cs cs' n) : n = 0 ↔ cs' = cs := by
  rw [h.pieces.eq_zero_iff]
  refine ⟨fun hpieces => ?_, fun he => he ▸ rfl⟩
  rw [← interleave_pieces isBreak cs', hpieces, h.breaks, interleave_pieces]

end IsConversion

/-! ## The passes -/

theorem quotedSpecifier?_facts {mark : Char} {specifier rest : List Char}
    (h : quotedSpecifier? cs = some (mark, specifier, rest)) :
    isMark mark = true ∧ ∀ c ∈ specifier, isBreak c = false := by
  unfold quotedSpecifier? at h
  split at h
  · simp at h
  · rename_i m inner
    split at h
    · rename_i hmark
      split at h
      · simp at h
      · simp at h
      · rename_i c cs closing after htake hdrop
        split at h
        · simp only [Option.some.injEq, Prod.mk.injEq] at h
          obtain ⟨rfl, rfl, rfl⟩ := h
          refine ⟨hmark, fun x hx => ?_⟩
          have hin := List.mem_takeWhile_imp (htake ▸ hx)
          simpa [isInSpecifier_eq] using hin
        · simp at h
    · simp at h

/-- A reference is a head, a quote, a piece and a quote. -/
theorem referenceAfter?_facts {form : ReferenceForm} {previous? : Option Char} {r : Reference}
    (h : referenceAfter? form previous? cs = some r) :
    cs = r.head ++ r.mark :: (r.specifier ++ r.mark :: r.rest) ∧ isBreak r.mark = true ∧
      ∀ c ∈ r.specifier, isBreak c = false := by
  have href : reference? form cs = some r := by
    unfold referenceAfter? at h
    split at h
    · rename_i s hs
      split at h
      · simpa [hs] using h
      · simp at h
    · simp at h
  refine ⟨reference?_eq href, ?_⟩
  unfold reference? at href
  split at href
  · simp at href
  · split at href
    · simp at href
    · rename_i mark specifier rest hquoted
      split at href
      · simp at href
      · simp only [Option.some.injEq] at href
        obtain ⟨hmark, hspecifier⟩ := quotedSpecifier?_facts hquoted
        subst href
        exact ⟨isBreak_of_isMark hmark, hspecifier⟩

/-- One pass converts whole pieces, and the first one never: a quote stands before a specifier. -/
theorem convertForm_converted (form : ReferenceForm) (previous? : Option Char) (cs : List Char) :
    (convertForm form previous? cs).1.filter isBreak = cs.filter isBreak ∧
      ∃ first ps ps', pieces isBreak cs = first :: ps ∧
        pieces isBreak (convertForm form previous? cs).1 = first :: ps' ∧
        Converted ps ps' (convertForm form previous? cs).2 := by
  fun_induction convertForm form previous? cs with
  | case1 => exact ⟨rfl, [], [], [], rfl, rfl, .nil⟩
  | case2 previous? c rest r href converted text changes hpass ih =>
    obtain ⟨hcs, hmark, hspecifier⟩ := referenceAfter?_facts href
    have hconverted := not_isBreak_of_mem_convertSpecifier hspecifier
    rw [hpass] at ih
    obtain ⟨hbreaks, first, ps, ps', hbefore, hafter, hps⟩ := ih
    -- the head of the reference may have line breaks in it, and stays as it is
    obtain ⟨start, more, hhead⟩ := List.exists_cons_of_ne_nil (pieces_ne_nil isBreak r.head)
    have hcut : ∀ {piece text : List Char}, (∀ c ∈ piece, isBreak c = false) →
        pieces isBreak (r.head ++ r.mark :: (piece ++ r.mark :: text)) =
            start :: (more ++ piece :: pieces isBreak text) ∧
          (r.head ++ r.mark :: (piece ++ r.mark :: text)).filter isBreak =
            r.head.filter isBreak ++ r.mark :: r.mark :: text.filter isBreak := by
      intro piece text hpiece
      have hnone : piece.filter isBreak = [] := List.filter_eq_nil_iff.mpr (by simpa using hpiece)
      rw [pieces_append_cons hmark, pieces_append_cons hmark, pieces_of_not hpiece, hhead]
      simp [List.filter_append, List.filter_cons_of_pos hmark, hnone]
    rw [hcs]
    refine ⟨by rw [(hcut hconverted).2, (hcut hspecifier).2, hbreaks], start, _, _,
      (hcut hspecifier).1, (hcut hconverted).1, ?_⟩
    rw [hbefore, hafter]
    simpa using (Converted.refl more).append (.convert r.specifier (.kept first hps))
  | case3 previous? c rest hnone text changes hpass ih =>
    rw [hpass] at ih
    obtain ⟨hbreaks, first, ps, ps', hbefore, hafter, hps⟩ := ih
    by_cases hc : isBreak c = true
    · refine ⟨by simp [hc, hbreaks], [], first :: ps, first :: ps', ?_, ?_, .kept first hps⟩
      · rw [pieces, if_pos hc, hbefore]
      · rw [pieces, if_pos hc, hafter]
    · refine ⟨by simp [hc, hbreaks], c :: first, ps, ps', ?_, ?_, hps⟩
      · rw [pieces, if_neg hc, hbefore]
      · rw [pieces, if_neg hc, hafter]

theorem convertForm_isConversion (form : ReferenceForm) (previous? : Option Char) (cs : List Char) :
    IsConversion cs (convertForm form previous? cs).1 (convertForm form previous? cs).2 := by
  obtain ⟨hbreaks, first, ps, ps', hbefore, hafter, hps⟩ := convertForm_converted form previous? cs
  refine ⟨hbreaks, ?_⟩
  rw [hbefore, hafter]
  exact .kept first hps

theorem convertChars_isConversion (cs : List Char) :
    IsConversion cs (convertChars cs).1 (convertChars cs).2 := by
  have key : ∀ (forms : List ReferenceForm) (text : List Char) (changes : Nat),
      IsConversion cs text changes →
      let result := forms.foldl (fun before form =>
        let after := convertForm form none before.1
        (after.1, before.2 + after.2)) (text, changes)
      IsConversion cs result.1 result.2 := by
    intro forms
    induction forms with
    | nil => exact fun _ _ h => h
    | cons form forms ih =>
      exact fun text _ h => ih _ _ (h.trans (convertForm_isConversion form none text))
  exact key referenceForms cs 0 (.refl cs)

/-! ## Whole texts -/

theorem convertText_isConversion (text : String) :
    IsConversion text.toList (convertText text).1.toList (convertText text).2 := by
  rw [convertText, String.toList_ofList]
  exact convertChars_isConversion text.toList

/-- The quotes and line breaks of a text. -/
def breaks (text : String) : List Char := text.toList.filter isBreak

/-- The pieces of a text between its quotes and line breaks. -/
def parts (text : String) : List (List Char) := pieces isBreak text.toList

/-- The exact effect of the conversion of a text: its quotes and line breaks stay, each piece
between them stays or is a specifier of a file and converted, and the count is that of the pieces
that differ. -/
theorem convertText_parts (text : String) :
    breaks (convertText text).1 = breaks text ∧
      List.Forall₂ (fun piece converted => converted = piece ∨
        isRelativeSpecifier piece = true ∧ converted = convertSpecifier piece)
        (parts text) (parts (convertText text).1) ∧
      (convertText text).2 =
        ((parts text).zip (parts (convertText text).1)).countP (fun p => p.1 ≠ p.2) ∧
      ((convertText text).2 = 0 ↔ (convertText text).1 = text) := by
  have h := convertText_isConversion text
  refine ⟨h.breaks, h.pieces.forall₂, h.pieces.countP_zip.symm, ?_⟩
  rw [h.eq_zero_iff, String.toList_inj]

example : convertText "import a from './FooBar'\nconst b = require( '../B.ts' ), c = require('C')" =
    ("import a from './foo-bar'\nconst b = require( '../b.ts' ), c = require('C')", 2) := by
  decide +kernel

end Source

end Recase
