import Recase.Proofs.Source.Spans

/-!
# A conversion after a conversion

* `IsSettled`: a pass would change nothing wherever it came from. A call is followed by a
  parenthesis, so that what stands behind it is no specifier of a file; for the forms of calls this
  is all that a pass that changes nothing can be (`isSettled_of_convertSpans`), and other calls keep
  it (`IsSettled.convertSpans`).
* `convertSpans_eq_of_respelled`: a pass still changes nothing when other passes have put no head of
  a reference at the end of a stretch and taken none away.
* `convertText_again`: the conversion of a converted text changes nothing if and only if the pass
  over from clauses does not.
-/

namespace Recase

open Name Text

namespace Source

variable {form other : ReferenceForm} {first span before after : List Char} {mark closing : Char}
  {spans : List (Char × List Char)}

/-! ## A pass after another -/

/-- Nothing would change wherever a pass came from: all stretches are converted that a reference of
the form can have, whether or not one before it takes its quote. -/
def IsSettled (form : ReferenceForm) : List Char → List (Char × List Char) → Prop
  | _, [] => True
  | before, (mark, span) :: more =>
    (∀ closing after rest, more = (closing, after) :: rest →
      form.takes before mark span closing after = true → convertSpecifier span = span) ∧
      IsSettled form span more

theorem IsSettled.convertSpans_eq (h : IsSettled form before spans) :
    convertSpans form before spans = spans := by
  fun_induction convertSpans form before spans with
  | case1 before mark span closing after more htakes ih =>
    rw [h.1 _ _ _ rfl htakes, ih h.2.2]
  | case2 before mark span closing after more _ ih => rw [ih h.2]
  | case3 => rfl

/-- Behind a call there is no specifier of a file. So a pass over calls that changes nothing would
change nothing wherever it came from. -/
theorem isSettled_of_convertSpans (hcall : form.isCall = true)
    (h : convertSpans form before spans = spans) :
    IsSettled form before spans := by
  fun_induction convertSpans form before spans with
  | case1 before mark span closing after more htakes ih =>
    rw [ReferenceForm.takes, Bool.and_eq_true] at htakes
    have hafter : closesCall after = true := (fits_iff.mp htakes.2).2.2.2 hcall
    simp only [List.cons.injEq, Prod.mk.injEq, true_and] at h
    exact ⟨fun _ _ _ _ _ => h.1, fun _ _ _ _ _ => convertSpecifier_of_closesCall hafter, ih h.2⟩
  | case2 before mark span closing after more htakes ih =>
    simp only [List.cons.injEq, true_and] at h
    refine ⟨?_, ih h⟩
    rintro _ _ _ hmore hagain
    cases hmore
    exact absurd hagain htakes
  | case3 before spans hshort =>
    cases spans with
    | nil => trivial
    | cons s more =>
      cases more with
      | nil => exact ⟨by simp, trivial⟩
      | cons s more => exact absurd rfl (hshort _ _ _ _ _)

/-- A pass over other calls keeps this. The keyword that a converted specifier ends in stands before
what closes a call. -/
theorem IsSettled.convertSpans (hother : other.isCall = true) (h : IsSettled form before spans) :
    IsSettled form before (convertSpans other before spans) := by
  fun_induction Source.convertSpans other before spans with
  | case1 before mark span closing after more htakes ih =>
    rw [ReferenceForm.takes, Bool.and_eq_true] at htakes
    have hafter : closesCall after = true := (fits_iff.mp htakes.2).2.2.2 hother
    exact ⟨fun _ _ _ _ _ => convertSpecifier_convertSpecifier span,
      fun _ _ _ _ _ => convertSpecifier_of_closesCall hafter, ih h.2.2⟩
  | case2 before mark span closing after more htakes ih =>
    refine ⟨?_, ih h.2⟩
    intro closing' after' rest hmore htakes'
    obtain ⟨span', more', hcons, hspan'⟩ := convertSpans_cons other span closing after more
    rw [hcons] at hmore
    cases hmore
    refine h.1 _ _ _ rfl ?_
    rcases hspan' with rfl | rfl
    · exact htakes'
    · rwa [ReferenceForm.takes, fits_convertSpecifier_after] at htakes'
  | case3 => exact h

/-- A pass still changes nothing when specifiers have been converted since, if none of them has got
the head of a reference at its end by that, and none has lost one. -/
theorem convertSpans_eq_of_respelled {before' : List Char} {spans' : List (Char × List Char)}
    (h : convertSpans form before spans = spans)
    (hbefore : form.opens none before' = form.opens none before)
    (hspans : List.Forall₂ (fun s s' => Respelled s s' ∧ form.opens none s'.2 = form.opens none s.2)
      spans spans') : convertSpans form before' spans' = spans' := by
  fun_induction Source.convertSpans form before spans generalizing before' spans' with
  | case1 before mark span closing after more htakes ih =>
    simp only [List.cons.injEq, Prod.mk.injEq, true_and] at h
    obtain ⟨hspan, hmore⟩ := h
    cases hspans with
    | @cons _ s' _ tail' hs htail =>
      cases htail with
      | @cons _ t' _ more' ht hmore' =>
        obtain ⟨mark', span'⟩ := s'
        obtain ⟨closing', after'⟩ := t'
        obtain ⟨⟨rfl, hspan'⟩, -⟩ := hs
        obtain ⟨hafter', hopens⟩ := ht
        obtain rfl : span' = span := hspan'.elim id fun hconverted => hconverted.2.trans hspan
        have hagain : form.takes before' mark' span' closing' after' = true := by
          rwa [ReferenceForm.takes, hbefore, hafter'.fits_after]
        rw [convertSpans, if_pos hagain, hspan, ih hmore hopens hmore']
  | case2 before mark span closing after more htakes ih =>
    simp only [List.cons.injEq, true_and] at h
    cases hspans with
    | @cons _ s' _ tail' hs htail =>
      cases htail with
      | @cons _ t' _ more' ht hmore' =>
        obtain ⟨mark', span'⟩ := s'
        obtain ⟨closing', after'⟩ := t'
        have hagain : ¬ form.takes before' mark' span' closing' after' = true := by
          rw [ReferenceForm.takes, hbefore, ht.1.fits_after, Bool.and_eq_true]
          rintro ⟨hhead, hfits⟩
          refine htakes ?_
          rw [ReferenceForm.takes, hhead, hs.1.fits_of_fits hfits, Bool.and_true]
        rw [convertSpans, if_neg hagain, ih h hs.2 (.cons ht hmore')]
  | case3 before spans hshort =>
    rw [convertSpans]
    rintro mark span closing after more rfl
    cases hspans with
    | cons _ htail =>
      cases htail with
      | cons _ _ => exact hshort _ _ _ _ _ rfl

theorem Respelled.opens_eq {s s' s'' : Char × List Char} (h : Respelled s s')
    (h' : Respelled s' s'') (hopens : form.opens none s''.2 = form.opens none s.2) :
    form.opens none s''.2 = form.opens none s'.2 := by
  rcases h.2 with hsame | ⟨-, hconverted⟩
  · rw [hopens, hsame]
  · rcases h'.2 with hsame' | ⟨-, hconverted'⟩
    · rw [hsame']
    · rw [hconverted', hconverted, convertSpecifier_convertSpecifier]

/-! ## The three passes -/

/-- The pieces of a stretch that is converted are the stretch itself, before and after. So what is
known of the pieces of two texts is known of their stretches. -/
theorem forall₂_opens {spans' : List (Char × List Char)} (h : List.Forall₂ Respelled spans spans')
    (hpieces : ∀ p ∈ (spans.flatMap fun s => pieces isBreak s.2).zip
        (spans'.flatMap fun s => pieces isBreak s.2),
      form.opens none p.2 = form.opens none p.1) :
    List.Forall₂ (fun s s' => form.opens none s'.2 = form.opens none s.2) spans spans' := by
  induction h with
  | nil => exact .nil
  | @cons s s' _ _ hs _ ih =>
    rw [List.flatMap_cons, List.flatMap_cons] at hpieces
    rcases hs.2 with hsame | ⟨hspecifier, hconverted⟩
    · rw [hsame, List.zip_append rfl] at hpieces
      exact .cons (by rw [hsame]) (ih fun p hp => hpieces p (List.mem_append_right _ hp))
    · have hconverted' := isInSpecifier_of_mem_convertSpecifier hspecifier
      simp only [isInSpecifier_eq, Bool.not_eq_true'] at hspecifier hconverted'
      rw [hconverted, pieces_of_not hspecifier, pieces_of_not hconverted'] at hpieces
      rw [List.singleton_append, List.singleton_append, List.zip_cons_cons,
        List.forall_mem_cons] at hpieces
      exact .cons (hconverted ▸ hpieces.1) (ih hpieces.2)

theorem forall₂_opens_of_trans {spans' spans'' : List (Char × List Char)}
    (h : List.Forall₂ Respelled spans spans') (h' : List.Forall₂ Respelled spans' spans'')
    (hopens : List.Forall₂ (fun s s' => form.opens none s'.2 = form.opens none s.2) spans spans'') :
    List.Forall₂ (fun s s' => Respelled s s' ∧ form.opens none s'.2 = form.opens none s.2)
        spans' spans'' := by
  induction h generalizing spans'' with
  | nil => cases h'; exact .nil
  | cons hs _ ih =>
    cases h' with
    | cons hs' h' =>
      cases hopens with
      | cons hopens hmore => exact .cons ⟨hs', hs.opens_eq hs' hopens⟩ (ih h' hmore)

/-- What the three passes make of the stretches of a text. -/
def convertAllSpans (first : List Char) (spans : List (Char × List Char)) :
    List (Char × List Char) :=
  referenceForms.foldl (fun spans form => convertSpans form first spans) spans

theorem convertChars_eq (cs : List Char) :
    convertChars cs =
      ((convertForm .importCall none (convertForm .requireCall none
          (convertForm .fromClause none cs).1).1).1,
        0 + (convertForm .fromClause none cs).2 +
          (convertForm .requireCall none (convertForm .fromClause none cs).1).2 +
          (convertForm .importCall none (convertForm .requireCall none
            (convertForm .fromClause none cs).1).1).2) := rfl

theorem convertChars_joinSpans (h : IsCut first spans) :
    (convertChars (joinSpans first spans)).1 = joinSpans first (convertAllSpans first spans) ∧
      IsCut first (convertAllSpans first spans) := by
  have hpass : ∀ {form spans}, form ∈ referenceForms → IsCut first spans →
      (convertForm form none (joinSpans first spans)).1 =
          joinSpans first (convertSpans form first spans) :=
    fun hform hcut => convertForm_joinSpans (isWord_of_mem hform) rfl hcut
  have h₁ := h.convertSpans .fromClause first
  have h₂ := h₁.convertSpans .requireCall first
  refine ⟨?_, h₂.convertSpans .importCall first⟩
  rw [convertChars_eq, hpass (by simp [referenceForms]) h, hpass (by simp [referenceForms]) h₁,
    hpass (by simp [referenceForms]) h₂]
  rfl

/-- The passes over calls change nothing in a converted text. -/
theorem convertAllSpans_eq (h : convertSpans .fromClause first (convertAllSpans first spans) =
      convertAllSpans first spans) :
    convertAllSpans first (convertAllSpans first spans) = convertAllSpans first spans := by
  have hrequire : IsSettled .requireCall first (convertAllSpans first spans) :=
    (isSettled_of_convertSpans rfl (convertSpans_convertSpans ..)).convertSpans rfl
  have himport : convertSpans .importCall first (convertAllSpans first spans) =
      convertAllSpans first spans := convertSpans_convertSpans ..
  rw [convertAllSpans, referenceForms, List.foldl_cons, h, List.foldl_cons,
    hrequire.convertSpans_eq, List.foldl_cons, himport]
  rfl

theorem convertChars_eq_iff {cs : List Char} :
    convertChars (convertChars cs).1 = ((convertChars cs).1, 0) ↔
      (convertForm .fromClause none (convertChars cs).1).1 = (convertChars cs).1 := by
  constructor
  · intro h
    have hcount := congrArg Prod.snd h
    rw [convertChars_eq (convertChars cs).1] at hcount
    exact (convertForm_isConversion ..).eq_zero_iff.mp (by dsimp only at hcount; omega)
  · intro h
    obtain ⟨first, spans, rfl, hcut⟩ := exists_joinSpans cs
    obtain ⟨hall, hcut'⟩ := convertChars_joinSpans hcut
    rw [hall, convertForm_joinSpans (isWord_of_mem (by simp [referenceForms])) rfl hcut'] at h
    have hsame := ((hcut'.convertSpans .fromClause first).eq_of_joinSpans hcut' h).2
    have hagain := (convertChars_joinSpans hcut').1
    rw [convertAllSpans_eq hsame] at hagain
    rw [hall]
    exact Prod.ext hagain ((convertChars_isConversion _).eq_zero_iff.mpr hagain)

/-- The pass over from clauses finds nothing new in a converted text unless the conversion of a
specifier has put the head of a from clause at its end, or taken one away. -/
theorem convertForm_convertChars {cs : List Char}
    (h : ∀ p ∈ (pieces isBreak cs).zip (pieces isBreak (convertChars cs).1),
      ReferenceForm.fromClause.opens none p.2 = ReferenceForm.fromClause.opens none p.1) :
    (convertForm .fromClause none (convertChars cs).1).1 = (convertChars cs).1 := by
  obtain ⟨first, spans, rfl, hcut⟩ := exists_joinSpans cs
  obtain ⟨hall, hcut'⟩ := convertChars_joinSpans hcut
  rw [hall, pieces_joinSpans hcut, pieces_joinSpans hcut', List.zip_append rfl] at h
  have hfrom := forall₂_convertSpans .fromClause first spans
  have hcalls : List.Forall₂ Respelled (convertSpans .fromClause first spans)
      (convertAllSpans first spans) :=
    Respelled.forall₂_trans (forall₂_convertSpans .requireCall first _)
      (forall₂_convertSpans .importCall first _)
  have hopens := forall₂_opens (Respelled.forall₂_trans hfrom hcalls) fun p hp =>
    h p (List.mem_append_right _ hp)
  have hsame :
      convertSpans .fromClause first (convertAllSpans first spans) = convertAllSpans first spans :=
    convertSpans_eq_of_respelled (convertSpans_convertSpans ..) rfl
      (forall₂_opens_of_trans hfrom hcalls hopens)
  rw [hall, convertForm_joinSpans (isWord_of_mem (by simp [referenceForms])) rfl hcut', hsame]

/-- The conversion of a converted text changes nothing if and only if the pass over from clauses
does not, and it does not if no piece has the head of a from clause at its end that did not have it
before the first conversion, or the other way round. -/
theorem convertText_again (text : String) :
    (convertText (convertText text).1 = ((convertText text).1, 0) ↔
        (convertForm .fromClause none (convertText text).1.toList).1 =
          (convertText text).1.toList) ∧
      ((∀ p ∈ (parts text).zip (parts (convertText text).1),
          ReferenceForm.fromClause.opens none p.2 = ReferenceForm.fromClause.opens none p.1) →
        convertText (convertText text).1 = ((convertText text).1, 0)) := by
  have htext : (convertText text).1.toList = (convertChars text.toList).1 := String.toList_ofList
  have hiff : convertText (convertText text).1 = ((convertText text).1, 0) ↔
      (convertForm .fromClause none (convertText text).1.toList).1 =
          (convertText text).1.toList := by
    rw [htext, ← convertChars_eq_iff]
    simp only [convertText, String.toList_ofList, Prod.ext_iff, String.ofList_inj]
  refine ⟨hiff, fun h => hiff.mpr ?_⟩
  rw [htext]
  rw [parts, parts, htext] at h
  exact convertForm_convertChars h

theorem convertText_again_of_import :
    convertText "import a from './FooBar'" = ("import a from './foo-bar'", 1) ∧
    convertText "import a from './foo-bar'" = ("import a from './foo-bar'", 0) := by
  have hfirst : convertText "import a from './FooBar'" = ("import a from './foo-bar'", 1) := by
    decide +kernel
  have hagain := (convertText_again "import a from './FooBar'").2 (by decide +kernel)
  rw [hfirst] at hagain
  exact ⟨hfirst, hagain⟩

/-- A converted specifier ends in the keyword of a from clause. The second pass starts at it, so
that it goes on after the quote that the first one started at, and finds what the first one went
over. -/
theorem convertText_shifted :
    convertText "require('./dataFrom') from'./b from'./B'" =
      ("require('./data-from') from'./b from'./B'", 1) ∧
    convertText "require('./data-from') from'./b from'./B'" =
      ("require('./data-from') from'./b from'./b'", 1) := by
  decide +kernel

end Source

end Recase
