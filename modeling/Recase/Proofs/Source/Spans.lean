import Recase.Proofs.Source.Cut

/-!
# A pass over a text that is cut

A pass goes from stretch to stretch: the one behind a quote is a specifier if the head of a
reference ends the one before it, unless that is a specifier itself.

* `ReferenceForm.takes`: a pass takes the next stretch for a specifier.
* `convertSpans`: a pass over a text that is cut; `convertForm_joinSpans` is the pass over the text.
* `Respelled`: what a pass does to a stretch. `convertSpans_convertSpans`: a pass after itself
  changes nothing.
-/

namespace Recase

open Name Text

namespace Source

variable {first span after : List Char} {mark closing : Char} {spans more : List (Char × List Char)}

/-! ## A pass over a text that is cut -/

/-- Whether a reference of the form can have the stretch between two quotes for its specifier. -/
def ReferenceForm.fits (form : ReferenceForm) (mark : Char) (span : List Char) (closing : Char)
    (after : List Char) : Bool :=
  span != [] && span.all isInSpecifier && closing == mark && (!form.isCall || closesCall after)

/-- Whether a pass takes the stretch between two quotes for a specifier: it can be one, and the head
of a reference stands before it. -/
def ReferenceForm.takes (form : ReferenceForm) (before : List Char) (mark : Char) (span : List Char)
    (closing : Char) (after : List Char) : Bool :=
  form.opens none before && form.fits mark span closing after

/-- A pass over the stretches behind the first one. What stands behind a specifier is looked at
afresh. -/
def convertSpans (form : ReferenceForm) :
    List Char → List (Char × List Char) → List (Char × List Char)
  | before, (mark, span) :: (closing, after) :: more =>
    if form.takes before mark span closing after then
      (mark, convertSpecifier span) :: (closing, after) :: convertSpans form after more
    else (mark, span) :: convertSpans form span ((closing, after) :: more)
  | _, spans => spans

theorem fits_iff {form : ReferenceForm} : form.fits mark span closing after = true ↔
    span ≠ [] ∧ (∀ c ∈ span, isInSpecifier c = true) ∧ closing = mark ∧
      (form.isCall = true → closesCall after = true) := by
  simp only [ReferenceForm.fits, Bool.and_eq_true, bne_iff_ne, List.all_eq_true,
    beq_iff_eq, and_assoc]
  cases form.isCall <;> simp

theorem specifier?_joinSpans {form : ReferenceForm} (hmark : isMark mark = true)
    (h : IsCut span ((closing, after) :: more)) :
    form.specifier? (mark :: joinSpans span ((closing, after) :: more)) =
      if form.fits mark span closing after then some (mark, span, joinSpans after more)
      else none := by
  rw [ReferenceForm.specifier?, joinSpans, quotedSpecifier?_append hmark h.isMark h.first]
  simp only [ReferenceForm.fits, bne_iff_ne, Bool.and_eq_true, beq_iff_eq]
  split
  · simp_all [Option.filter, closesCall_joinSpans h.tail]
  · simp_all

section Pass

variable {form : ReferenceForm} {previous? : Option Char} {cs rest : List Char}

theorem convertForm_of_some {r : Reference} (h : referenceAfter? form previous? cs = some r) :
    (convertForm form previous? cs).1 =
      r.head ++ r.mark :: (convertSpecifier r.specifier ++ r.mark ::
        (convertForm form (some r.mark) r.rest).1) := by
  cases cs with
  | nil => simpa using length_rest_lt_of_referenceAfter? h
  | cons c rest =>
    rw [convertForm]
    split
    · rename_i r' h'
      obtain rfl : r = r' := by simpa [h] using h'
      rfl
    · rename_i h'
      simp [h] at h'

theorem convertForm_of_none {c : Char} (h : referenceAfter? form previous? (c :: cs) = none) :
    (convertForm form previous? (c :: cs)).1 = c :: (convertForm form (some c) cs).1 := by
  rw [convertForm]
  split
  · rename_i r h'
    simp [h] at h'
  · rfl

theorem referenceAfter?_eq (form : ReferenceForm) (previous? : Option Char) (cs : List Char) :
    referenceAfter? form previous? cs =
        if isWordStart previous? then reference? form cs else none := by
  unfold referenceAfter?
  cases reference? form cs <;> simp

theorem opens_of_isWordStart (h : isWordStart previous? = true) (cs : List Char) :
    form.opens previous? cs = form.opens none cs := by
  cases cs with
  | nil => rfl
  | cons c rest =>
    rw [ReferenceForm.opens, h, ReferenceForm.opens, show isWordStart none = true from rfl]

theorem convertForm_of_not (hcs : ∀ c ∈ cs, isMark c = false) :
    (convertForm form previous? cs).1 = cs := by
  induction cs generalizing previous? with
  | nil => rw [convertForm]
  | cons c cs ih =>
    have hnone : referenceAfter? form previous? (c :: cs) = none := by
      rw [referenceAfter?_eq, reference?_eq_map]
      cases hhead : form.head? (c :: cs) with
      | none => simp
      | some p =>
        have heq := head?_eq (hhead.trans rfl)
        have hquoted : quotedSpecifier? p.2 = none :=
          quotedSpecifier?_of_not fun x hx => hcs x (heq ▸ List.mem_append_right _ hx)
        simp [ReferenceForm.specifier?, hquoted]
    rw [convertForm_of_none hnone, ih fun c hc => hcs c (List.mem_cons_of_mem _ hc)]

variable (hform : form.IsWord)
include hform

/-- A pass comes to the first quote of a text. It converts what follows if that is a specifier with
the head of a reference before it. -/
theorem convertForm_append_mark {before : List Char} (hbefore : ∀ c ∈ before, isMark c = false)
    (hmark : isMark mark = true) :
    (convertForm form previous? (before ++ mark :: rest)).1 =
      match if form.opens previous? before then form.specifier? (mark :: rest) else none with
      | some p =>
        before ++ p.1 :: (convertSpecifier p.2.1 ++ p.1 :: (convertForm form (some p.1) p.2.2).1)
      | none => before ++ mark :: (convertForm form (some mark) rest).1 := by
  induction before generalizing previous? with
  | nil =>
    have hhead : form.isHead [] = false := by
      obtain ⟨c, word, hword⟩ := List.exists_cons_of_ne_nil hform.1
      simp [ReferenceForm.isHead, ReferenceForm.head?, hword, List.isPrefixOf?]
    have hnone : referenceAfter? form previous? ([] ++ mark :: rest) = none := by
      rw [referenceAfter?_eq, reference?_append_mark hform hmark hbefore, hhead]
      simp
    exact convertForm_of_none hnone
  | cons c before ih =>
    have hrest := @ih (some c) fun c hc => hbefore c (List.mem_cons_of_mem _ hc)
    have hafter : referenceAfter? form previous? (c :: before ++ mark :: rest) =
        if isWordStart previous? && form.isHead (c :: before) then
          (form.specifier? (mark :: rest)).map fun p => ⟨c :: before, p.1, p.2.1, p.2.2⟩
        else none := by
      rw [referenceAfter?_eq, reference?_append_mark hform hmark hbefore]
      cases isWordStart previous? <;> simp
    rw [ReferenceForm.opens]
    by_cases hopens : (isWordStart previous? && form.isHead (c :: before)) = true
    · rw [if_pos hopens] at hafter
      rw [hopens, Bool.true_or, if_pos rfl]
      cases hspecifier : form.specifier? (mark :: rest) with
      | some p =>
        rw [hspecifier] at hafter
        exact convertForm_of_some hafter
      | none =>
        rw [hspecifier] at hafter hrest
        rw [List.cons_append] at hafter ⊢
        rw [convertForm_of_none hafter, hrest]
        simp
    · rw [if_neg hopens] at hafter
      rw [Bool.not_eq_true] at hopens
      rw [List.cons_append] at hafter ⊢
      rw [hopens, Bool.false_or, convertForm_of_none hafter, hrest]
      split <;> rfl

/-- A pass over a text is one over its stretches. -/
theorem convertForm_joinSpans (hstart : isWordStart previous? = true) (h : IsCut first spans) :
    (convertForm form previous? (joinSpans first spans)).1 =
        joinSpans first (convertSpans form first spans) := by
  fun_induction convertSpans form first spans generalizing previous? with
  | case1 before mark span closing after more htakes ih =>
    rw [ReferenceForm.takes, Bool.and_eq_true] at htakes
    rw [joinSpans, convertForm_append_mark hform h.first h.isMark, opens_of_isWordStart hstart,
      if_pos htakes.1, specifier?_joinSpans h.isMark h.tail, if_pos htakes.2]
    obtain rfl : closing = mark := (fits_iff.mp htakes.2).2.2.1
    dsimp only
    rw [ih (isMark_facts h.isMark).2.2.2 h.tail.tail]
    rfl
  | case2 before mark span closing after more htakes ih =>
    have hnone : (if form.opens none before then
        form.specifier? (mark :: joinSpans span ((closing, after) :: more)) else none) = none := by
      rw [specifier?_joinSpans h.isMark h.tail]
      simp only [ReferenceForm.takes, Bool.and_eq_true, not_and] at htakes
      split
      · rename_i hopens
        exact if_neg (htakes hopens)
      · rfl
    rw [joinSpans, convertForm_append_mark hform h.first h.isMark,
      opens_of_isWordStart hstart, hnone]
    dsimp only
    rw [ih (isMark_facts h.isMark).2.2.2 h.tail]
    rfl
  | case3 before spans hshort =>
    cases spans with
    | nil => exact convertForm_of_not h.first
    | cons s more =>
      obtain ⟨mark, span⟩ := s
      cases more with
      | cons s more => exact absurd rfl (hshort _ _ _ _ _)
      | nil =>
        have hnone : form.specifier? (mark :: span) = none := by
          rw [ReferenceForm.specifier?, quotedSpecifier?_of_last h.tail.first]
          rfl
        rw [joinSpans, joinSpans, convertForm_append_mark hform h.first h.isMark, hnone, ite_self]
        dsimp only
        rw [convertForm_of_not h.tail.first]

end Pass

/-! ## A pass after a pass -/

variable {form other : ReferenceForm} {before : List Char}

theorem convertSpecifier_ne_nil (h : span ≠ []) : convertSpecifier span ≠ [] := by
  by_cases hrelative : isRelativeSpecifier span = true
  · intro hnil
    have := isRelativeSpecifier_convertSpecifier hrelative
    simp [hnil, isRelativeSpecifier] at this
  · rwa [convertSpecifier, if_neg hrelative]

theorem isInSpecifier_of_mem_convertSpecifier (h : ∀ c ∈ span, isInSpecifier c = true) :
    ∀ c ∈ convertSpecifier span, isInSpecifier c = true := by
  simp only [isInSpecifier_eq, Bool.not_eq_true'] at h ⊢
  exact not_isBreak_of_mem_convertSpecifier h

/-- A converted specifier is one again. -/
theorem fits_convertSpecifier (h : form.fits mark span closing after = true) :
    form.fits mark (convertSpecifier span) closing after = true := by
  obtain ⟨hne, hall, hmark, hcall⟩ := fits_iff.mp h
  exact fits_iff.mpr ⟨convertSpecifier_ne_nil hne, isInSpecifier_of_mem_convertSpecifier hall,
    hmark, hcall⟩

/-- Whether a stretch can be a specifier does not depend on whether the one behind it is
converted. -/
theorem fits_convertSpecifier_after (form : ReferenceForm) (mark : Char) (span : List Char)
    (closing : Char) (after : List Char) :
    form.fits mark span closing (convertSpecifier after) = form.fits mark span closing after := by
  rw [ReferenceForm.fits, closesCall_convertSpecifier, ReferenceForm.fits]

/-- A stretch behind a quote that stays, or is a specifier and is converted. -/
def Respelled (s s' : Char × List Char) : Prop :=
  s'.1 = s.1 ∧ (s'.2 = s.2 ∨ (∀ c ∈ s.2, isInSpecifier c = true) ∧ s'.2 = convertSpecifier s.2)

/-- What stands behind a specifier may be respelled, which does not matter for the specifier. -/
theorem Respelled.fits_after {closing' : Char} {after' : List Char}
    (h : Respelled (closing, after) (closing', after')) :
    form.fits mark span closing' after' = form.fits mark span closing after := by
  obtain ⟨hclosing, hafter⟩ := h
  dsimp only at hclosing hafter
  rcases hafter with rfl | ⟨-, rfl⟩
  · rw [hclosing]
  · rw [hclosing, fits_convertSpecifier_after]

/-- A stretch that is respelled is a specifier only if it has been one before. -/
theorem Respelled.fits_of_fits {mark' : Char} {span' : List Char}
    (h : Respelled (mark, span) (mark', span'))
    (hfits : form.fits mark' span' closing after = true) :
    form.fits mark span closing after = true := by
  obtain ⟨hmark, hspan⟩ := h
  dsimp only at hmark hspan
  rcases hspan with rfl | ⟨hspecifier, rfl⟩
  · rwa [← hmark]
  · obtain ⟨hne, -, hclosing, hcall⟩ := fits_iff.mp hfits
    refine fits_iff.mpr ⟨?_, hspecifier, hclosing.trans hmark, hcall⟩
    rintro rfl
    exact hne rfl

theorem Respelled.trans {s s' s'' : Char × List Char} (h : Respelled s s') (h' : Respelled s' s'') :
    Respelled s s'' := by
  refine ⟨h'.1.trans h.1, ?_⟩
  rcases h'.2 with hsame | ⟨hspecifier, hconverted⟩
  · rw [hsame]
    exact h.2
  · rcases h.2 with hsame' | ⟨hspecifier', hconverted'⟩
    · rw [← hsame']
      exact .inr ⟨hspecifier, hconverted⟩
    · refine .inr ⟨hspecifier', ?_⟩
      rw [hconverted, hconverted', convertSpecifier_convertSpecifier]

theorem Respelled.forall₂_trans {spans' spans'' : List (Char × List Char)}
    (h : List.Forall₂ Respelled spans spans') (h' : List.Forall₂ Respelled spans' spans'') :
    List.Forall₂ Respelled spans spans'' := by
  induction h generalizing spans'' with
  | nil => exact h'
  | cons hs _ ih =>
    cases h' with
    | cons hs' h' => exact .cons (hs.trans hs') (ih h')

theorem forall₂_convertSpans (form : ReferenceForm) (before : List Char)
    (spans : List (Char × List Char)) :
    List.Forall₂ Respelled spans (convertSpans form before spans) := by
  fun_induction convertSpans form before spans with
  | case1 before mark span closing after more htakes ih =>
    rw [ReferenceForm.takes, Bool.and_eq_true] at htakes
    exact .cons ⟨rfl, .inr ⟨(fits_iff.mp htakes.2).2.1, rfl⟩⟩ (.cons ⟨rfl, .inl rfl⟩ ih)
  | case2 before mark span closing after more _ ih => exact .cons ⟨rfl, .inl rfl⟩ ih
  | case3 before spans => exact List.forall₂_same.mpr fun s _ => ⟨rfl, .inl rfl⟩

theorem IsCut.respelled {spans' : List (Char × List Char)} (h : IsCut first spans)
    (hspans : List.Forall₂ Respelled spans spans') : IsCut first spans' := by
  induction hspans generalizing first with
  | nil => exact h
  | @cons s s' _ _ hs _ ih =>
    have htail := ih h.tail
    have hspan : ∀ c ∈ s'.2, Source.isMark c = false := by
      rcases hs.2 with hsame | ⟨hspecifier, hconverted⟩
      · exact hsame ▸ h.tail.first
      · exact fun c hc => isMark_of_isInSpecifier
          (isInSpecifier_of_mem_convertSpecifier hspecifier c (hconverted ▸ hc))
    refine ⟨h.first, ?_, ?_⟩
    · rw [List.forall_mem_cons, hs.1]
      exact ⟨h.isMark, htail.marks⟩
    · rw [List.forall_mem_cons]
      exact ⟨hspan, htail.spans⟩

theorem IsCut.convertSpans (h : IsCut first spans) (form : ReferenceForm) (before : List Char) :
    IsCut first (convertSpans form before spans) :=
  h.respelled (forall₂_convertSpans form before spans)

/-- What a pass makes of the stretch behind a quote, and of those after it. -/
theorem convertSpans_cons (form : ReferenceForm) (before : List Char) (mark : Char)
    (span : List Char) (more : List (Char × List Char)) :
    ∃ span' more', convertSpans form before ((mark, span) :: more) = (mark, span') :: more' ∧
      (span' = span ∨ span' = convertSpecifier span) := by
  have h := forall₂_convertSpans form before ((mark, span) :: more)
  cases h' : Source.convertSpans form before ((mark, span) :: more) with
  | nil => simp [h'] at h
  | cons s more' =>
    rw [h', List.forall₂_cons] at h
    obtain ⟨⟨rfl, hspan⟩, -⟩ := h
    exact ⟨_, _, rfl, hspan.imp_right (·.2)⟩

/-- A pass after itself changes nothing. -/
theorem convertSpans_convertSpans (form : ReferenceForm) (before : List Char)
    (spans : List (Char × List Char)) :
    convertSpans form before (convertSpans form before spans) = convertSpans form before spans := by
  fun_induction convertSpans form before spans with
  | case1 before mark span closing after more htakes ih =>
    rw [ReferenceForm.takes, Bool.and_eq_true] at htakes
    have hagain : form.takes before mark (convertSpecifier span) closing after = true := by
      rw [ReferenceForm.takes, htakes.1, fits_convertSpecifier htakes.2]
      rfl
    rw [convertSpans, if_pos hagain, convertSpecifier_convertSpecifier, ih]
  | case2 before mark span closing after more htakes ih =>
    obtain ⟨after', more', hmore, hafter⟩ := convertSpans_cons form span closing after more
    rw [hmore] at ih ⊢
    have hagain : ¬ form.takes before mark span closing after' = true := by
      rcases hafter with rfl | rfl
      · exact htakes
      · rwa [ReferenceForm.takes, fits_convertSpecifier_after]
    rw [convertSpans, if_neg hagain, ih]
  | case3 before spans hshort =>
    rw [convertSpans]
    exact hshort

end Source

end Recase
