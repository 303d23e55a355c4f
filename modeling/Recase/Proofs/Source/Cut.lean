import Recase.Proofs.Source.Conversion

/-!
# Texts cut at their quotes

A text is cut at its quotes here, line breaks left where they are.

* `joinSpans`: a text from its stretches. `IsCut`: the stretches are those between its quotes. Every
  text is cut (`exists_joinSpans`), in one way (`IsCut.eq_of_joinSpans`).
* `ReferenceForm.opens`: the head of a reference ends a stretch. A reference that starts in a
  stretch has its head there, up to the quote (`reference?_append_mark`).
* `quotedSpecifier?_append`: when a stretch between two quotes is a specifier. A specifier of a file
  does not close a call (`closesCall_of_isRelativeSpecifier`).
-/

namespace Recase

open Name Text

namespace Source

/-! ## Texts cut at quotes -/

/-- A text from its first stretch and those behind its quotes. -/
def joinSpans (first : List Char) : List (Char × List Char) → List Char
  | [] => first
  | (mark, span) :: more => first ++ mark :: joinSpans span more

/-- The stretches are those between the quotes of a text. -/
structure IsCut (first : List Char) (spans : List (Char × List Char)) : Prop where
  first : ∀ c ∈ first, isMark c = false
  marks : ∀ s ∈ spans, isMark s.1 = true
  spans : ∀ s ∈ spans, ∀ c ∈ s.2, isMark c = false

theorem exists_joinSpans (cs : List Char) :
    ∃ first spans, cs = joinSpans first spans ∧ IsCut first spans := by
  induction cs with
  | nil => exact ⟨[], [], rfl, by simp, by simp, by simp⟩
  | cons c rest ih =>
    obtain ⟨first, spans, rfl, hcut⟩ := ih
    by_cases hc : isMark c = true
    · refine ⟨[], (c, first) :: spans, rfl, by simp, ?_, ?_⟩
      · simpa [hc] using fun a b hm => hcut.marks (a, b) hm
      · intro s hs
        rcases List.mem_cons.mp hs with rfl | hs
        · exact hcut.first
        · exact hcut.spans s hs
    · refine ⟨c :: first, spans, ?_, ?_, hcut.marks, hcut.spans⟩
      · cases spans <;> rfl
      · simpa [hc] using hcut.first

variable {first span after : List Char} {mark closing : Char} {spans more : List (Char × List Char)}

theorem IsCut.tail (h : IsCut first ((mark, span) :: spans)) : IsCut span spans where
  first := h.spans _ List.mem_cons_self
  marks s hs := h.marks s (List.mem_cons_of_mem _ hs)
  spans s hs := h.spans s (List.mem_cons_of_mem _ hs)

theorem IsCut.isMark (h : IsCut first ((mark, span) :: spans)) : isMark mark = true :=
  h.marks _ List.mem_cons_self

/-- A text has one first quote. -/
theorem eq_of_append_mark {xs ys us vs : List Char} (hxs : ∀ c ∈ xs, isMark c = false)
    (hys : ∀ c ∈ ys, isMark c = false) (hmark : isMark mark = true)
    (hclosing : isMark closing = true)
    (h : xs ++ mark :: us = ys ++ closing :: vs) : xs = ys ∧ mark = closing ∧ us = vs := by
  induction xs generalizing ys with
  | nil =>
    cases ys with
    | nil => simpa using h
    | cons y ys =>
      rw [List.nil_append, List.cons_append, List.cons.injEq] at h
      simp [← h.1, hmark] at hys
  | cons x xs ih =>
    cases ys with
    | nil =>
      rw [List.nil_append, List.cons_append, List.cons.injEq] at h
      simp [h.1, hclosing] at hxs
    | cons y ys =>
      rw [List.cons_append, List.cons_append, List.cons.injEq] at h
      obtain ⟨rfl, hmore⟩ := ih (fun c hc => hxs c (List.mem_cons_of_mem _ hc))
        (fun c hc => hys c (List.mem_cons_of_mem _ hc)) h.2
      exact ⟨by rw [h.1], hmore⟩

/-- A text is cut in one way. -/
theorem IsCut.eq_of_joinSpans {first' : List Char} {spans' : List (Char × List Char)}
    (h : IsCut first spans) (h' : IsCut first' spans')
    (heq : joinSpans first spans = joinSpans first' spans') :
    first = first' ∧ spans = spans' := by
  induction spans generalizing first first' spans' with
  | nil =>
    cases spans' with
    | nil => exact ⟨heq, rfl⟩
    | cons s' more' =>
      rw [joinSpans] at heq
      exact absurd (h.first s'.1 (by simp [heq, joinSpans])) (by simp [h'.isMark])
  | cons s more ih =>
    cases spans' with
    | nil =>
      rw [joinSpans.eq_1] at heq
      exact absurd (h'.first s.1 (by simp [← heq, joinSpans])) (by simp [h.isMark])
    | cons s' more' =>
      obtain ⟨hfirst, hmark, hmore⟩ := eq_of_append_mark h.first h'.first h.isMark h'.isMark heq
      obtain ⟨hspan, hspans⟩ := ih h.tail h'.tail hmore
      exact ⟨hfirst, by rw [Prod.ext hmark hspan, hspans]⟩

theorem pieces_joinSpans (h : IsCut first spans) :
    pieces isBreak (joinSpans first spans) =
      pieces isBreak first ++ spans.flatMap (fun s => pieces isBreak s.2) := by
  induction spans generalizing first with
  | nil => simp [joinSpans]
  | cons s more ih =>
    rw [joinSpans, pieces_append_cons (isBreak_of_isMark h.isMark), ih h.tail, List.flatMap_cons]

/-! ## Heads of references -/

/-- A keyword is a word of small letters. -/
def ReferenceForm.IsWord (form : ReferenceForm) : Prop :=
  form.keyword ≠ [] ∧ ∀ c ∈ form.keyword, c.isLower = true

instance (form : ReferenceForm) : Decidable form.IsWord :=
  decidable_of_iff (form.keyword ≠ [] ∧ form.keyword.all (·.isLower) = true)
    (by simp [ReferenceForm.IsWord])

theorem isWord_of_mem {form : ReferenceForm} (h : form ∈ referenceForms) : form.IsWord := by
  simp only [referenceForms, List.mem_cons, List.not_mem_nil, or_false] at h
  rcases h with rfl | rfl | rfl <;> decide

/-- Whether a text is the head of a reference, up to its quote. -/
def ReferenceForm.isHead (form : ReferenceForm) (cs : List Char) : Bool :=
  (form.head? cs).any (·.2.isEmpty)

/-- Whether the head of a reference ends a stretch, and no word goes on into it. -/
def ReferenceForm.opens (form : ReferenceForm) (previous? : Option Char) : List Char → Bool
  | [] => false
  | c :: rest => isWordStart previous? && form.isHead (c :: rest) || form.opens (some c) rest

/-- The specifier in quotes at the start of a text, and what follows it, where a reference of the
form can have it. -/
def ReferenceForm.specifier? (form : ReferenceForm) (cs : List Char) :
    Option (Char × List Char × List Char) :=
  (quotedSpecifier? cs).filter fun p => !form.isCall || closesCall p.2.2

theorem isMark_facts (h : isMark mark = true) :
    isBlank mark = false ∧ mark ≠ '(' ∧ mark ≠ ')' ∧ isWordStart (some mark) = true := by
  simp only [isMark, Bool.or_eq_true, beq_iff_eq] at h
  rcases h with rfl | rfl <;> decide +kernel

theorem isLower_facts {c : Char} (h : c.isLower = true) :
    isMark c = false ∧ isBlank c = false ∧ c ≠ ')' := by
  have key : ∀ n ∈ List.range' 97 26, isMark (.ofNat n) = false ∧ isBlank (.ofNat n) = false ∧
      Char.ofNat n ≠ ')' := by decide +kernel
  refine of_codePoints (P := fun c => isMark c = false ∧ isBlank c = false ∧ c ≠ ')') key ?_
  have hbetween : (decide ('a'.val ≤ c.val) && decide (c.val ≤ 'z'.val)) = true := h
  simp only [Bool.and_eq_true, decide_eq_true_eq, UInt32.le_iff_toNat_le] at hbetween
  have h1 : 97 ≤ c.toNat := hbetween.1
  have h2 : c.toNat ≤ 122 := hbetween.2
  omega

theorem reference?_eq_map (form : ReferenceForm) (cs : List Char) :
    reference? form cs = (form.head? cs).bind fun h =>
      (form.specifier? h.2).map fun p => ⟨h.1, p.1, p.2.1, p.2.2⟩ := by
  unfold reference? ReferenceForm.specifier?
  cases form.head? cs with
  | none => rfl
  | some h =>
    dsimp only [Option.bind_some]
    cases quotedSpecifier? h.2 with
    | none => rfl
    | some p =>
      cases hcall : form.isCall <;> cases hcloses : closesCall p.2.2 <;>
        simp [Option.filter, hcloses]

section Heads

variable {form : ReferenceForm} (hform : form.IsWord) (hmark : isMark mark = true)
include hform hmark

theorem isPrefixOf?_append_mark (before rest : List Char) :
    form.keyword.isPrefixOf? (before ++ mark :: rest) =
      (form.keyword.isPrefixOf? before).map (· ++ mark :: rest) := by
  have hne : ∀ c ∈ form.keyword, c ≠ mark := by
    rintro c hc rfl
    simp [(isLower_facts (hform.2 c hc)).1] at hmark
  generalize form.keyword = word at hne
  induction word generalizing before with
  | nil => rfl
  | cons c word ih =>
    cases before with
    | nil =>
      change (if c == mark then word.isPrefixOf? rest else none) = none
      rw [if_neg (by simpa using hne c List.mem_cons_self)]
    | cons b before =>
      change (if c == b then word.isPrefixOf? (before ++ mark :: rest) else none) =
        (if c == b then word.isPrefixOf? before else none).map (· ++ mark :: rest)
      split
      · exact ih before fun c hc => hne c (List.mem_cons_of_mem _ hc)
      · rfl

/-- A quote ends what can be read of the head of a reference. -/
theorem head?_append_mark (before rest : List Char) :
    form.head? (before ++ mark :: rest) =
      (form.head? before).map fun p => (p.1, p.2 ++ mark :: rest) := by
  obtain ⟨hblank, hopen, -, -⟩ := isMark_facts hmark
  have htake : ∀ cs, (cs ++ mark :: rest).takeWhile isBlank = cs.takeWhile isBlank := fun cs => by
    induction cs with
    | nil => simp [hblank]
    | cons c cs ih => simp [List.takeWhile_cons, ih]
  have hdrop : ∀ cs, (cs ++ mark :: rest).dropWhile isBlank =
      cs.dropWhile isBlank ++ mark :: rest := fun cs => by
    induction cs with
    | nil => simp [hblank]
    | cons c cs ih =>
      rw [List.cons_append, List.dropWhile_cons, List.dropWhile_cons, ih]; split <;> rfl
  unfold ReferenceForm.head?
  rw [isPrefixOf?_append_mark hform hmark]
  cases hword : form.keyword.isPrefixOf? before with
  | none => rfl
  | some behind =>
    dsimp only [Option.map_some]
    rw [htake, hdrop]
    split
    · cases hbehind : behind.dropWhile isBlank with
      | nil => simp [hopen]
      | cons c inner =>
        by_cases hc : c = '('
        · subst hc
          simp [htake, hdrop]
        · simp [hc]
    · rfl

/-- A reference that starts in a stretch has its head there, up to the quote. -/
theorem reference?_append_mark {before : List Char}
    (hbefore : ∀ c ∈ before, Source.isMark c = false) (rest : List Char) :
    reference? form (before ++ mark :: rest) =
      if form.isHead before then
        (form.specifier? (mark :: rest)).map fun p => ⟨before, p.1, p.2.1, p.2.2⟩
      else none := by
  rw [reference?_eq_map, head?_append_mark hform hmark, ReferenceForm.isHead]
  cases hhead : form.head? before with
  | none => rfl
  | some p =>
    obtain ⟨head, behind⟩ := p
    have heq := head?_eq hhead
    dsimp only [Option.map_some, Option.bind_some, Option.any_some]
    cases behind with
    | nil =>
      rw [List.append_nil] at heq
      subst heq
      rfl
    | cons c behind =>
      -- what follows the head has to start with a quote
      have hc : Source.isMark c = false := hbefore c (by simp [heq])
      simp [ReferenceForm.specifier?, quotedSpecifier?, hc]

end Heads

/-! ## Specifiers -/

theorem isMark_of_isInSpecifier {c : Char} (h : isInSpecifier c = true) : isMark c = false := by
  simp only [isInSpecifier, Bool.and_eq_true, Bool.not_eq_true'] at h
  exact h.1.1

theorem quotedSpecifier?_of_not {cs : List Char} (h : ∀ c ∈ cs, isMark c = false) :
    quotedSpecifier? cs = none := by
  cases cs with
  | nil => rfl
  | cons c cs => rw [quotedSpecifier?, if_neg (by simp [h c List.mem_cons_self])]

theorem quotedSpecifier?_of_last (hspan : ∀ c ∈ span, isMark c = false) :
    quotedSpecifier? (mark :: span) = none := by
  by_contra h
  obtain ⟨⟨found, specifier, rest⟩, hsome⟩ := Option.ne_none_iff_exists'.mp h
  have heq := quotedSpecifier?_eq hsome
  rw [List.cons.injEq] at heq
  exact absurd (hspan found (by simp [heq.2])) (by simp [(quotedSpecifier?_facts hsome).1])

/-- A stretch between two quotes is a specifier if they are the same, and it is not empty and goes
over no line break. -/
theorem quotedSpecifier?_append (hmark : isMark mark = true) (hclosing : isMark closing = true)
    (hspan : ∀ c ∈ span, isMark c = false) (rest : List Char) :
    quotedSpecifier? (mark :: (span ++ closing :: rest)) =
      if span ≠ [] ∧ span.all isInSpecifier = true ∧ closing = mark then some (mark, span, rest)
      else none := by
  split
  · rename_i h
    obtain ⟨hne, hall, rfl⟩ := h
    obtain ⟨c, cs, rfl⟩ := List.exists_cons_of_ne_nil hne
    have hstop : isInSpecifier closing = false := by simp [isInSpecifier, hmark]
    rw [quotedSpecifier?, if_pos hmark, List.takeWhile_append_of_pos (List.all_eq_true.mp hall),
      List.dropWhile_append_of_pos (List.all_eq_true.mp hall),
      List.takeWhile_cons_of_neg (by simp [hstop]), List.dropWhile_cons_of_neg (by simp [hstop])]
    simp
  · rename_i h
    by_contra hne
    obtain ⟨⟨found, specifier, behind⟩, hsome⟩ := Option.ne_none_iff_exists'.mp hne
    obtain ⟨hfound, hspecifier⟩ := quotedSpecifier?_facts hsome
    have hin : ∀ c ∈ specifier, isInSpecifier c = true :=
      fun c hc => by rw [isInSpecifier_eq, hspecifier c hc]; rfl
    have heq := quotedSpecifier?_eq hsome
    rw [List.cons.injEq] at heq
    obtain ⟨rfl, hbehind⟩ := heq
    obtain ⟨rfl, rfl, -⟩ := eq_of_append_mark hspan (fun c hc => isMark_of_isInSpecifier (hin c hc))
      hclosing hfound hbehind
    refine h ⟨?_, List.all_eq_true.mpr hin, rfl⟩
    rintro rfl
    simp [quotedSpecifier?, hmark, isInSpecifier] at hsome

theorem closesCall_append (hmark : isMark mark = true) (cs rest : List Char) :
    closesCall (cs ++ mark :: rest) = closesCall cs := by
  obtain ⟨hblank, -, hclose, -⟩ := isMark_facts hmark
  unfold closesCall
  induction cs with
  | nil => simp [hblank, hclose]
  | cons c cs ih =>
    rw [List.cons_append, List.dropWhile_cons, List.dropWhile_cons]
    split
    · exact ih
    · rfl

theorem closesCall_joinSpans (h : IsCut first spans) :
    closesCall (joinSpans first spans) = closesCall first := by
  cases spans with
  | nil => rfl
  | cons s more => exact closesCall_append h.isMark _ _

/-- A specifier of a file does not close a call. -/
theorem closesCall_of_isRelativeSpecifier {cs : List Char} (h : isRelativeSpecifier cs = true) :
    closesCall cs = false := by
  have hblank : isBlank '.' = false ∧ isBlank '/' = false := by decide +kernel
  obtain ⟨c, hc, hhead⟩ : ∃ c, (c = '.' ∨ c = '/') ∧ cs.head? = some c := by
    simpa [isRelativeSpecifier] using h
  obtain ⟨rest, rfl⟩ := List.head?_eq_some_iff.mp hhead
  rcases hc with rfl | rfl
  · simp [closesCall, hblank.1]
  · simp [closesCall, hblank.2]

theorem convertSpecifier_of_closesCall {cs : List Char} (h : closesCall cs = true) :
    convertSpecifier cs = cs :=
  if_neg fun hrelative => by simp [closesCall_of_isRelativeSpecifier hrelative] at h

theorem closesCall_convertSpecifier (cs : List Char) :
    closesCall (convertSpecifier cs) = closesCall cs := by
  by_cases h : isRelativeSpecifier cs = true
  · rw [closesCall_of_isRelativeSpecifier h,
      closesCall_of_isRelativeSpecifier (isRelativeSpecifier_convertSpecifier h)]
  · rw [convertSpecifier, if_neg h]

end Source

end Recase
