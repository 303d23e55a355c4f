import Recase.Name.Convert
import Recase.Proofs.Text.Lowercase

/-!
# Names in kebab case

* `kebab_eq_lowerChars_hyphenate`: a name in kebab case is its lower-case form with the hyphens, and
  the names that are left alone are no exception.
* `kebab_of_isSmall`, `isSmall_of_mem_kebab`: the names that the rule leaves as they are are those
  of small characters, and it gives only such names. So it is idempotent (`kebab_kebab`).
* `mem_kebab_iff_of_isMark`, `head?_kebab_iff_of_isMark`, `kebab_of_isMark`: dots, slashes and NULs
  stay.
* `kebab_append_slash`, `kebab_replicate_append`: the rule for a path is that for its segments, and
  dots in front stay there.
-/

namespace Recase.Name

open Recase.Text

variable {cs : List Char} {x : Char}

/-! ## Hyphens -/

theorem hyphenateAfter_of_isSmall (h : ∀ c ∈ cs, IsSmall c) (previous : Char) :
    hyphenateAfter previous cs = cs := by
  induction cs generalizing previous with
  | nil => rfl
  | cons c rest ih =>
    have hc : startsWord previous c rest.head? = false := by
      simp [startsWord, (h c (by simp)).isUpper_eq_false]
    simp only [hyphenateAfter, hc, Bool.false_eq_true, ↓reduceIte]
    rw [ih fun x hx => h x (by simp [hx])]

theorem hyphenate_of_isSmall (h : ∀ c ∈ cs, IsSmall c) : hyphenate cs = cs := by
  cases cs with
  | nil => rfl
  | cons c rest =>
    rw [hyphenate, hyphenateAfter_of_isSmall fun x hx => h x (by simp [hx])]

theorem mem_hyphenateAfter_iff_of_isMark {previous : Char} (hx : IsMark x) :
    x ∈ hyphenateAfter previous cs ↔ x ∈ cs := by
  have hne : x ≠ '-' := by rintro rfl; exact absurd hx (by decide)
  induction cs generalizing previous with
  | nil => rfl
  | cons c rest ih =>
    simp only [hyphenateAfter]
    split <;> simp [ih, hne]

theorem mem_hyphenate_iff_of_isMark (hx : IsMark x) : x ∈ hyphenate cs ↔ x ∈ cs := by
  cases cs with
  | nil => rfl
  | cons c rest => simp [hyphenate, mem_hyphenateAfter_iff_of_isMark hx]

theorem mem_or_eq_of_mem_hyphenate (h : x ∈ hyphenate cs) : x ∈ cs ∨ x = '-' := by
  have key : ∀ {cs : List Char} {previous : Char}, x ∈ hyphenateAfter previous cs →
      x ∈ cs ∨ x = '-' := by
    intro cs
    induction cs with
    | nil => simp [hyphenateAfter]
    | cons c rest ih =>
      intro previous h
      simp only [hyphenateAfter] at h
      split at h <;> grind
  cases cs with
  | nil => exact .inl h
  | cons c rest =>
    rcases List.mem_cons.mp h with rfl | h
    · exact .inl List.mem_cons_self
    · exact (key h).imp_left (List.mem_cons_of_mem c)

theorem hyphenate_of_not_mem (h : '-' ∉ hyphenate cs) : hyphenate cs = cs := by
  have key : ∀ (cs : List Char) (previous : Char), '-' ∉ hyphenateAfter previous cs →
      hyphenateAfter previous cs = cs := by
    intro cs
    induction cs with
    | nil => intros; rfl
    | cons c rest ih =>
      intro previous h
      rw [hyphenateAfter] at h ⊢
      split at h
      · exact absurd List.mem_cons_self h
      · rename_i hword
        rw [if_neg hword, ih c fun hm => h (List.mem_cons_of_mem _ hm)]
  cases cs with
  | nil => rfl
  | cons c rest =>
    rw [hyphenate] at h ⊢
    rw [key rest c fun hm => h (List.mem_cons_of_mem _ hm)]

theorem head?_hyphenate (cs : List Char) : (hyphenate cs).head? = cs.head? := by
  cases cs <;> rfl

theorem hyphenate_eq_nil_iff : hyphenate cs = [] ↔ cs = [] := by
  cases cs <;> simp [hyphenate]

/-- No word starts behind a mark, so that its text is hyphenated by itself. -/
theorem hyphenateAfter_of_isMark (hx : IsMark x) (cs : List Char) :
    hyphenateAfter x cs = hyphenate cs := by
  have hword : ∀ c next?, startsWord x c next? = false := by
    intro c next?
    rcases hx with rfl | rfl | rfl <;> simp [startsWord]
  cases cs with
  | nil => rfl
  | cons c rest => simp [hyphenateAfter, hyphenate, hword]

theorem hyphenateAfter_append_slash (previous : Char) (cs ds : List Char) :
    hyphenateAfter previous (cs ++ '/' :: ds) =
      hyphenateAfter previous cs ++ '/' :: hyphenate ds := by
  induction cs generalizing previous with
  | nil => simp [hyphenateAfter, startsWord, hyphenateAfter_of_isMark (by decide : IsMark '/')]
  | cons c rest ih =>
    have hword :
        startsWord previous c (rest ++ '/' :: ds).head? = startsWord previous c rest.head? := by
      cases rest <;> simp [startsWord]
    rw [List.cons_append, hyphenateAfter, hyphenateAfter, hword, ih]
    split <;> rfl

theorem hyphenate_append_slash (cs ds : List Char) :
    hyphenate (cs ++ '/' :: ds) = hyphenate cs ++ '/' :: hyphenate ds := by
  cases cs with
  | nil => exact congrArg _ (hyphenateAfter_of_isMark (by decide) ds)
  | cons c rest => exact congrArg _ (hyphenateAfter_append_slash c rest ds)

theorem hyphenate_replicate_append (n : Nat) (cs : List Char) :
    hyphenate (List.replicate n '.' ++ cs) = List.replicate n '.' ++ hyphenate cs := by
  induction n with
  | zero => rfl
  | succ n ih =>
    rw [List.replicate_succ, List.cons_append, hyphenate, hyphenateAfter_of_isMark (by decide), ih,
      List.cons_append]

/-! ## Kebab case -/

/-- To leave a name alone that is in kebab case already, or has no two characters, changes
nothing. -/
theorem kebab_eq_lowerChars_hyphenate (cs : List Char) : kebab cs = lowerChars (hyphenate cs) := by
  unfold kebab
  split
  · rfl
  · rfl
  · split
    · rename_i hkebab
      simp only [isKebab, Bool.and_eq_true, beq_iff_eq] at hkebab
      have hsmall := lowerChars_eq_self_iff.mp hkebab.2.symm
      rw [hyphenate_of_isSmall hsmall, ← hkebab.2]
    · rfl

/-- The rule leaves names of small characters as they are. -/
theorem kebab_of_isSmall (h : ∀ c ∈ cs, IsSmall c) : kebab cs = cs := by
  rw [kebab_eq_lowerChars_hyphenate, hyphenate_of_isSmall h, lowerChars_of_isSmall h]

/-- The rule gives names of small characters. -/
theorem isSmall_of_mem_kebab (h : x ∈ kebab cs) : IsSmall x := by
  rw [kebab_eq_lowerChars_hyphenate] at h
  exact isSmall_of_mem_lowerChars h

@[simp] theorem kebab_kebab (cs : List Char) : kebab (kebab cs) = kebab cs :=
  kebab_of_isSmall fun _ => isSmall_of_mem_kebab

theorem mem_kebab_iff_of_isMark (hx : IsMark x) : x ∈ kebab cs ↔ x ∈ cs := by
  rw [kebab_eq_lowerChars_hyphenate, mem_lowerChars_iff_of_isMark hx,
    mem_hyphenate_iff_of_isMark hx]

/-- The rule puts in no ASCII character other than small ones and hyphens. -/
theorem mem_of_mem_kebab (hle : x.toNat ≤ 95) (hne : x ≠ '-') (h : x ∈ kebab cs) : x ∈ cs := by
  rw [kebab_eq_lowerChars_hyphenate] at h
  have hhyphenate : x ∈ hyphenate cs := (mem_or_lt_of_mem_lowerFrom h).resolve_right (by omega)
  exact (mem_or_eq_of_mem_hyphenate hhyphenate).resolve_right hne

theorem head?_kebab_iff_of_isMark (hx : IsMark x) :
    (kebab cs).head? = some x ↔ cs.head? = some x := by
  rw [kebab_eq_lowerChars_hyphenate, head?_lowerChars_iff_of_isMark hx, head?_hyphenate]

theorem kebab_eq_nil_iff : kebab cs = [] ↔ cs = [] := by
  rw [kebab_eq_lowerChars_hyphenate, lowerChars_eq_nil_iff, hyphenate_eq_nil_iff]

/-- Marks come from marks alone. -/
theorem kebab_of_isMark (h : ∀ x ∈ kebab cs, IsMark x) : kebab cs = cs := by
  rw [kebab_eq_lowerChars_hyphenate] at h ⊢
  have hsame : lowerChars (hyphenate cs) = hyphenate cs := lowerFrom_of_isMark h
  rw [hsame] at h ⊢
  exact hyphenate_of_not_mem fun hm => absurd (h _ hm) (by decide)

/-- The rule for a path is that for its segments. -/
theorem kebab_append_slash (cs ds : List Char) :
    kebab (cs ++ '/' :: ds) = kebab cs ++ '/' :: kebab ds := by
  simp only [kebab_eq_lowerChars_hyphenate, hyphenate_append_slash, lowerChars_append_slash]

/-- Dots in front stay there, and what follows them has a dot in it only if it had one. -/
theorem kebab_replicate_append (n : Nat) (cs : List Char) :
    ∃ text, kebab (List.replicate n '.' ++ cs) = List.replicate n '.' ++ text ∧
        ('.' ∈ text ↔ '.' ∈ cs) := by
  have hdot : IsMark '.' := by decide
  obtain ⟨before, htext⟩ := exists_lowerFrom_replicate_append n [] (hyphenate cs)
  refine ⟨lowerFrom before (hyphenate cs), ?_, ?_⟩
  · rw [kebab_eq_lowerChars_hyphenate, hyphenate_replicate_append]
    exact htext
  · rw [mem_lowerFrom_iff_of_isMark hdot, mem_hyphenate_iff_of_isMark hdot]

end Recase.Name
