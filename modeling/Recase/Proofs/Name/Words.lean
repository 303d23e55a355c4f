import Recase.Proofs.Name.Kebab

/-!
# Words in two steps

Kebab case by two rules that are applied to a whole name one after the other, where `hyphenate`
looks at each character of the name once.

* `hyphenateWhere`: a name with a hyphen after each character at which a rule cuts it.
* `endsWord`, `endsAcronym`: the rules. A word ends before a capital after a small letter or a
  digit, and an acronym before the last of its capitals if a small letter follows.
* `hyphenate_eq`: the hyphens of both rules. The hyphens of the first rule are no letters, and where
  they are put the second one does not apply (`endsAcronym_hyphenateWhere`).
* `kebab_eq_hyphenateWhere`: a name in kebab case is what the two rules make of it, in lower case.
-/

namespace Recase.Name

open Recase.Text

/-- The text with a hyphen after each character at which it is cut, by what follows the
character. -/
def hyphenateWhere (cuts : Char → List Char → Bool) : List Char → List Char
  | [] => []
  | c :: rest =>
    if cuts c rest then c :: '-' :: hyphenateWhere cuts rest else c :: hyphenateWhere cuts rest

/-- Whether a word ends at `c`: it is a small letter or a digit, and a capital follows. -/
def endsWord (c : Char) : List Char → Bool
  | next :: _ => (c.isLower || c.isDigit) && next.isUpper
  | [] => false

/-- Whether an acronym ends at `c`: it is a capital, and another one with a small letter after it
follows. -/
def endsAcronym (c : Char) : List Char → Bool
  | next :: third :: _ => c.isUpper && next.isUpper && third.isLower
  | _ => false

variable {c next : Char} {rest : List Char}

/-- A capital starts a word where a word or an acronym ends. -/
theorem startsWord_eq (previous c : Char) (rest : List Char) :
    startsWord previous c rest.head? =
      (endsWord previous (c :: rest) || endsAcronym previous (c :: rest)) := by
  cases rest with
  | nil => simp [startsWord, endsWord, endsAcronym, Bool.and_comm]
  | cons third more =>
    simp only [startsWord, endsWord, endsAcronym, List.head?_cons, Option.any_some]
    cases previous.isLower <;> cases previous.isDigit <;> cases previous.isUpper <;>
      cases c.isUpper <;> simp

theorem isUpper_eq_false_of_endsWord (h : endsWord c rest = true) : c.isUpper = false := by
  cases rest with
  | nil => cases h
  | cons next more =>
    rw [endsWord, Bool.and_eq_true, Bool.or_eq_true] at h
    refine decide_eq_false fun hupper => ?_
    obtain ⟨hlower | hdigit, -⟩ := h
    · have ha : 'a'.val ≤ c.val := of_decide_eq_true (Bool.and_eq_true_iff.mp hlower).1
      exact absurd (UInt32.le_trans ha hupper.2) (by decide)
    · have h9 : c.val ≤ '9'.val := of_decide_eq_true (Bool.and_eq_true_iff.mp hdigit).2
      exact absurd (UInt32.le_trans hupper.1 h9) (by decide)

/-- The first rule leaves the acronyms as they are. -/
theorem endsAcronym_hyphenateWhere (c next : Char) (rest : List Char) :
    endsAcronym c (hyphenateWhere endsWord (next :: rest)) = endsAcronym c (next :: rest) := by
  rw [hyphenateWhere]
  split
  · -- a word ends at the second character, which is no capital then
    rename_i hword
    have hnext := isUpper_eq_false_of_endsWord hword
    cases rest <;> simp [endsAcronym, hnext]
  · cases rest with
    | nil => rfl
    | cons third more =>
      rw [hyphenateWhere]
      split <;> rfl

/-- What the second rule makes of a text that the first one has gone over, from its first character
on. -/
theorem hyphenateWhere_endsWord (c : Char) (rest : List Char) :
    hyphenateWhere endsAcronym (hyphenateWhere endsWord (c :: rest)) =
      c :: hyphenateAfter c rest := by
  induction rest generalizing c with
  | nil => rfl
  | cons next more ih =>
    have hacronym := endsAcronym_hyphenateWhere c next more
    rw [hyphenateAfter, startsWord_eq, hyphenateWhere]
    by_cases hword : endsWord c (next :: more) = true
    · -- the hyphen ends neither an acronym before it nor one after it
      have hbefore : ∀ text, endsAcronym c ('-' :: text) = false := by
        intro text
        cases text <;> simp [endsAcronym]
      have hafter : ∀ text, endsAcronym '-' text = false := by
        intro text
        rcases text with _ | ⟨next, _ | ⟨third, more⟩⟩ <;> simp [endsAcronym]
      rw [if_pos hword, hword, Bool.true_or, if_pos rfl, hyphenateWhere, hbefore,
        if_neg Bool.false_ne_true, hyphenateWhere, hafter, if_neg Bool.false_ne_true, ih]
    · rw [Bool.not_eq_true] at hword
      rw [hword, Bool.false_or, if_neg Bool.false_ne_true, hyphenateWhere, hacronym]
      split <;> rw [ih]

/-- The hyphens are those of the two rules one after the other. -/
theorem hyphenate_eq (cs : List Char) :
    hyphenate cs = hyphenateWhere endsAcronym (hyphenateWhere endsWord cs) := by
  cases cs with
  | nil => rfl
  | cons c rest => rw [hyphenateWhere_endsWord, hyphenate]

/-- A name in kebab case is what the two rules make of it one after the other, in lower case. The
names that are left alone, and those of less than two characters, are no exception. -/
theorem kebab_eq_hyphenateWhere (cs : List Char) :
    kebab cs = lowerChars (hyphenateWhere endsAcronym (hyphenateWhere endsWord cs)) ∧
      kebab cs = lowerChars (hyphenate cs) := by
  have hkebab := kebab_eq_lowerChars_hyphenate cs
  exact ⟨hyphenate_eq cs ▸ hkebab, hkebab⟩

example : hyphenateWhere endsWord "myXMLParser2Go".toList = "my-XMLParser2-Go".toList ∧
    hyphenateWhere endsAcronym "my-XMLParser2-Go".toList = "my-XML-Parser2-Go".toList := by
  decide

end Recase.Name
