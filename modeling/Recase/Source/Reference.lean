import Recase.Text.RangeTable
import Recase.Text.Word

/-!
# References to other files in source text

A reference is a keyword, a specifier in quotes after it and, in the forms of a call, parentheses
around the specifier. Blanks and line breaks may stand between the parts.

* `ReferenceForm`: the forms `from '…'`, `require('…')` and `import('…')`.
* `reference?`: the reference at the start of a text, with the text that follows it.
* `reference?_eq`: its parts make up the text.
-/

namespace Recase.Source

open Recase.Text

/-- A form of reference: its keyword, and whether it is written as a call. -/
structure ReferenceForm where
  keyword : List Char
  isCall : Bool

/-- The module an import or export names. -/
def ReferenceForm.fromClause : ReferenceForm := ⟨['f', 'r', 'o', 'm'], false⟩

/-- A call of `require`. -/
def ReferenceForm.requireCall : ReferenceForm := ⟨['r', 'e', 'q', 'u', 'i', 'r', 'e'], true⟩

/-- An import written as a call. -/
def ReferenceForm.importCall : ReferenceForm := ⟨['i', 'm', 'p', 'o', 'r', 't'], true⟩

/-- A reference, and the text after it. -/
structure Reference where
  /-- The keyword with the blanks and the parenthesis up to the quote. -/
  head : List Char
  /-- The quote on both sides of the specifier. -/
  mark : Char
  specifier : List Char
  rest : List Char

/-- Whether the character is a quote. -/
def isMark (c : Char) : Bool := c == '\x27' || c == '\x22'

/-- Whether the character can stand in a specifier: anything but a quote or a line break. -/
def isInSpecifier (c : Char) : Bool := !isMark c && c != '\r' && c != '\n'

/-- The part of a reference up to its quote, and the rest of the text. -/
def ReferenceForm.head? (form : ReferenceForm) (cs : List Char) :
    Option (List Char × List Char) :=
  match form.keyword.isPrefixOf? cs with
  | none => none
  | some after =>
    let blanks := after.takeWhile isBlank
    let rest := after.dropWhile isBlank
    if form.isCall then
      match rest with
      | '(' :: inner =>
        some (form.keyword ++ blanks ++ '(' :: inner.takeWhile isBlank, inner.dropWhile isBlank)
      | _ => none
    else some (form.keyword ++ blanks, rest)

/-- The quote, the specifier and the text after the closing quote, at the start of a text. -/
def quotedSpecifier? : List Char → Option (Char × List Char × List Char)
  | [] => none
  | mark :: inner =>
    if isMark mark then
      match inner.takeWhile isInSpecifier, inner.dropWhile isInSpecifier with
      | [], _ => none
      | _, [] => none
      | c :: cs, closing :: rest => if closing = mark then some (mark, c :: cs, rest) else none
    else none

/-- Whether the text goes on with a closing parenthesis, blanks aside. -/
def closesCall (cs : List Char) : Bool := (cs.dropWhile isBlank).head? == some ')'

/-- The reference of the form at the start of a text. -/
def reference? (form : ReferenceForm) (cs : List Char) : Option Reference :=
  match form.head? cs with
  | none => none
  | some (head, after) =>
    match quotedSpecifier? after with
    | none => none
    | some (mark, specifier, rest) =>
      if form.isCall && !closesCall rest then none else some ⟨head, mark, specifier, rest⟩

private theorem append_of_isPrefixOf? {xs ys zs : List Char} (h : xs.isPrefixOf? ys = some zs) :
    xs ++ zs = ys := by
  induction xs generalizing ys with
  | nil => exact (Option.some_inj.mp h).symm
  | cons x xs ih =>
    cases ys with
    | nil => nomatch h
    | cons y ys =>
      replace h : (if x == y then xs.isPrefixOf? ys else none) = some zs := h
      split at h
      · rename_i hxy
        rw [List.cons_append, ih h, eq_of_beq hxy]
      · nomatch h

theorem head?_eq {form : ReferenceForm} {cs head rest : List Char}
    (h : form.head? cs = some (head, rest)) : cs = head ++ rest := by
  unfold ReferenceForm.head? at h
  split at h
  · simp at h
  · rename_i after hafter
    have key := append_of_isPrefixOf? hafter
    simp only at h
    split at h
    · split at h
      · rename_i inner hinner
        simp only [Option.some.injEq, Prod.mk.injEq] at h
        obtain ⟨rfl, rfl⟩ := h
        have := List.takeWhile_append_dropWhile (p := isBlank) (l := after)
        rw [hinner] at this
        rw [← key]
        simp only [List.append_assoc, List.cons_append, List.takeWhile_append_dropWhile, this]
      · simp at h
    · simp only [Option.some.injEq, Prod.mk.injEq] at h
      obtain ⟨rfl, rfl⟩ := h
      rw [← key, List.append_assoc, List.takeWhile_append_dropWhile]

theorem quotedSpecifier?_eq {cs specifier rest : List Char} {mark : Char}
    (h : quotedSpecifier? cs = some (mark, specifier, rest)) :
    cs = mark :: (specifier ++ mark :: rest) := by
  unfold quotedSpecifier? at h
  split at h
  · simp at h
  · rename_i m inner
    split at h
    · have key := List.takeWhile_append_dropWhile (p := isInSpecifier) (l := inner)
      split at h
      · simp at h
      · simp at h
      · rename_i c cs closing after htake hdrop
        split at h
        · simp only [Option.some.injEq, Prod.mk.injEq] at h
          obtain ⟨rfl, rfl, rfl⟩ := h
          rw [htake, hdrop] at key
          simp_all
        · simp at h
    · simp at h

/-- The parts of a reference and the text after it make up the text. -/
theorem reference?_eq {form : ReferenceForm} {cs : List Char} {r : Reference}
    (h : reference? form cs = some r) :
    cs = r.head ++ r.mark :: (r.specifier ++ r.mark :: r.rest) := by
  unfold reference? at h
  split at h
  · simp at h
  · rename_i head after hhead
    split at h
    · simp at h
    · rename_i mark specifier rest hquoted
      split at h
      · simp at h
      · simp only [Option.some.injEq] at h
        subst h
        rw [head?_eq hhead, quotedSpecifier?_eq hquoted]

/-- What follows a reference is shorter than the text that it starts. -/
theorem length_rest_lt {form : ReferenceForm} {cs : List Char} {r : Reference}
    (h : reference? form cs = some r) : r.rest.length < cs.length := by
  have := congrArg List.length (reference?_eq h)
  simp only [List.length_append, List.length_cons] at this
  omega

end Recase.Source
