import Recase.Name.Convert
import Recase.Source.Reference
import Recase.Text.Pieces

/-!
# Converting the references of a source text

* `isRelativeSpecifier`: a specifier that starts with a dot or a slash names a file; any other
  names a package.
* `convertSpecifier`: every segment of a relative specifier converted, package names left alone. A
  segment is converted as a file name if it has an extension, and as a whole if it has none; dots
  and empty segments stay (`convertSegment`).
* `convertForm`: one pass over a text converts the specifiers of all references of one form, from
  left to right. A keyword counts only where no word character stands before it, and the search
  goes on after the closing quote of a reference.
* `convertText`: the three passes one after the other, and how many specifiers they changed.
-/

namespace Recase.Source

open Recase.Text Recase.Name

/-! ## Specifiers -/

/-- Whether the specifier names a file and not a package. -/
def isRelativeSpecifier (cs : List Char) : Bool :=
  cs.head? == some '.' || cs.head? == some '/'

/-- The converted form of one segment of a specifier. -/
def convertSegment (segment : List Char) : List Char :=
  if segment == ['.'] || segment == ['.', '.'] || segment == [] then segment
  else if (cutExtension segment).2 != [] then fileName segment
  else kebab segment

/-- The converted form of a specifier. -/
def convertSpecifier (cs : List Char) : List Char :=
  if isRelativeSpecifier cs then joinPieces '/' ((pieces (· == '/') cs).map convertSegment) else cs

/-! ## Passes over a text -/

/-- Whether a word can start after the character, or at the start of the text. -/
def isWordStart (previous? : Option Char) : Bool :=
  match previous? with
  | some c => !isWordCharacter c
  | none => true

/-- The reference of the form that starts here, after the character `previous?`. -/
def referenceAfter? (form : ReferenceForm) (previous? : Option Char) (cs : List Char) :
    Option Reference :=
  match reference? form cs with
  | some r => if isWordStart previous? then some r else none
  | none => none

theorem length_rest_lt_of_referenceAfter? {form : ReferenceForm} {previous? : Option Char}
    {cs : List Char} {r : Reference} (h : referenceAfter? form previous? cs = some r) :
    r.rest.length < cs.length := by
  unfold referenceAfter? at h
  split at h
  · rename_i s hs
    split at h
    · simp only [Option.some.injEq] at h
      exact h ▸ length_rest_lt hs
    · simp at h
  · simp at h

/-- A text with the references of one form converted, and the number of specifiers changed. -/
def convertForm (form : ReferenceForm) (previous? : Option Char) (cs : List Char) :
    List Char × Nat :=
  match cs with
  | [] => ([], 0)
  | c :: rest =>
    match _h : referenceAfter? form previous? (c :: rest) with
    | some r =>
      let converted := convertSpecifier r.specifier
      let (text, changes) := convertForm form (some r.mark) r.rest
      (r.head ++ r.mark :: (converted ++ r.mark :: text),
        if converted = r.specifier then changes else changes + 1)
    | none =>
      let (text, changes) := convertForm form (some c) rest
      (c :: text, changes)
termination_by cs.length
decreasing_by
  · exact length_rest_lt_of_referenceAfter? ‹_›
  · simp

/-- The forms of reference, in the order of the passes. -/
def referenceForms : List ReferenceForm := [.fromClause, .requireCall, .importCall]

/-- A text with all its references converted, and the number of specifiers changed. -/
def convertChars (cs : List Char) : List Char × Nat :=
  referenceForms.foldl (fun (text, changes) form =>
    let (converted, more) := convertForm form none text
    (converted, changes + more)) (cs, 0)

/-- A text with all its references converted, and the number of specifiers changed. -/
def convertText (text : String) : String × Nat :=
  let (converted, changes) := convertChars text.toList
  (String.ofList converted, changes)

end Recase.Source
