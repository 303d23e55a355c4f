import Recase.Text.Cased
import Recase.Text.CaseTable

/-!
# Lower case and case folding

The lower-case form of a text, with the two mappings that are not from one character to one:

* a capital I with a dot above becomes an i and a combining dot;
* a capital sigma becomes the closing small sigma at the end of a word (`closesWord`), and the
  plain small sigma elsewhere.

`lowerChar` is the mapping of one character, `lowerFrom` that of a text after what stands before
it, `lowercase` that of a whole text.

Two texts are equal ignoring case when their foldings (`casefold`) are equal. Unlike the lower-case
form, the folding of a character (`foldChar`) does not depend on its neighbours.
-/

namespace Recase.Text

/-! ## Lower case -/

/-- The lower-case form of a character that has one character as its lower-case form. -/
def lowerChar (c : Char) : Char :=
  match mapCodePoint? lowerTable c.toNat with
  | some n => Char.ofNat n
  | none => c

/-- Whether the first character that is not case-ignorable has a case. -/
def meetsCased (cs : List Char) : Bool :=
  match cs.dropWhile isCaseIgnorable with
  | c :: _ => isCased c
  | [] => false

/-- Whether a sigma closes a word: a cased character stands before it and none after it, the
case-ignorable characters between them left aside. `before` is read backwards. -/
def closesWord (before after : List Char) : Bool := meetsCased before && !meetsCased after

/-- The lower-case form of a character between the texts `before` (read backwards) and `after`. -/
def lowerWithin (before : List Char) (c : Char) (after : List Char) : List Char :=
  if c = 'Σ' then [if closesWord before after then 'ς' else 'σ']
  else if c = 'İ' then ['i', '\u0307']
  else [lowerChar c]

/-- The lower-case form of a text that follows `before` (read backwards). -/
def lowerFrom (before : List Char) : List Char → List Char
  | [] => []
  | c :: rest => lowerWithin before c rest ++ lowerFrom (c :: before) rest

/-- The lower-case form of a list of characters. -/
def lowerChars (cs : List Char) : List Char := lowerFrom [] cs

/-- The lower-case form of a text. -/
def lowercase (s : String) : String := String.ofList (lowerChars s.toList)

/-! ## Case folding -/

/-- The case folding of a character. -/
def foldChar (c : Char) : List Char :=
  match expandCodePoint? foldExpansions c.toNat with
  | some ns => ns.map Char.ofNat
  | none =>
    match mapCodePoint? foldTable c.toNat with
    | some n => [Char.ofNat n]
    | none => [lowerChar c]

/-- The case folding of a text. -/
def casefold (s : String) : String := String.ofList (s.toList.flatMap foldChar)

theorem casefold_append (s t : String) : casefold (s ++ t) = casefold s ++ casefold t := by
  simp [casefold, String.ofList_append]

end Recase.Text
