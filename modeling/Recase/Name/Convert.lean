import Recase.Text.Case

/-!
# Converted names

* `isSkipped`: entries with a hidden name or a name to ignore are left alone, with all below them.
  `ignoredNames`: the names ignored unless others are asked for.
* `kebab`: the kebab-case form of a name: words in lower case with hyphens between them. A name that
  already has a hyphen and no capitals stays as it is. `startsWord`: where a hyphen goes. An ASCII
  capital starts a word after a small letter or a digit, and after a capital if a small letter
  follows, so that the last capital of an acronym belongs to the word after it.
* `cutExtension`: a name without its extension, and the extension with its dot. The extension
  starts at the last dot of the last segment, if some character other than a dot stands before it
  there: dots at the start of a name do not begin an extension. The two parts make up the name
  (`cutExtension_append`).
* `directoryName`, `fileName`: a directory is converted as a whole, and a file keeps its extension.
  `EntryKind.convert`: the rule of each kind, on texts.
-/

namespace Recase

/-- The kinds of entry that are renamed. -/
inductive EntryKind
  | directory
  | file
  deriving Repr, DecidableEq

namespace Name

open Recase.Text

/-- Whether an entry of that name is left alone: a hidden name starts with a dot. -/
def isSkipped (ignored : List String) (name : String) : Bool :=
  name.toList.head? == some '.' || ignored.contains name

/-- The names ignored unless others are asked for. -/
def ignoredNames : List String :=
  ["node_modules", ".git", "dist", "build", "coverage", ".nyc_output"]

/-! ## Kebab case -/

/-- Whether `c` starts a word after `previous` and before `next?`. -/
def startsWord (previous c : Char) (next? : Option Char) : Bool :=
  c.isUpper &&
    (previous.isLower || previous.isDigit || (previous.isUpper && next?.any Char.isLower))

/-- The text with hyphens before the capitals that start a word, after the character `previous`. -/
def hyphenateAfter (previous : Char) : List Char → List Char
  | [] => []
  | c :: rest =>
    if startsWord previous c rest.head? then '-' :: c :: hyphenateAfter c rest
    else c :: hyphenateAfter c rest

/-- The text with hyphens before the capitals that start a word. -/
def hyphenate : List Char → List Char
  | [] => []
  | c :: rest => c :: hyphenateAfter c rest

/-- Whether the text has a hyphen and is its own lower-case form. -/
def isKebab (cs : List Char) : Bool := cs.contains '-' && cs == lowerChars cs

/-- The kebab-case form of a text. -/
def kebab (cs : List Char) : List Char :=
  match cs with
  | [] => []
  | [c] => lowerChars [c]
  | _ => if isKebab cs then cs else lowerChars (hyphenate cs)

/-! ## Extensions -/

/-- Whether the character lies inside an extension, after its dot. -/
def isInExtension (c : Char) : Bool := c != '.' && c != '/'

/-- A name without its extension, and the extension. Read from the back, the extension is what
comes before the first dot, and the segment goes on to the first slash. -/
def cutExtension (cs : List Char) : List Char × List Char :=
  match cs.reverse.dropWhile isInExtension with
  | '.' :: before =>
    if (before.takeWhile (· != '/')).any (· != '.') then
      (before.reverse, '.' :: (cs.reverse.takeWhile isInExtension).reverse)
    else (cs, [])
  | _ => (cs, [])

theorem cutExtension_append (cs : List Char) :
    (cutExtension cs).1 ++ (cutExtension cs).2 = cs := by
  simp only [cutExtension]
  split
  · rename_i before h
    split
    · have key := List.takeWhile_append_dropWhile (p := isInExtension) (l := cs.reverse)
      rw [h] at key
      have := congrArg List.reverse key
      simpa using this
    · simp
  · simp

/-! ## Entries -/

/-- The converted name of a directory. -/
def directoryName (cs : List Char) : List Char := kebab cs

/-- The converted name of a file: what stands before the extension is converted. -/
def fileName (cs : List Char) : List Char :=
  let (stem, extension) := cutExtension cs
  kebab stem ++ extension

end Name

/-- The converted name of an entry of the kind. -/
def EntryKind.convert (kind : EntryKind) (name : String) : String :=
  match kind with
  | .directory => String.ofList (Name.directoryName name.toList)
  | .file => String.ofList (Name.fileName name.toList)

end Recase
