import Recase.Text.Digit
import Recase.Text.Visible

/-!
# Quoted texts

How a text is written where its ends and its special characters have to be seen: in a message, in a
shell command and in JSON.

* `quoted`: a text between apostrophes, or between quotation marks if it has an apostrophe and no
  quotation mark; the mark in use, the backslash and whatever is not visible is escaped.
  `quotedList`: several quoted texts between brackets.
* `shellWord`: a text as one word of a shell command, quoted only where it has to be.
  `shellCommand`: words joined to a command.
* `jsonString`: a text as a JSON string. Only the quotation mark, the backslash and the control
  characters below U+0020 are escaped; every other character stands as it is. `jsonBlock`: values,
  one a line, between brackets; `jsonField`: a name and its value.
-/

namespace Recase.Text

/-! ## Messages -/

/-- The apostrophe. -/
def apostrophe : Char := '\x27'

/-- The quotation mark. -/
def quotationMark : Char := '\x22'

/-- The mark that encloses a text. -/
def enclosingMark (cs : List Char) : Char :=
  if cs.contains apostrophe && !cs.contains quotationMark then quotationMark else apostrophe

/-- A character inside a text enclosed by `mark`. -/
def escapeIn (mark c : Char) : List Char :=
  if c = mark || c = '\\' then ['\\', c]
  else if c = '\n' then ['\\', 'n']
  else if c = '\r' then ['\\', 'r']
  else if c = '\t' then ['\\', 't']
  else if isVisible c then [c]
  else if c.toNat < 0x100 then '\\' :: 'x' :: hexDigits 2 c.toNat
  else if c.toNat < 0x10000 then '\\' :: 'u' :: hexDigits 4 c.toNat
  else '\\' :: 'U' :: hexDigits 8 c.toNat

/-- The text between marks, special characters escaped. -/
def quoted (s : String) : String :=
  let mark := enclosingMark s.toList
  String.ofList (mark :: s.toList.flatMap (escapeIn mark) ++ [mark])

/-- The quoted texts between brackets. -/
def quotedList (ss : List String) : String := "[" ++ ", ".intercalate (ss.map quoted) ++ "]"

/-! ## Shell commands -/

/-- Whether a shell takes the character literally outside quotes. -/
def isPlainInShell (c : Char) : Bool :=
  c.isAlphanum || ['_', '@', '%', '+', '=', ':', ',', '.', '/', '-'].contains c

/-- A character inside apostrophes: an apostrophe closes them, stands between quotation marks and
opens them again. -/
def escapeInApostrophes (c : Char) : List Char :=
  if c = apostrophe then [apostrophe, quotationMark, apostrophe, quotationMark, apostrophe] else [c]

/-- The text as one word: bare if it is not empty and plain throughout, else in apostrophes. -/
def shellWord (s : String) : String :=
  let cs := s.toList
  if !cs.isEmpty && cs.all isPlainInShell then s
  else String.ofList (apostrophe :: cs.flatMap escapeInApostrophes ++ [apostrophe])

/-- The command made of the given words. -/
def shellCommand (words : List String) : String := " ".intercalate (words.map shellWord)

/-! ## JSON -/

/-- A character inside a JSON string. -/
def escapeInJson (c : Char) : List Char :=
  if c = quotationMark || c = '\\' then ['\\', c]
  else if c = '\n' then ['\\', 'n']
  else if c = '\r' then ['\\', 'r']
  else if c = '\t' then ['\\', 't']
  else if c = '\x08' then ['\\', 'b']
  else if c = '\x0c' then ['\\', 'f']
  else if c.toNat < 0x20 then '\\' :: 'u' :: hexDigits 4 c.toNat
  else [c]

/-- The text as a JSON string. -/
def jsonString (s : String) : String :=
  String.ofList (quotationMark :: s.toList.flatMap escapeInJson ++ [quotationMark])

/-- A named value. -/
def jsonField (name value : String) : String := jsonString name ++ ": " ++ value

/-- The values between the two brackets, each on a line indented two columns deeper than
`indent`; a block without values is a pair of brackets. -/
def jsonBlock (opening closing : String) (indent : Nat) (values : List String) : String :=
  if values.isEmpty then opening ++ closing
  else
    let margin := String.ofList (List.replicate indent ' ')
    opening ++ "\n" ++ ",\n".intercalate (values.map (margin ++ "  " ++ ·)) ++ "\n" ++ margin
      ++ closing

end Recase.Text
