import Recase.Text.Digit

/-!
# Temporary names

A change of letter case alone goes through a temporary name, the intended name with a suffix and,
where that is taken, a token.

* `temporarySuffix`, `tokenText`: the two parts added to a name.
* `temporaryTarget?`: the name that an entry with a temporary name was meant to end up with. One
  line feed at the end of the name is passed over; the intended name is not empty and has no line
  feed in it.
* `isTemporary`: whether a name is a temporary one.
-/

namespace Recase.Name

open Recase.Text

/-- What is added to a name to make it temporary. -/
def temporarySuffix : String := ".temp-rename"

/-- The number of digits of a token. -/
def tokenLength : Nat := 8

/-- The token of a number: its last eight hexadecimal digits. -/
def tokenText (n : Nat) : String :=
  String.ofList (hexDigits tokenLength (n % Nat.pow 16 tokenLength))

/-- The name without one line feed at its end. -/
def dropLineFeed (cs : List Char) : List Char := (['\n'].isSuffixOf? cs).getD cs

/-- The name without a hyphen and a token at its end, if it has them. -/
def dropToken? (cs : List Char) : Option (List Char) :=
  let token := cs.drop (cs.length - tokenLength)
  if token.length = tokenLength ∧ token.all isHexDigit then
    ['-'].isSuffixOf? (cs.take (cs.length - tokenLength))
  else none

/-- The name without the temporary suffix, and the token if there is one. -/
def dropTemporary? (cs : List Char) : Option (List Char) :=
  match temporarySuffix.toList.isSuffixOf? cs with
  | some target => some target
  | none => (dropToken? cs).bind temporarySuffix.toList.isSuffixOf?

/-- The name that an entry with this temporary name was meant to end up with. -/
def temporaryTarget? (name : String) : Option String :=
  (dropTemporary? (dropLineFeed name.toList)).bind fun target =>
    if target.isEmpty || target.contains '\n' then none else some (String.ofList target)

/-- Whether the name is a temporary one. -/
def isTemporary (name : String) : Bool := (temporaryTarget? name).isSome

end Recase.Name
