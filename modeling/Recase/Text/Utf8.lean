import Recase.Text.Digit

/-!
# Texts in UTF-8

* `decodeUtf8`: the text that a sequence of bytes encodes, or the first fault in it.
* `Utf8Fault`: where the first bytes are that encode nothing, and why; `Utf8Fault.message` says so.
* `firstFault?`: the search for it, one byte at a time. A lead byte owes continuation bytes, the
  first of them within bounds that leave out overlong forms and surrogates.
-/

namespace Recase.Text

/-- What is wrong with a byte. -/
inductive Utf8Reason
  | invalidStart
  | invalidContinuation
  | unexpectedEnd
  deriving Repr, DecidableEq

/-- The bytes from position `first` to position `last` encode nothing; `lead` is the first. -/
structure Utf8Fault where
  first : Nat
  last : Nat
  lead : UInt8
  reason : Utf8Reason
  deriving Repr, DecidableEq

/-- The reason in words. -/
def Utf8Reason.message : Utf8Reason → String
  | .invalidStart => "invalid start byte"
  | .invalidContinuation => "invalid continuation byte"
  | .unexpectedEnd => "unexpected end of data"

/-- The fault in words; a single byte is shown, of several only the positions. -/
def Utf8Fault.message (f : Utf8Fault) : String :=
  let bytes :=
    if f.first = f.last then
      "byte 0x" ++ String.ofList (hexDigits 2 f.lead.toNat) ++ " in position " ++ toString f.first
    else "bytes in position " ++ toString f.first ++ "-" ++ toString f.last
  "'utf-8' codec can't decode " ++ bytes ++ ": " ++ f.reason.message

/-- A character begun at position `first` with byte `lead`: it owes `owed` more bytes, the next
one from `low` to `high`. -/
structure PartialCharacter where
  first : Nat
  lead : UInt8
  owed : Nat
  low : UInt8
  high : UInt8

/-- The character that a byte above 0x7F begins at a position, if it can begin one. -/
def PartialCharacter.begin? (position : Nat) (b : UInt8) : Option PartialCharacter :=
  if 0xC2 ≤ b ∧ b ≤ 0xDF then some ⟨position, b, 1, 0x80, 0xBF⟩
  else if b = 0xE0 then some ⟨position, b, 2, 0xA0, 0xBF⟩
  else if b = 0xED then some ⟨position, b, 2, 0x80, 0x9F⟩
  else if 0xE1 ≤ b ∧ b ≤ 0xEF then some ⟨position, b, 2, 0x80, 0xBF⟩
  else if b = 0xF0 then some ⟨position, b, 3, 0x90, 0xBF⟩
  else if 0xF1 ≤ b ∧ b ≤ 0xF3 then some ⟨position, b, 3, 0x80, 0xBF⟩
  else if b = 0xF4 then some ⟨position, b, 3, 0x80, 0x8F⟩
  else none

/-- The first fault in the bytes from `position` on, after a character that may be begun. -/
def faultFrom? (position : Nat) : Option PartialCharacter → List UInt8 → Option Utf8Fault
  | none, [] => none
  | some p, [] => some ⟨p.first, position - 1, p.lead, .unexpectedEnd⟩
  | none, b :: rest =>
    if b < 0x80 then faultFrom? (position + 1) none rest
    else match PartialCharacter.begin? position b with
      | some p => faultFrom? (position + 1) (some p) rest
      | none => some ⟨position, position, b, .invalidStart⟩
  | some p, b :: rest =>
    if p.low ≤ b ∧ b ≤ p.high then
      if p.owed ≤ 1 then faultFrom? (position + 1) none rest
      else
        let owing := { p with owed := p.owed - 1, low := 0x80, high := 0xBF }
        faultFrom? (position + 1) (some owing) rest
    else some ⟨p.first, position - 1, p.lead, .invalidContinuation⟩

/-- The first fault in a sequence of bytes. -/
def firstFault? (bytes : List UInt8) : Option Utf8Fault := faultFrom? 0 none bytes

/-- The text that the bytes encode, or their first fault. -/
def decodeUtf8 (bytes : ByteArray) : Except Utf8Fault String :=
  match String.fromUTF8? bytes with
  | some text => .ok text
  | none => .error ((firstFault? bytes.toList).getD ⟨0, 0, 0, .invalidStart⟩)

end Recase.Text
