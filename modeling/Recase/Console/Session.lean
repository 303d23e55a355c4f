import Recase.World
import Recase.Text.RangeTable
import Recase.Text.Case
import Recase.Text.Pieces

/-!
# Sessions at a terminal

* `Terminal`: the world, the lines that are still to be read, and what has been printed.
* `Session`: a program that prints, asks and works on the world; a failure ends it and leaves the
  terminal as it was then.
* `say`, `print`, `ask`: a line printed, a text printed, a line read after a prompt. Nothing is read
  at the end of the input, and the prompt has been printed by then.
* `linesOf`: the lines of an input text.
-/

namespace Recase.Console

open Text

/-- What a session works on. -/
structure Terminal where
  world : World
  input : List String
  output : String

/-- A program at a terminal. -/
abbrev Session := EStateM Failure Terminal

/-- The lines of a text. A line ends at a line feed or at the end of the text; no line follows a
line feed at the end. -/
def linesOf (text : String) : List String :=
  let lines := (pieces (· == '\n') text.toList).map String.ofList
  if lines.getLast? = some "" then lines.dropLast else lines

/-- The terminal with a text printed. -/
def Terminal.printed (t : Terminal) (text : String) : Terminal :=
  { t with output := t.output ++ text }

/-- Prints a text. -/
def print (text : String) : Session Unit := modify (·.printed text)

/-- Prints a line. -/
def say (line : String) : Session Unit := print (line ++ "\n")

/-- Prints lines. -/
def sayAll (lines : List String) : Session Unit := print (String.join (lines.map (· ++ "\n")))

/-- Reads a line after a prompt. -/
def ask (prompt : String) : Session String := do
  print prompt
  match (← get).input with
  | [] => throw .endOfInput
  | line :: rest =>
    modify ({ · with input := rest })
    return line

/-- Reads a line after a prompt and drops the blanks around it. -/
def askTrimmed (prompt : String) : Session String := return trim (← ask prompt)

/-- Reads an answer after a prompt: a line in lower case, without the blanks around it. -/
def askAnswer (prompt : String) : Session String := return lowercase (← askTrimmed prompt)

/-- The world. -/
def world : Session World := return (← get).world

/-- Puts another world in place. -/
def setWorld (w : World) : Session Unit := modify ({ · with world := w })

/-- The value of a result; a failure ends the session. -/
def orEnd {α : Type} : Except Failure α → Session α
  | .ok a => pure a
  | .error failure => throw failure

/-- The text followed by spaces up to a width. -/
def padRight (width : Nat) (s : String) : String :=
  s ++ String.ofList (List.replicate (width - s.length) ' ')

/-- The text after spaces up to a width. -/
def padLeft (width : Nat) (s : String) : String :=
  String.ofList (List.replicate (width - s.length) ' ') ++ s

/-- A line made of one character. -/
def ruleLine (c : Char) (width : Nat) : String := String.ofList (List.replicate width c)

end Recase.Console
