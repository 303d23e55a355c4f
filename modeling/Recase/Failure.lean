import Recase.Move
import Recase.Plan.Conflict
import Recase.Text.RangeTable
import Recase.Tree.Errno

/-!
# Failures

* `MoveFailure`: a move that failed, with what is known of it.
* `Failure`: every way in which an operation ends without a result, by its cause.
* `Failure.message`: a failure in words.
* `Failure.isReported`: the failures that the program expects and reports to its user, as opposed
  to those of the system (`Failure.isSystem`) and the rest, which end it.
-/

namespace Recase

open Text

/-- A move that failed. -/
structure MoveFailure where
  move : Move
  command : String
  stderr : String
  stdout : String
  /-- The exit code, or the number of the refusal. -/
  exitCode : Option Int
  /-- The signal that ended the command. -/
  signal : Option String
  deriving Repr, DecidableEq

namespace MoveFailure

/-- A labelled line of output, left out if there is only blank space in it. -/
def outputLine (label output : String) : List String :=
  let trimmed := trim output
  if trimmed.isEmpty then [] else [label ++ ": " ++ trimmed]

/-- The failure in words. -/
def message (f : MoveFailure) : String :=
  "\n".intercalate
    (["Command failed: " ++ f.command]
      ++ outputLine "Stderr" f.stderr
      ++ outputLine "Stdout" f.stdout
      ++ (match f.exitCode with
        | some code => ["Exit code: " ++ toString code]
        | none => [])
      ++ (match f.signal with
        | some signal => if signal.isEmpty then [] else ["Signal: " ++ signal]
        | none => []))

/-- The temporary path at which the failure has left an entry: the source of the second of two
moves. -/
def leftover? (f : MoveFailure) : Option String :=
  if f.move.leavesTemporary then some f.move.source else none

end MoveFailure

/-- Why an operation ends without a result. -/
inductive Failure
  /-- A root does not exist. -/
  | rootMissing (given : String)
  /-- A root is no directory. -/
  | rootNotDirectory (given : String)
  /-- Repositories have uncommitted changes. -/
  | uncommitted (repositories : List String)
  /-- Items of the plan have one destination. -/
  | conflicting (conflicts : List Conflict)
  /-- A move failed. -/
  | moveFailed (failure : MoveFailure)
  /-- The system refuses a call on a path, or on two. -/
  | system (errno : Errno) (path : String) (target? : Option String)
  /-- A path has a NUL in it. -/
  | embeddedNul
  /-- A target that must have the temporary suffix in it has none. -/
  | missingSuffix
  /-- A name cannot be the last segment of a path. -/
  | invalidName (name : String)
  /-- The input has ended. -/
  | endOfInput
  /-- A home directory is not known. -/
  | noHome
  /-- There is nothing where a path is needed. -/
  | noPath
  /-- A path ends in a loop of links. -/
  | linkLoop (path : String)
  deriving Repr, DecidableEq

namespace Failure

/-- The failure in words. -/
def message : Failure → String
  | rootMissing given => "Directory does not exist: " ++ given
  | rootNotDirectory given => "Path is not a directory: " ++ given
  | uncommitted repositories =>
    "Git repository has uncommitted modified files in: " ++ ", ".intercalate repositories
      ++ ". Please commit or stash your changes first."
  | conflicting conflicts =>
    "Rename plan has conflicts:\n" ++ "\n".intercalate (conflicts.map ("  - " ++ ·.message))
  | moveFailed failure => failure.message
  | system errno path target? =>
    "[Errno " ++ toString errno.code ++ "] " ++ errno.text ++ ": " ++ quoted path
      ++ (match target? with
        | some target => " -> " ++ quoted target
        | none => "")
  | embeddedNul => "embedded null byte"
  | missingSuffix => "substring not found"
  | invalidName name => "Invalid name " ++ quoted name
  | endOfInput => "EOF when reading a line"
  | noHome => "Could not determine home directory."
  | noPath => "expected str, bytes or os.PathLike object, not list"
  | linkLoop path => "Symlink loop from " ++ quoted path

/-- Whether the program expects the failure and reports it to its user. -/
def isReported : Failure → Bool
  | rootMissing _ | rootNotDirectory _ | uncommitted _ | conflicting _ | moveFailed _ => true
  | _ => false

/-- Whether the failure is a refusal of the system. -/
def isSystem : Failure → Bool
  | system .. => true
  | _ => false

end Failure

end Recase
