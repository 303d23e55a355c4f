import Recase.Source.Conversion
import Recase.Source.Files
import Recase.Text.Utf8
import Recase.World

/-!
# Updating source files

* `Update`: what becomes of one file. It stays as it is if no specifier changes, and is skipped
  if it cannot be read or written.
* `updateFile`: one file converted.
* `UpdateReport`, `updateFiles`: files one after the other; a file that is skipped does not keep
  the others from being converted.
* `updateSources`: the source files below roots, each one converted as soon as it is found.
-/

namespace Recase.Source

/-- What becomes of a file. -/
inductive Update
  | unchanged
  | updated (changes : Nat)
  | skipped (reason : String)
  /-- The path has a NUL in it. -/
  | embeddedNul
  deriving Repr, DecidableEq

/-- A refused opening of a file, in words. -/
def refusalText (errno : Errno) (path : Path) : String :=
  (Failure.system errno path.toString none).message

/-- The file that cannot be read for a reason. -/
def cannotRead (reason : String) : Update := .skipped ("cannot read (" ++ reason ++ ")")

/-- The file that cannot be written for a reason. -/
def cannotWrite (reason : String) : Update := .skipped ("cannot write (" ++ reason ++ ")")

/-- A text written back to a file after some changes. -/
def writeBack (w : World) (path : Path) (text : String) (changes : Nat) : Update × World :=
  if w.unwritable.contains path.toString then
    (cannotWrite (refusalText .permissionDenied path), w)
  else
    match w.disk.write path text.toUTF8 with
    | .ok disk => (.updated changes, { w with disk })
    | .error (.refused errno) => (cannotWrite (refusalText errno path), w)
    | .error .embeddedNul => (.embeddedNul, w)

/-- One file converted. It is written only if a specifier changes. -/
def updateFile (w : World) (path : Path) : Update × World :=
  if w.unreadable.contains path.toString then
    (cannotRead (refusalText .permissionDenied path), w)
  else
    match w.disk.read path with
    | .error (.refused errno) => (cannotRead (refusalText errno path), w)
    | .error .embeddedNul => (.embeddedNul, w)
    | .ok content =>
      match Text.decodeUtf8 content with
      | .error fault => (cannotRead fault.message, w)
      | .ok text =>
        let (converted, changes) := convertText text
        if changes = 0 then (.unchanged, w) else writeBack w path converted changes

/-- What is said about a file. -/
def Update.note? (update : Update) (path : Path) : Option String :=
  match update with
  | .skipped reason => some ("Warning: Skipping " ++ path.toString ++ ": " ++ reason)
  | .updated changes =>
    some ("Updated " ++ toString changes ++ " import(s) in " ++ path.toString)
  | .unchanged | .embeddedNul => none

/-- What became of files. -/
structure UpdateReport where
  updated : List Path
  skipped : List (Path × String)
  /-- What was said, in order. -/
  notes : List String
  deriving Repr, DecidableEq

namespace UpdateReport

/-- Nothing done. -/
def empty : UpdateReport := ⟨[], [], []⟩

/-- The report of a file put before the report of those after it. -/
def cons (path : Path) (update : Update) (after : UpdateReport) : UpdateReport :=
  { updated := (match update with
      | .updated _ => path :: after.updated
      | _ => after.updated)
    skipped := (match update with
      | .skipped reason => (path, reason) :: after.skipped
      | _ => after.skipped)
    notes := (update.note? path).toList ++ after.notes }

end UpdateReport

/-- Files converted one after the other. -/
def updateFiles (w : World) : List Path → UpdateReport × World
  | [] => (.empty, w)
  | path :: rest =>
    let (update, w) := updateFile w path
    let (after, w) := updateFiles w rest
    (after.cons path update, w)

/-- What became of source files, the world after them, and the failure that ended the search for
them, if one did. -/
structure SourcesUpdate where
  report : UpdateReport
  world : World
  failure? : Option Failure

/-- The source files below roots converted. -/
def updateSources (w : World) (extensions ignored : List String) (roots : List Root) :
    SourcesUpdate :=
  let search := sourceFiles w.disk extensions ignored roots
  let (report, w) := updateFiles w search.files
  ⟨report, w, search.failure?⟩

end Recase.Source
