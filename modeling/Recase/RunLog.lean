import Recase.Failure
import Recase.Disk
import Recase.Text.Quoted

/-!
# Run logs

* `RunLog`: what a run did, and when.
* `RunLog.text`: the log in JSON, one value a line.
* `RunLog.save`: the log written to a file, the directories above it made where they are missing.
-/

namespace Recase

open Text

/-- What a run did. -/
structure RunLog where
  clock : String
  directories : List String
  renamed : List Item
  updated : List String
  deriving Repr, DecidableEq

namespace RunLog

/-- The kind of an item, as it is written. -/
def kindText : EntryKind → String
  | .directory => "directory"
  | .file => "file"

/-- A renamed item, as it is written. -/
def itemText (item : Item) : String :=
  jsonBlock "\x7b" "\x7d" 4
    [jsonField "root" (jsonString item.root.toString),
      jsonField "src" (jsonString item.path),
      jsonField "dst" (jsonString item.convertedPath),
      jsonField "type" (jsonString (kindText item.kind))]

/-- A list of texts, as it is written. -/
def listText (texts : List String) : String := jsonBlock "[" "]" 2 (texts.map jsonString)

/-- The log in JSON. -/
def text (log : RunLog) : String :=
  jsonBlock "\x7b" "\x7d" 0
    [jsonField "timestamp" (jsonString log.clock),
      jsonField "directories" (listText log.directories),
      jsonField "renamed" (jsonBlock "[" "]" 2 (log.renamed.map itemText)),
      jsonField "updated_files" (listText log.updated)]

/-- The failure of a call on one path. -/
def callFailure (path : Path) : Disk.Fault → Failure
  | .refused errno => .system errno path.toString none
  | .embeddedNul => .embeddedNul

/-- The log written to a file. The disk keeps the directories made before a failure. -/
def save (log : RunLog) (file : Path) (d : Disk) : Except Failure Unit × Disk :=
  match d.makeDirectories file.parent with
  | (some fault, d) => (.error (callFailure fault.path fault.fault), d)
  | (none, d) =>
    match d.write file log.text.toUTF8 with
    | .ok d => (.ok (), d)
    | .error fault => (.error (callFailure file fault), d)

end RunLog

end Recase
