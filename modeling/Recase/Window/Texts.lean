import Recase.Window.Basic

/-!
# What is written on the window

* `Application`: what the program says of itself where windows are drawn.
* `TableRow.cells`: the cells of a row of the table. A row that is marked has a colour behind its
  converted path.
* `Window.face`: the texts of the window and of its parts, with the state of the buttons and of the
  check boxes, and the cells of the table.
-/

namespace Recase

namespace Window

/-- The name of the program. -/
def programName : String := "kebabify"

/-- The version of the program. -/
def programVersion : String := "1.0.0"

/-- The style in which the window is drawn. -/
def styleName : String := "Fusion"

/-- The title of the window. -/
def title : String := "kebabify - Kebab-case File Converter"

/-- The least width and height. -/
def minimumSize : Nat × Nat := (800, 600)

/-- The text of the status bar at the bottom. -/
def statusBarText : String := "Ready"

/-- The texts of the buttons. -/
def buttonTexts : List String := ["Add...", "Remove", "Preview", "Convert"]

/-- The texts of the check boxes. -/
def checkTexts : List String := ["Force (ignore uncommitted git changes)", "Write log file"]

/-- The headers of the table. -/
def headers : List String := ["Original Path", "New Path", "Type"]

/-- The text of a directory's kind in the table. -/
def directoryText : String := "Directory"

/-- The text of a file's kind in the table. -/
def fileText : String := "File"

/-- The colour behind a row that changes letter case alone: red, green and blue. -/
def markColour : List Nat := [255, 255, 200]

end Window

/-- What the program says of itself: its arguments, its name first, and how it is drawn. -/
structure Application where
  arguments : List String
  name : String
  version : String
  style : String
  deriving Repr, DecidableEq

/-- The program as it is started with arguments. -/
def Application.ofArguments (arguments : List String) : Application :=
  { arguments := Window.programName :: arguments
    name := Window.programName
    version := Window.programVersion
    style := Window.styleName }

/-- A cell of the table: its text, and the colour behind it if there is one. -/
structure Cell where
  text : String
  colour? : Option (List Nat)
  deriving Repr, DecidableEq

/-- The text of a kind in the table. -/
def EntryKind.tableText : EntryKind → String
  | .directory => Window.directoryText
  | .file => Window.fileText

/-- The cells of a row, one under each header. -/
def TableRow.cells (row : TableRow) : List Cell :=
  [⟨row.path, none⟩, ⟨row.convertedPath, if row.isMarked then some Window.markColour else none⟩,
    ⟨row.kind.tableText, none⟩]

/-- What is seen of the window. -/
structure Face where
  title : String
  minimumSize : Nat × Nat
  statusBar : String
  /-- The buttons, and whether they can be clicked. -/
  buttons : List (String × Bool)
  /-- The check boxes, and whether they are ticked. -/
  checks : List (String × Bool)
  headers : List String
  rows : List (List Cell)
  deriving Repr, DecidableEq

/-- What is seen of the window. -/
def Window.face (w : Window) : Face :=
  { title := title
    minimumSize := minimumSize
    statusBar := statusBarText
    buttons := buttonTexts.zip [w.canAdd, w.canRemove, w.canPreview, w.canConvert]
    checks := checkTexts.zip [w.force, w.log]
    headers := headers
    rows := w.table.map (·.cells) }

/-- The rows with a colour are those that are marked. -/
theorem TableRow.isMarked_iff {row : TableRow} :
    (∃ cell ∈ row.cells, cell.colour? ≠ none) ↔ row.isMarked = true := by
  cases hmarked : row.isMarked <;> simp [cells, hmarked]

end Recase
