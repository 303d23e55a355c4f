import Recase.Run

/-!
# The window

* `ProgressBar`: a value within a range, and whether the bar is shown. A value outside the range is
  ignored, unless the range is empty and at zero, which stands for work without a known end
  (`ProgressBar.setValue`). A value that does not fit a new range is taken away: it becomes the
  number before the range (`ProgressBar.setRange`).
* `Window`: what the window shows and holds: the list of directories, the options, the plan, which
  buttons are enabled, the progress bar, the status line, the table of the plan, and the job that
  has been started.
* `Event`: what a user can notice besides.
* `Window.withBusy`, `Window.dropPlan`, `Window.showPlan`: the parts of the window that change
  together.
-/

namespace Recase

/-- A progress bar. -/
structure ProgressBar where
  low : Int
  high : Int
  value : Int
  isShown : Bool
  deriving Repr, DecidableEq

namespace ProgressBar

/-- The bar of a window that has done nothing. -/
def initial : ProgressBar := ⟨0, 100, -1, false⟩

/-- The bar with a value, if the range takes it. -/
def setValue (bar : ProgressBar) (value : Int) : ProgressBar :=
  if (bar.low ≤ value ∧ value ≤ bar.high) ∨ (bar.low = 0 ∧ bar.high = 0) then { bar with value }
  else bar

/-- The bar with a range; its value is taken away if the range does not take it. -/
def setRange (bar : ProgressBar) (low high : Int) : ProgressBar :=
  if bar.value < low - 1 ∨ high < bar.value then { bar with low, high, value := low - 1 }
  else { bar with low, high }

/-- The bar shown or hidden. -/
def setShown (bar : ProgressBar) (isShown : Bool) : ProgressBar := { bar with isShown }

end ProgressBar

/-- A row of the table: an item of the plan. -/
structure TableRow where
  path : String
  convertedPath : String
  kind : EntryKind
  /-- Whether the row is marked as a change of letter case alone. -/
  isMarked : Bool
  deriving Repr, DecidableEq

/-- The row of an item. -/
def Item.tableRow (item : Item) : TableRow :=
  { path := item.path
    convertedPath := item.convertedPath
    kind := item.kind
    isMarked := Text.lowercase item.name == Text.lowercase item.convertedName }

/-- The kinds of message box. -/
inductive MessageKind
  | warning
  | information
  | critical
  deriving Repr, DecidableEq

/-- What a user can notice besides the state of the window. -/
inductive Event
  /-- The status line is set. -/
  | status (text : String)
  /-- The progress bar is given a value. -/
  | value (n : Int)
  /-- A directory is asked for. -/
  | chooseDirectory (title : String)
  /-- A question is asked. -/
  | question (title text : String)
  /-- A message box is shown. -/
  | message (kind : MessageKind) (title text : String)
  deriving Repr, DecidableEq

/-- Work started by the window and done beside it, with the directories and options that the window
had then. -/
inductive Job
  | preview (roots : List Root) (options : Options)
  | convert (roots : List Root) (options : Options)
  deriving Repr, DecidableEq

/-- The window. -/
structure Window where
  /-- The texts of the list of directories. -/
  directories : List String
  force : Bool
  log : Bool
  plan? : Option Plan
  canAdd : Bool
  canRemove : Bool
  canPreview : Bool
  canConvert : Bool
  progress : ProgressBar
  status : String
  table : List TableRow
  /-- The job that is not done yet. -/
  job? : Option Job
  deriving Repr, DecidableEq

namespace Window

/-- The window as it opens. -/
def initial : Window :=
  { directories := []
    force := false
    log := false
    plan? := none
    canAdd := true
    canRemove := true
    canPreview := true
    canConvert := false
    progress := .initial
    status := ""
    table := []
    job? := none }

/-- Whether there is a plan with something to move. -/
def hasMoves (w : Window) : Bool := w.plan?.any fun p => !p.moves.isEmpty

/-- The window busy or at rest. -/
def withBusy (w : Window) (busy : Bool) : Window :=
  { w with
    canPreview := !busy
    canAdd := !busy
    canRemove := !busy
    canConvert := !busy && w.hasMoves
    progress := w.progress.setShown busy }

/-- The window without a plan. -/
def dropPlan (w : Window) : Window :=
  { w with plan? := none, table := [], canConvert := false }

/-- The window with the rows of its plan. -/
def fillTable (w : Window) : Window :=
  { w with table := ((w.plan?.map (·.items)).getD []).map (·.tableRow) }

/-- The roots of the list of directories. -/
def roots (w : Window) : List Root := w.directories.map fun text => .ofPath (Path.parse text)

/-- The options of a job started now. -/
def options (w : Window) (d : Disk) : Options :=
  { Options.default d with force := w.force, logging := w.log }

/-- The window with a text in its status line, and the event. -/
def setStatus (w : Window) (text : String) : Window × List Event :=
  ({ w with status := text }, [.status text])

end Window

end Recase
