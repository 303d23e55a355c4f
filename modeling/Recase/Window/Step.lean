import Recase.Window.Basic

/-!
# What happens in the window

* `Action`: what a user does. A click on a button that is not enabled does nothing.
* `Window.step`: the window, the world and the events after an action. `Action.wait` lets the job
  that has been started do its work (`Window.finishJob`).
* `Step`: the outcome, with the failure of a job that the window does not handle. Such a job ends
  without a word, and the window stays busy.
-/

namespace Recase

/-- What a user does. -/
inductive Action
  /-- Adds the directory chosen, none if the text is empty. -/
  | add (path : String)
  /-- Selects a row of the list, or none, and removes what is selected. -/
  | remove (row? : Option Nat)
  | setForce (on : Bool)
  | setLog (on : Bool)
  | preview
  /-- Starts the conversion and answers the question. -/
  | convert (isConfirmed : Bool)
  /-- Waits for the job. -/
  | wait
  deriving Repr, DecidableEq

/-- The outcome of an action. -/
structure Step where
  window : Window
  world : World
  events : List Event
  /-- The failure of a job that nobody handles. -/
  crash? : Option Failure

namespace Window

/-- The window, with the directory added unless it is listed. A listed directory is known by its
path as it is written in normal form. -/
def enlist (w : Window) (path : String) : Window :=
  if path.isEmpty || (w.directories.map fun text => (Path.parse text).toString).contains path then w
  else ({ w with directories := w.directories ++ [path] } : Window).dropPlan

/-- The window without the directory of a row. -/
def unlist (w : Window) (row? : Option Nat) : Window :=
  let kept := match row? with
    | some row => w.directories.eraseIdx row
    | none => w.directories
  ({ w with directories := kept } : Window).dropPlan

/-- Starts a preview. -/
def startPreview (w : Window) (d : Disk) : Window × List Event :=
  if w.directories.isEmpty then
    (w, [.message .warning "Warning" "Please add a directory first"])
  else
    let busy := ({ w with plan? := none } : Window).withBusy true
    ({ busy with
        progress := busy.progress.setRange 0 0
        job? := some (.preview w.roots (w.options d)) },
      [])

/-- Asks whether to convert, and starts the conversion. -/
def startConversion (w : Window) (d : Disk) (isConfirmed : Bool) : Window × List Event :=
  match w.plan? with
  | none => (w, [])
  | some plan =>
    if plan.moves.isEmpty then (w, [])
    else
      let question := Event.question "Confirm"
        ("Are you sure you want to rename " ++ toString plan.renameCount
          ++ " items and update imports?")
      if !isConfirmed then (w, [question])
      else
        let busy := w.withBusy true
        ({ busy with
            canConvert := false
            progress := busy.progress.setValue 0
            job? := some (.convert w.roots (w.options d)) },
          [question, .value 0])

/-- The longest status text of a scan. -/
def scanStatusLimit : Nat := 80

/-- The end of a text, up to a number of characters. -/
def lastChars (limit : Nat) (text : String) : String :=
  String.ofList (text.toList.drop (text.length - limit))

/-- The window after a scanned path has been shown. -/
def showVisited (w : Window) (path : String) : Window × List Event :=
  w.setStatus (lastChars scanStatusLimit path)

/-- The window after a report of a run has been shown. -/
def showReport (w : Window) (r : Report) : Window × List Event :=
  let w := { w with progress := w.progress.setValue r.percent }
  let (w, events) := w.setStatus r.message
  (w, .value r.percent :: events)

/-- The window after all of a list has been shown. -/
def showAll {α : Type} (shown : Window → α → Window × List Event) (w : Window) :
    List α → Window × List Event
  | [] => (w, [])
  | a :: rest =>
    let (w, events) := shown w a
    let (w, more) := showAll shown w rest
    (w, events ++ more)

/-- The window with a new plan. A plan with conflicts cannot be carried out. -/
def showPlan (w : Window) (plan : Plan) : Window × List Event :=
  let w := { w with plan? := some plan, progress := w.progress.setRange 0 100 }
  let w := (w.withBusy false).fillTable
  if !plan.conflicts.isEmpty then
    ({ w with canConvert := false },
      [.message .warning "Conflicts" ("\n".intercalate (plan.conflicts.map (·.message)))])
  else if !plan.moves.isEmpty then
    w.setStatus ("Will rename " ++ toString plan.renameCount ++ " of " ++ toString plan.scanned
      ++ " items")
  else w.setStatus "No files or directories need to be renamed"

/-- The window after a conversion. -/
def showResult (w : Window) (result : RunResult) : Window × List Event :=
  let (w, events) := (w.dropPlan.withBusy false).setStatus "Complete"
  (w, events ++ [.message .information "Complete" result.summary])

/-- What is said about a failure. -/
def failureText (failure : Failure) : String :=
  failure.message ++ match failure with
    | .moveFailed moveFailure =>
      (match moveFailure.leftover? with
      | some path => "\n\nAn entry was left at its temporary name: " ++ path
          ++ "\nRun 'kebabify --cli recover <directory>' to finish the rename."
      | none => "")
    | _ => ""

/-- The window after a job has failed. -/
def showFailure (w : Window) (failure : Failure) : Window × List Event :=
  let w := { w with progress := w.progress.setRange 0 100 }
  let (w, events) := (w.dropPlan.withBusy false).setStatus "Failed"
  (w, events ++ [.message .critical "Error" (failureText failure)])

/-- Whether a job hands the failure to the window. -/
def handles (failure : Failure) : Bool := failure.isReported || failure.isSystem

/-- The end of a job: its result is shown, a failure if the window handles it. -/
def conclude {α : Type} (shown : Window → α → Window × List Event) (w : Window) (world : World)
    (events : List Event) (result : Except Failure α) : Step :=
  match result with
  | .ok a =>
    let (w, more) := shown w a
    ⟨w, world, events ++ more, none⟩
  | .error failure =>
    if handles failure then
      let (w, more) := w.showFailure failure
      ⟨w, world, events ++ more, none⟩
    else ⟨w, world, events, some failure⟩

/-- The work of a job, and what the window shows of it. -/
def finishJob (w : Window) (world : World) : Job → Step
  | .preview roots options =>
    let p := Recase.preview world options.ignored roots
    let (w, events) := showAll showVisited w p.visited
    conclude showPlan w { world with drawn := p.drawn } events p.plan
  | .convert roots options =>
    let o := run options roots world
    let (w, events) := showAll showReport w o.reports
    conclude showResult w o.world events o.result

/-- The window, the world and the events after an action. -/
def step (w : Window) (world : World) : Action → Step
  | .add path =>
    if w.canAdd then ⟨w.enlist path, world, [.chooseDirectory "Select Directory"], none⟩
    else ⟨w, world, [], none⟩
  | .remove row? =>
    if w.canRemove then ⟨w.unlist row?, world, [], none⟩ else ⟨w, world, [], none⟩
  | .setForce on => ⟨{ w with force := on }, world, [], none⟩
  | .setLog on => ⟨{ w with log := on }, world, [], none⟩
  | .preview =>
    if w.canPreview then
      let (w, events) := w.startPreview world.disk
      ⟨w, world, events, none⟩
    else ⟨w, world, [], none⟩
  | .convert isConfirmed =>
    if w.canConvert then
      let (w, events) := w.startConversion world.disk isConfirmed
      ⟨w, world, events, none⟩
    else ⟨w, world, [], none⟩
  | .wait =>
    match w.job? with
    | none => ⟨w, world, [], none⟩
    | some job => finishJob { w with job? := none } world job

end Window

end Recase
