import Recase.Execute
import Recase.Plan.Basic
import Recase.RunLog
import Recase.Source.Update
import Recase.Vcs.Gate

/-!
# Runs

A run goes through its stages one after the other: the gate, the scan, the plan, the moves, the
references, the log. Each stage starts when the one before it is done.

* `Options`: how a run is made.
* `preview`: the scan and the plan, with nothing touched.
* `Report`: a percentage and a message. `Outcome`: the reports of a run, the world after it, and
  its result or the failure that ended it.
* `run`: the whole run; `RunResult.summary`: what it did, in words.
-/

namespace Recase

/-- How a run is made. -/
structure Options where
  /-- Whether to go on over uncommitted changes. -/
  force : Bool
  /-- Whether to stop after the plan. -/
  dryRun : Bool
  /-- Whether to move with version control; by default where the roots are under it. -/
  useVersionControl : Option Bool
  ignored : List String
  extensions : List String
  logging : Bool
  logFile : Path
  deriving Repr, DecidableEq

/-- The name of the log file, in the working directory unless another file is asked for. -/
def logName : String := "kebabify.log"

/-- The options of a run for which nothing is asked. -/
def Options.default (d : Disk) : Options :=
  { force := false
    dryRun := false
    useVersionControl := none
    ignored := Name.ignoredNames
    extensions := Source.usualExtensions
    logging := false
    logFile := (Disk.pathOf d.here).child logName }

/-- The scan and the plan of roots: the paths visited, the plan, and the tokens drawn after it. -/
structure Preview where
  visited : List String
  plan : Except Failure Plan
  drawn : Nat

/-- The scan and the plan of roots. -/
def preview (w : World) (ignored : List String) (roots : List Root) : Preview :=
  let found := scan w.disk ignored roots
  match found.items with
  | .error failure => ⟨found.visited, .error failure, w.drawn⟩
  | .ok items =>
    let isTaken (path : Path) : Bool := w.disk.hasEntry path.route
    let (plan, drawn) := buildPlan isTaken w.token w.drawn items
    ⟨found.visited, plan.map fun p => { p with scanned := items.length }, drawn⟩

/-- What a run did. -/
structure RunResult where
  scanned : Nat
  renamed : List Item
  moves : List Move
  updated : List Path
  skipped : List (Path × String)
  standing : Option Standing
  logFile : Option Path
  dryRun : Bool
  deriving Repr, DecidableEq

namespace RunResult

/-- The most skipped files that a summary lists. -/
def listedSkips : Nat := 10

/-- The lines on skipped files. -/
def skippedLines (skipped : List (Path × String)) : List String :=
  if skipped.isEmpty then []
  else
    ["  - Skipped files: " ++ toString skipped.length]
      ++ (skipped.take listedSkips).map (fun (path, reason) =>
        "      " ++ path.toString ++ ": " ++ reason)
      ++ (if listedSkips < skipped.length then
        ["      ... and " ++ toString (skipped.length - listedSkips) ++ " more"] else [])

/-- The counts of a run, the skipped files and the log file, in words. -/
def summaryText (dryRun : Bool) (scanned renamed updated : Nat) (skipped : List (Path × String))
    (logFile : Option Path) : String :=
  let verb := if dryRun then "Would rename" else "Renamed"
  "\n".intercalate
    (["Conversion Result:",
      "  - Scanned items: " ++ toString scanned,
      "  - " ++ verb ++ ": " ++ toString renamed,
      "  - Updated files: " ++ toString updated]
      ++ skippedLines skipped
      ++ (match logFile with
        | some file => ["  - Log written to: " ++ file.toString]
        | none => []))

/-- What the run did, in words. -/
def summary (r : RunResult) : String :=
  summaryText r.dryRun r.scanned r.renamed.length r.updated.length r.skipped r.logFile

end RunResult

/-- How far a run has come, and what it is doing. -/
structure Report where
  percent : Nat
  message : String
  deriving Repr, DecidableEq

/-- What became of a run. -/
structure Outcome where
  reports : List Report
  world : World
  result : Except Failure RunResult

namespace Outcome

/-- A run that fails without a further report. -/
def failed (w : World) (failure : Failure) : Outcome := ⟨[], w, .error failure⟩

/-- A run that ends with a result and a last report. -/
def completed (w : World) (message : String) (result : RunResult) : Outcome :=
  ⟨[⟨100, message⟩], w, .ok result⟩

/-- The outcome with reports in front. -/
def after (reports : List Report) (o : Outcome) : Outcome :=
  { o with reports := reports ++ o.reports }

end Outcome

/-- The report of a move that is announced: from 40 to 60 percent as the moves go on. -/
def Announcement.report (a : Announcement) : Report := ⟨40 + 20 * a.number / a.total, a.message⟩

/-- The last stage: the log, if one is asked for. -/
def logStage (o : Options) (roots : List Path) (r : RunResult) (w : World) : Outcome :=
  let message := "Successfully renamed " ++ toString r.renamed.length ++ " items and updated "
    ++ toString r.updated.length ++ " files"
  if o.logging then
    let log : RunLog :=
      ⟨w.clock, roots.map (·.toString), r.renamed, r.updated.map (·.toString)⟩
    let (saved, disk) := log.save o.logFile w.disk
    Outcome.after [⟨90, "Writing log file..."⟩]
      (match saved with
      | .error failure => .failed { w with disk } failure
      | .ok () => .completed { w with disk } message { r with logFile := some o.logFile })
  else .completed w message r

/-- The stage of the references, and those after it. -/
def updateStage (o : Options) (roots : List Path) (r : RunResult) (w : World) : Outcome :=
  let done := Source.updateSources w o.extensions o.ignored (roots.map .ofPath)
  let r := { r with updated := done.report.updated, skipped := done.report.skipped }
  Outcome.after (⟨80, "Updating import statements..."⟩ :: done.report.notes.map (⟨80, ·⟩))
    (match done.failure? with
    | some failure => .failed done.world failure
    | none => logStage o roots r done.world)

/-- The stage of the moves, and those after it. -/
def moveStage (o : Options) (roots : List Path) (standing : Standing) (r : RunResult)
    (plan : Plan) (w : World) : Outcome :=
  let useVersionControl := o.useVersionControl.getD standing.isVersioned
  let done := execute (World.mover useVersionControl) none plan.moves w
  Outcome.after (⟨40, "Renaming files and directories..."⟩ :: done.announced.map (·.report))
    (match done.failure? with
    | some failure => .failed done.state failure
    | none => updateStage o roots { r with renamed := plan.items } done.state)

/-- The stages after a plan has been made. -/
def planStage (o : Options) (roots : List Path) (standing : Standing) (plan : Plan) (w : World) :
    Outcome :=
  let r : RunResult := ⟨plan.scanned, [], [], [], [], some standing, none, o.dryRun⟩
  if !plan.conflicts.isEmpty then .failed w (.conflicting plan.conflicts)
  else if plan.items.isEmpty then
    .completed w "No files or directories need to be renamed." r
  else
    let r := { r with moves := plan.moves }
    let count := toString plan.renameCount
    Outcome.after [⟨20, "Found " ++ count ++ " items to rename..."⟩]
      (if o.dryRun then
        .completed w ("[Preview] " ++ count ++ " items would be renamed")
          { r with renamed := plan.items }
      else moveStage o roots standing r plan w)

/-- The stage of the scan, and those after it. -/
def scanStage (o : Options) (roots : List Path) (standing : Standing) (w : World) : Outcome :=
  let p := preview w o.ignored (roots.map .ofPath)
  let w := { w with drawn := p.drawn }
  Outcome.after [⟨20, "Scanning directories for files to rename..."⟩]
    (match p.plan with
    | .error failure => .failed w failure
    | .ok plan => planStage o roots standing plan w)

/-- What has to hold before anything is scanned: no uncommitted changes unless the run is forced,
and good roots. -/
def admission (o : Options) (roots : List Root) (w : World) :
    Except Failure (Standing × List Path) := do
  let standing ← standingOf w.disk w.git.repositories roots
  ensureSafe standing o.force
  let kept ← outermostRoots w.disk roots
  .ok (standing, kept)

/-- A whole run. -/
def run (o : Options) (roots : List Root) (w : World) : Outcome :=
  Outcome.after [⟨0, "Checking git status..."⟩]
    (match admission o roots w with
    | .error failure => .failed w failure
    | .ok (standing, kept) => scanStage o kept standing w)

end Recase
