import Recase.Console.Arguments
import Recase.Console.Commands
import Recase.Console.Menu
import Recase.Console.Program
import Recase.Console.Session
import Recase.Console.Work
import Recase.Disk
import Recase.Execute
import Recase.Failure
import Recase.Item
import Recase.Main
import Recase.Move
import Recase.Name.Convert
import Recase.Name.Temporary
import Recase.Order.Sort
import Recase.Path.Basic
import Recase.Path.Route
import Recase.Plan.Basic
import Recase.Plan.Conflict
import Recase.Proofs.Again
import Recase.Proofs.Attempts
import Recase.Proofs.Console.Consent
import Recase.Proofs.Console.Outcome
import Recase.Proofs.Converted
import Recase.Proofs.Course
import Recase.Proofs.Covered
import Recase.Proofs.Disk
import Recase.Proofs.Execute
import Recase.Proofs.Expected
import Recase.Proofs.Failures
import Recase.Proofs.Frame
import Recase.Proofs.Interrupted
import Recase.Proofs.Leftover
import Recase.Proofs.Move
import Recase.Proofs.Name.Entry
import Recase.Proofs.Name.Intended
import Recase.Proofs.Name.Kebab
import Recase.Proofs.Name.Words
import Recase.Proofs.Nested
import Recase.Proofs.Occupied
import Recase.Proofs.Outermost
import Recase.Proofs.Path.Normal
import Recase.Proofs.Path.Text
import Recase.Proofs.Plan.Conflict
import Recase.Proofs.Plan.Counts
import Recase.Proofs.Plan.Mistaken
import Recase.Proofs.Plan.Order
import Recase.Proofs.Plan.Pairs
import Recase.Proofs.Plan.Rivals
import Recase.Proofs.Plan.Turns
import Recase.Proofs.Plan.Warnings
import Recase.Proofs.Present
import Recase.Proofs.Preview
import Recase.Proofs.Reached
import Recase.Proofs.Recovery
import Recase.Proofs.Recovery.Total
import Recase.Proofs.Recovery.Turn
import Recase.Proofs.Refused
import Recase.Proofs.Rename
import Recase.Proofs.Reports
import Recase.Proofs.Restarted
import Recase.Proofs.Resumed
import Recase.Proofs.Root
import Recase.Proofs.Run
import Recase.Proofs.Scan
import Recase.Proofs.Source.Agreement
import Recase.Proofs.Source.Conversion
import Recase.Proofs.Source.Files
import Recase.Proofs.Source.Repeated
import Recase.Proofs.Source.Report
import Recase.Proofs.Source.Resolved
import Recase.Proofs.Source.Specifier
import Recase.Proofs.Source.Update
import Recase.Proofs.Stage
import Recase.Proofs.Straight
import Recase.Proofs.Temporary
import Recase.Proofs.Text.CaseFold
import Recase.Proofs.Text.Lowercase
import Recase.Proofs.Tokens
import Recase.Proofs.Tree.Arranged
import Recase.Proofs.Tree.Basic
import Recase.Proofs.Tree.Leads
import Recase.Proofs.Tree.Renamed
import Recase.Proofs.Tree.Settle
import Recase.Proofs.Tree.Shape
import Recase.Proofs.Tree.Trail
import Recase.Proofs.Tree.Walk
import Recase.Proofs.Untouched
import Recase.Proofs.Vcs.Gate
import Recase.Proofs.Window.Busy
import Recase.Proofs.Window.Marked
import Recase.Proofs.Window.Ready
import Recase.Proofs.Written
import Recase.Recovery
import Recase.Root
import Recase.Run
import Recase.RunLog
import Recase.Scan
import Recase.Source.Conversion
import Recase.Source.Files
import Recase.Source.Reference
import Recase.Source.Update
import Recase.Text.Case
import Recase.Text.CaseTable
import Recase.Text.Cased
import Recase.Text.Digit
import Recase.Text.Pieces
import Recase.Text.Quoted
import Recase.Text.RangeTable
import Recase.Text.Utf8
import Recase.Text.Visible
import Recase.Text.Word
import Recase.Tree.Basic
import Recase.Tree.Change
import Recase.Tree.Errno
import Recase.Tree.Settle
import Recase.Tree.Walk
import Recase.Vcs.Gate
import Recase.Vcs.Repository
import Recase.Vcs.Tool
import Recase.Window.Basic
import Recase.Window.Step
import Recase.Window.Texts
import Recase.World
