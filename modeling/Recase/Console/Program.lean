import Recase.Console.Menu

/-!
# The program

* `Ending`: how the program ends: with an exit code, after bad usage or help, or by a failure that
  nobody catches.
* `commandLine`: the program of the command line. Without a command it is the menu.
* `entry`: the program as it is started. The command line has to be asked for; without it a window
  would be opened.
* `Terminal.finished`: the ending of a session and the terminal after it.
-/

namespace Recase.Console

/-- How a program ends. -/
inductive Ending
  | exit (code : Nat)
  /-- The arguments end the program, with an exit code of their own. -/
  | usage (code : Nat)
  | failed (failure : Failure)
  deriving Repr, DecidableEq

/-- The ending of a session that starts at a terminal, and the terminal after it. -/
def Terminal.finished (t : Terminal) (session : Session Nat) : Ending × Terminal :=
  match session.run t with
  | .ok code t => (.exit code, t)
  | .error failure t => (.failed failure, t)

/-- The program of the command line. -/
def commandLine (arguments : List String) (t : Terminal) : Ending × Terminal :=
  match readArguments arguments with
  | .exit code => (.usage code, t)
  | .menu => t.finished menu
  | .command command => t.finished (performCommand command)

/-- The arguments that ask for the command line. -/
def commandLineFlags : List String := ["--cli", "-c"]

/-- Whether the command line is asked for. -/
def asksForCommandLine (arguments : List String) : Bool :=
  arguments.any commandLineFlags.contains

/-- What is printed where no window can be opened, for a reason. -/
def noWindowLines (reason : String) : List String :=
  ["Error: Unable to start GUI, please ensure PySide6 is installed", "Detailed error: " ++ reason,
    "", "Install command: pip install PySide6", "", "To use CLI mode, run:", "    kebabify --cli",
    "or  kebabify -c"]

/-- The program where no window can be opened. -/
def entry (noWindow : String) (arguments : List String) (t : Terminal) : Ending × Terminal :=
  if asksForCommandLine arguments then
    commandLine (arguments.filter (!commandLineFlags.contains ·)) t
  else t.finished (finish 1 (noWindowLines noWindow))

end Recase.Console
