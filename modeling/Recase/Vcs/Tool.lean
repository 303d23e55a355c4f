import Recase.Failure
import Recase.Vcs.Repository

/-!
# The version-control tool

* `MoveCall`: a move asked of the tool, as it is run in a working directory.
* `MoveReply`: how the tool ends, or that it cannot be started.
* `Git`: the repositories, the answers that the tool gives instead of moving anything, and the
  calls made. Once the answers are used up, or where one is missing, it moves for real
  (`Disk.toolMove`).
* `signalOf?`: the name of the signal behind a negative exit code.
-/

namespace Recase

/-- A move asked of the tool. -/
structure MoveCall where
  source : String
  target : String
  directory : String
  deriving Repr, DecidableEq

/-- How the tool ends. -/
inductive MoveReply
  /-- It ends with an exit code and what it printed. -/
  | ended (exitCode : Int) (stderr stdout : String)
  /-- It cannot be started: the number of the refusal, and its text. -/
  | unstartable (errno : Int) (text : String)
  /-- It cannot be given a text with a NUL in it. -/
  | unspeakable
  deriving Repr, DecidableEq

/-- Version control as a run finds it. -/
structure Git where
  repositories : List Repository
  /-- The next answers of the tool, none for a real move. -/
  answers : List (Option MoveReply)
  /-- The calls made, oldest first. -/
  calls : List MoveCall
  deriving Repr, DecidableEq

/-- Version control without repositories. -/
def Git.empty : Git := ⟨[], [], []⟩

/-- The signals by number. -/
def signals : List (Nat × String) :=
  [(1, "SIGHUP"), (2, "SIGINT"), (3, "SIGQUIT"), (4, "SIGILL"), (5, "SIGTRAP"), (6, "SIGABRT"),
    (7, "SIGBUS"), (8, "SIGFPE"), (9, "SIGKILL"), (10, "SIGUSR1"), (11, "SIGSEGV"),
    (12, "SIGUSR2"), (13, "SIGPIPE"), (14, "SIGALRM"), (15, "SIGTERM"), (16, "SIGSTKFLT"),
    (17, "SIGCHLD"), (18, "SIGCONT"), (19, "SIGSTOP"), (20, "SIGTSTP"), (21, "SIGTTIN"),
    (22, "SIGTTOU"), (23, "SIGURG"), (24, "SIGXCPU"), (25, "SIGXFSZ"), (26, "SIGVTALRM"),
    (27, "SIGPROF"), (28, "SIGWINCH"), (29, "SIGIO"), (30, "SIGPWR"), (31, "SIGSYS"),
    (34, "SIGRTMIN"), (64, "SIGRTMAX")]

/-- The signal that a negative exit code stands for, by name or else by number. -/
def signalOf? (exitCode : Int) : Option String :=
  if 0 ≤ exitCode then none
  else
    let number := exitCode.natAbs
    some ((signals.lookup number).getD (toString number))

/-- A complaint of the tool about the two ends of a move. -/
def complaint (what : String) (call : MoveCall) : MoveReply :=
  .ended 128
    ("fatal: " ++ what ++ ", source=" ++ call.source ++ ", destination=" ++ call.target ++ "\n") ""

/-- A move by the tool: the source must exist and the target must not. -/
def Disk.toolMove (d : Disk) (call : MoveCall) : MoveReply × Disk :=
  let src := Route.ofText (PathText.joinText call.directory call.source)
  let dst := Route.ofText (PathText.joinText call.directory call.target)
  if !d.hasEntry src then (complaint "bad source" call, d)
  else if d.hasEntry dst then (complaint "destination exists" call, d)
  else
    match d.rename src dst with
    | .ok moved => (.ended 0 "" "", moved)
    | .error (.refused errno) =>
      (.ended 128 ("fatal: renaming '" ++ call.source ++ "' failed: " ++ errno.text ++ "\n") "", d)
    | .error .embeddedNul => (.unspeakable, d)

end Recase
