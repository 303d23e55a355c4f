import Recase.Vcs.Tool

/-!
# The world of a run

* `World`: all that an operation depends on and can change: the disk, version control, the files
  that may not be opened, the home directory, the clock, and the source of tokens.
* `World.callTool`: a move asked of the version-control tool.
-/

namespace Recase

/-- All that an operation depends on and can change. -/
structure World where
  disk : Disk
  git : Git
  /-- The paths, as texts, of files that may not be opened for reading. -/
  unreadable : List String
  /-- The paths, as texts, of files that may not be opened for writing. -/
  unwritable : List String
  /-- The home directory. -/
  home : String
  /-- The home directories of users, by name. -/
  homes : List (String × String)
  /-- The present time, as it is written into a log. -/
  clock : String
  /-- The tokens of temporary names, by the number of their drawing. -/
  token : Nat → String
  /-- The number of tokens drawn so far. -/
  drawn : Nat

namespace World

/-- The answer of the version-control tool to a call, and the world after it. -/
def callTool (call : MoveCall) (w : World) : MoveReply × World :=
  let git := { w.git with answers := w.git.answers.drop 1, calls := w.git.calls ++ [call] }
  match w.git.answers.head?.join with
  | some reply => (reply, { w with git })
  | none =>
    let (reply, disk) := w.disk.toolMove call
    (reply, { w with git, disk })

end World

end Recase
