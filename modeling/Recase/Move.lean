import Recase.Name.Temporary
import Recase.Path.Basic
import Recase.Text.Quoted

/-!
# Moves

* `Move`: one entry carried from a path below a root to another. A change of letter case alone
  takes two moves, to a temporary name and from there.
* `Move.leavesTemporary`: whether the move is the second of two.
* `Move.shellText`: the shell command that does the same.
-/

namespace Recase

/-- One entry carried to another path below its root. -/
structure Move where
  source : String
  target : String
  root : Path
  /-- Whether the move is one of two that change letter case. -/
  isPaired : Bool
  deriving Repr, DecidableEq

namespace Move

/-- Whether the move takes an entry out of its temporary name. -/
def leavesTemporary (m : Move) : Bool :=
  m.isPaired && Name.isTemporary (PathText.lastName m.source)

/-- The shell command that makes the move, plainly or with version control. -/
def shellText (m : Move) (useVersionControl : Bool) : String :=
  Text.shellCommand
    ((if useVersionControl then ["git", "mv"] else ["mv"]) ++ [m.source, m.target])

end Move

end Recase
