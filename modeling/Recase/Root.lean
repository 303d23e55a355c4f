import Recase.Disk
import Recase.Failure

/-!
# Roots

* `Root`: a directory as its user gave it, and the path that the text names.
* `Root.check`: a root must exist and be a directory.
* `outermostRoots`: the roots that lie in no other root, each once, in the order given. All roots
  are checked first, and the error is that of the first bad one.
-/

namespace Recase

/-- A directory to work on: the text given for it, and the path. -/
structure Root where
  given : String
  path : Path
  deriving Repr, DecidableEq

namespace Root

/-- The root that a text names. -/
def ofText (text : String) : Root := ⟨text, Path.parse text⟩

/-- The root at a path. -/
def ofPath (path : Path) : Root := ⟨path.toString, path⟩

/-- Whether something exists at the root; a refused look-up is a failure. -/
def isPresent (d : Disk) (root : Root) : Except Failure Bool :=
  match d.isPresent root.path with
  | .ok found => .ok found
  | .error errno => .error (.system errno root.path.toString none)

/-- A root must exist and be a directory. -/
def check (d : Disk) (root : Root) : Except Failure Unit :=
  match root.isPresent d with
  | .error failure => .error failure
  | .ok false => .error (.rootMissing root.given)
  | .ok true =>
    match d.isDirectory root.path with
    | .error errno => .error (.system errno root.path.toString none)
    | .ok false => .error (.rootNotDirectory root.given)
    | .ok true => .ok ()

end Root

/-- The absolute path without links that a path stands for. -/
def Disk.resolved (d : Disk) (path : Path) : Except Failure Path :=
  match d.resolve path with
  | .ok settled => .ok settled
  | .error .embeddedNul => .error .embeddedNul
  | .error (.loop loop) => .error (.linkLoop loop.toString)

/-- The path of a root that passes the check, with the place that it names. -/
def Root.located (d : Disk) (root : Root) : Except Failure (Path × Place) := do
  root.check d
  let settled ← d.resolved root.path
  .ok (root.path, settled.segments)

/-- Whether a place lies below another. -/
def Place.isBelow (place top : Place) : Bool := top.isPrefixOf place && top != place

/-- The located roots whose places have not been seen, each place once. -/
def firstOfEach (seen : List Place) : List (Path × Place) → List Path
  | [] => []
  | (path, place) :: rest =>
    if seen.contains place then firstOfEach seen rest
    else path :: firstOfEach (place :: seen) rest

/-- The roots that lie in no other root, each directory once. -/
def outermostRoots (d : Disk) (roots : List Root) : Except Failure (List Path) := do
  let located ← roots.mapM (·.located d)
  let outer := located.filter fun (_, place) => !located.any fun (_, top) => place.isBelow top
  .ok (firstOfEach [] outer)

end Recase
