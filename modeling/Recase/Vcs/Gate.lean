import Recase.Scan
import Recase.Vcs.Repository

/-!
# The gate before a run

A run does not start over uncommitted changes.

* `WorkStatus`: what was checked, the repositories found and the modified files.
* `Standing`: whether the roots are under version control, and then with changes or without.
* `standingOf`: the standing of roots. One root outside version control takes all of them out of it.
* `ensureSafe`: a standing with changes is refused unless the run is forced.
-/

namespace Recase

/-- What version control says about roots. -/
structure WorkStatus where
  /-- The directories checked. -/
  checked : List String
  /-- The tops of the repositories, each once. -/
  repositories : List String
  /-- The modified files, each once. -/
  modifiedFiles : List String
  deriving Repr, DecidableEq

namespace WorkStatus

/-- Nothing checked. -/
def empty : WorkStatus := ⟨[], [], []⟩

/-- Whether some file is modified. -/
def hasChanges (s : WorkStatus) : Bool := !s.modifiedFiles.isEmpty

/-- The text without slashes at its end. -/
def withoutEndSlashes (path : String) : String :=
  String.ofList (path.toList.reverse.dropWhile (· == '/')).reverse

/-- The repositories with a modified file in them. -/
def modifiedRepositories (s : WorkStatus) : List String :=
  s.repositories.filter fun top =>
    s.modifiedFiles.any fun file =>
      file == top || (withoutEndSlashes top ++ "/").toList.isPrefixOf file.toList

end WorkStatus

/-- How roots stand with version control. -/
inductive Standing
  | unversioned
  | clean (status : WorkStatus)
  | dirty (status : WorkStatus)
  deriving Repr, DecidableEq

namespace Standing

/-- Whether all roots are under version control. -/
def isVersioned : Standing → Bool
  | unversioned => false
  | _ => true

/-- Whether there are uncommitted changes. -/
def hasChanges : Standing → Bool
  | dirty _ => true
  | _ => false

/-- The modified files, each once. -/
def modifiedFiles : Standing → List String
  | unversioned => []
  | clean status | dirty status => status.modifiedFiles

end Standing

/-- The status with the answer for a directory added: the top of its repository, and the modified
paths below that top. -/
def WorkStatus.add (s : WorkStatus) (place top : Place) (modified : List String) : WorkStatus :=
  { checked := s.checked ++ [(Disk.pathOf place).toString]
    repositories := addOnce s.repositories (Disk.pathOf top).toString
    modifiedFiles := (modified.map fun path => ((Disk.pathOf top).joinText path).toString).foldl
      addOnce s.modifiedFiles }

/-- The standing of roots after those that made up the status. -/
def standingFrom (d : Disk) (find : Finder) (status : WorkStatus) :
    List Root → Except Failure Standing
  | [] => .ok (if status.hasChanges then .dirty status else .clean status)
  | root :: rest => do
    if ← root.isPresent d then
      let place := (← d.resolved root.path).segments
      match find place with
      | none => .ok .unversioned
      | some (repository, top) =>
        match repository.answer? (pathText (place.drop top.length)) with
        | none => .ok .unversioned
        | some modified => standingFrom d find (status.add place top modified) rest
    else .error (.rootMissing root.given)

/-- The standing of roots. -/
def standingOf (d : Disk) (repositories : List Repository) (roots : List Root) :
    Except Failure Standing :=
  standingFrom d (repositoryOf? d repositories) .empty roots

/-- Uncommitted changes are refused unless the run is forced. The refusal names the repositories
that have them, or all of them if none can be told. -/
def ensureSafe (standing : Standing) (force : Bool) : Except Failure Unit :=
  match standing with
  | .dirty status =>
    if force then .ok ()
    else
      let dirty := status.modifiedRepositories
      .error (.uncommitted (if dirty.isEmpty then status.repositories else dirty))
  | _ => .ok ()

end Recase
