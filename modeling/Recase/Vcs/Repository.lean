import Recase.Root

/-!
# Repositories

What version control knows about a directory.

* `Difference`: a path that differs, and how. `changedPaths`: the paths that were modified in the
  working tree, and modified or renamed to in the index, below a directory.
* `Repository`: a working tree with its differences and ignored paths, or the trouble with it.
* `Finder`: what is known of each directory. `repositoryOf?`: the repository of a directory, the
  innermost one that holds it.
-/

namespace Recase

/-- A path that differs between two states of a repository. -/
structure Difference where
  /-- How it differs: `M` for modified, `R` for renamed, another letter for anything else. -/
  change : String
  oldPath : Option String
  newPath : Option String
  deriving Repr, DecidableEq

/-- Whether the path is the directory or lies in it; the empty text is the top directory. -/
def isWithin (directory path : String) : Bool :=
  directory.isEmpty || path == directory || (directory ++ "/").toList.isPrefixOf path.toList

/-- The list with an element at its end, unless it is in the list. -/
def addOnce (xs : List String) (x : String) : List String :=
  if xs.contains x then xs else xs ++ [x]

/-- The path that a difference of the working tree reports. -/
def Difference.unstagedPath? (d : Difference) : Option String :=
  if d.change = "M" then d.oldPath else none

/-- The path that a difference of the index reports: where a renamed entry is now. -/
def Difference.stagedPath? (d : Difference) : Option String :=
  if d.change = "M" then d.oldPath else if d.change = "R" then d.newPath else none

/-- The modified paths below a directory, each once. A repository without commits has nothing
staged. -/
def changedPaths (unstaged staged : List Difference) (hasCommits : Bool) (directory : String) :
    List String :=
  let reported := unstaged.filterMap (·.unstagedPath?)
    ++ (if hasCommits then staged.filterMap (·.stagedPath?) else [])
  (reported.filter fun path => !path.isEmpty && isWithin directory path).foldl addOnce []

/-- What keeps version control from answering for a repository. -/
inductive Trouble
  /-- It cannot be opened. -/
  | noSuchPath
  /-- It has no working tree. -/
  | bare
  /-- The tool cannot be run. -/
  | toolMissing
  /-- The tool cannot tell whether a path is ignored. -/
  | ignoreCheckFails
  deriving Repr, DecidableEq

/-- A working tree under version control. -/
structure Repository where
  /-- The path of the working tree. -/
  top : Path
  unstaged : List Difference
  staged : List Difference
  /-- The ignored paths, below the top. -/
  ignored : List String
  hasCommits : Bool
  trouble? : Option Trouble
  deriving Repr, DecidableEq

namespace Repository

/-- Whether a path below the top is ignored, itself or with a directory above it. -/
def ignores (r : Repository) (path : String) : Bool :=
  r.ignored.any fun ignored => path == ignored || (ignored ++ "/").toList.isPrefixOf path.toList

/-- The modified paths of the repository below a directory. -/
def modified (r : Repository) (directory : String) : List String :=
  changedPaths r.unstaged r.staged r.hasCommits directory

/-- The modified paths below a directory, if the repository answers for it: it has a working tree,
the tool runs, and the directory is the top or not ignored. -/
def answer? (r : Repository) (directory : String) : Option (List String) :=
  match r.trouble? with
  | some .noSuchPath | some .bare | some .toolMissing => none
  | some .ignoreCheckFails => if directory.isEmpty then some (r.modified directory) else none
  | none => if !directory.isEmpty && r.ignores directory then none else some (r.modified directory)

end Repository

/-- What version control knows of each directory: the repository that holds it and the place of its
top, if there is one. -/
abbrev Finder := Place → Option (Repository × Place)

/-- The repositories with the places of their tops, those that cannot be told left out. -/
def locatedRepositories (d : Disk) (repositories : List Repository) : List (Repository × Place) :=
  repositories.filterMap fun r =>
    match d.resolve r.top with
    | .ok top => some (r, top.segments)
    | .error _ => none

/-- The innermost of two candidates, the first on a tie. -/
def innermost (best? : Option (Repository × Place)) (candidate : Repository × Place) :
    Option (Repository × Place) :=
  match best? with
  | some best => if best.2.length < candidate.2.length then some candidate else some best
  | none => some candidate

/-- The repository that holds a directory, and the place of its top: the innermost one, the first
of those with one top. -/
def repositoryOf? (d : Disk) (repositories : List Repository) : Finder := fun place =>
  ((locatedRepositories d repositories).filter (·.2.isPrefixOf place)).foldl innermost none

end Recase
