import Recase.Path.Route
import Recase.Scan

/-!
# Source files

* `usualExtensions`: the extensions of the files whose references are converted.
* `filesFirst`: the order of the walk over files. The files of a directory come by name, before
  those of the directories in it.
* `sourceFiles`: the retained regular files below roots that have one of the extensions, up to the
  first that cannot be looked up (`Search`).
-/

namespace Recase.Source

/-- The extensions of source files. -/
def usualExtensions : List String :=
  [".js", ".jsx", ".ts", ".tsx", ".mjs", ".cjs", ".vue", ".svelte"]

/-- Whether the names that lead to a file come before those of another: in one directory by name,
the files before the directories. -/
def filesFirst : List String → List String → Bool
  | [], _ => true
  | _ :: _, [] => false
  | [a], [b] => decide (a ≤ b)
  | [_], _ :: _ :: _ => true
  | _ :: _ :: _, [_] => false
  | a :: a' :: as, b :: b' :: bs =>
    if a = b then filesFirst (a' :: as) (b' :: bs) else decide (a ≤ b)

/-- The extension of a name, with its dot. -/
def extensionOf (name : String) : String := String.ofList (Name.cutExtension name.toList).2

/-- Whether an entry has one of the extensions and is no directory. -/
def isCandidate (extensions : List String) (names : List String) (node : Node) : Bool :=
  node != .directory && names.getLast?.any fun name => extensions.contains (extensionOf name)

/-- The files found one after the other, and the failure that ends the search, if one does. -/
structure Search where
  files : List Path
  failure? : Option Failure
  deriving Repr, DecidableEq

namespace Search

/-- Nothing found. -/
def empty : Search := ⟨[], none⟩

/-- A file found before what comes after it. -/
def cons (file : Path) (after : Search) : Search := { after with files := file :: after.files }

/-- One search after another, which does not take place if the first one fails. -/
def append (first second : Search) : Search :=
  match first.failure? with
  | some _ => first
  | none => ⟨first.files ++ second.files, second.failure?⟩

/-- The files, unless the search fails. -/
def result (s : Search) : Except Failure (List Path) :=
  match s.failure? with
  | some failure => .error failure
  | none => .ok s.files

end Search

/-- The search among candidates below a root. Each is looked up, for links do not count, and a path
that is too long for that ends the search. -/
def searchEntries (root : Path) : List (List String × Node) → Search
  | [] => .empty
  | (names, node) :: rest =>
    let path := root.below names
    if path.route.isTooLong then ⟨[], some (.system .nameTooLong path.toString none)⟩
    else if node.kind? = some .file then (searchEntries root rest).cons path
    else searchEntries root rest

/-- The source files below one root. A directory that cannot be listed is passed over. -/
def sourceFilesBelow (d : Disk) (extensions ignored : List String) (root : Path) : Search :=
  match d.directoryAt? root with
  | none => .empty
  | some top =>
    let entries := (d.tree.below top).filter fun (names, node) =>
      isRetained ignored names && isCandidate extensions names node
        && root.canList names.dropLast
    searchEntries root (sortBy (fun a b => filesFirst a.1 b.1) entries)

/-- The source files below roots that lie in no other root. -/
def sourceFiles (d : Disk) (extensions ignored : List String) (roots : List Root) : Search :=
  match outermostRoots d roots with
  | .error failure => ⟨[], some failure⟩
  | .ok kept => (kept.map (sourceFilesBelow d extensions ignored)).foldr Search.append .empty

end Recase.Source
