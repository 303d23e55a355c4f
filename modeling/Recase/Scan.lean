import Recase.Item
import Recase.Name.Convert
import Recase.Order.Sort
import Recase.Root

/-!
# Scans

* `isRetained`: whether no name on the way to an entry is skipped.
* `Tree.retainedBelow`: the entries below a place that are retained, every directory before what it
  holds and siblings by name.
* `convertNames`: the converted names on the way to an entry, all but the last being directories.
* `Item.ofEntry?`: the item of an entry. Links are neither followed nor renamed and have none.
* `scan`: the items below roots, with the paths visited on the way. It fails at the first directory
  that cannot be listed, after all that comes before it has been visited (`scanEntries`).

Scans are idealised: directories may be nested to any depth, and only the length of a path bounds
how far a scan goes. No call stack runs out.
-/

namespace Recase

/-- Whether no name on the way to an entry is skipped. -/
def isRetained (ignored : List String) (names : List String) : Bool :=
  names.all (!Name.isSkipped ignored ·)

/-- Whether names come before others where every directory comes before what it holds. -/
def namesLe : List String → List String → Bool
  | [], _ => true
  | _ :: _, [] => false
  | a :: as, b :: bs => if a = b then namesLe as bs else decide (a ≤ b)

/-- The retained entries below a place, every directory before what it holds. -/
def Tree.retainedBelow (t : Tree) (ignored : List String) (top : Place) :
    List (List String × Node) :=
  sortBy (fun a b => namesLe a.1 b.1) ((t.below top).filter fun e => isRetained ignored e.1)

/-- The converted names on the way to an entry of a kind. -/
def convertNames (kind : EntryKind) : List String → List String
  | [] => []
  | [name] => [kind.convert name]
  | name :: rest => EntryKind.directory.convert name :: convertNames kind rest

/-- The kind of a node that is renamed. -/
def Node.kind? : Node → Option EntryKind
  | .directory => some .directory
  | .file _ => some .file
  | .link _ => none

/-- The text of a path below a root. -/
def pathText (names : List String) : String := "/".intercalate names

/-- The item of the entry to which the names lead from a root. -/
def Item.ofEntry? (root : Path) (names : List String) (node : Node) : Option Item :=
  node.kind?.map fun kind =>
    let converted := convertNames kind names
    { path := pathText names
      convertedPath := pathText converted
      kind
      changesName := names.getLast? != converted.getLast?
      root }

/-- What a scan finds. -/
structure Scan where
  /-- The paths visited. -/
  visited : List String
  /-- The items, unless a directory cannot be listed. -/
  items : Except Failure (List Item)

namespace Scan

/-- Nothing found. -/
def empty : Scan := ⟨[], .ok []⟩

/-- The scan that visits a path and ends there. -/
def endedAt (path : String) (failure : Failure) : Scan := ⟨[path], .error failure⟩

/-- The scan of what comes after a visited path that may have an item. -/
def visit (path : String) (item? : Option Item) (after : Scan) : Scan :=
  { visited := path :: after.visited
    items := after.items.map (item?.toList ++ ·) }

/-- One scan after another, which does not take place if the first one fails. -/
def append (first second : Scan) : Scan :=
  match first.items with
  | .error _ => first
  | .ok items =>
    { visited := first.visited ++ second.visited
      items := second.items.map (items ++ ·) }

end Scan

/-- The failure to list the directory to which names lead from a root: the system takes no text of
a path that is too long. -/
def listingFailure? (root : Path) (names : List String) : Option Failure :=
  let path := root.below names
  if path.route.isTooLong then some (.system .nameTooLong path.toString none) else none

/-- The scan of entries below a root. A directory is listed as soon as it has been visited. -/
def scanEntries (root : Path) : List (List String × Node) → Scan
  | [] => .empty
  | (names, node) :: rest =>
    match if node = .directory then listingFailure? root names else none with
    | some failure => .endedAt (pathText names) failure
    | none => (scanEntries root rest).visit (pathText names) (Item.ofEntry? root names node)

/-- The scan of one root. -/
def scanRoot (d : Disk) (ignored : List String) (root : Path) : Scan :=
  match d.directoryAt? root with
  | none => .empty
  | some top => scanEntries root (d.tree.retainedBelow ignored top)

/-- The scan of roots that lie in no other root. -/
def scan (d : Disk) (ignored : List String) (roots : List Root) : Scan :=
  match outermostRoots d roots with
  | .error failure => ⟨[], .error failure⟩
  | .ok kept => (kept.map (scanRoot d ignored)).foldr Scan.append .empty

end Recase
