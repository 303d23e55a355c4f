import Recase.Tree.Change
import Recase.Tree.Settle

/-!
# The disk

A disk is a tree, the place where the program stands in it, and the list of all changes made to
the tree. Paths are looked up from that place.

* `Disk.find`: where a path leads. `Disk.Fault`: why a call fails, a refusal or a path that no call
  accepts.
* `Disk.isPresent`, `Disk.isDirectory`: whether there is something, or a directory, at a path,
  links followed. Only a refusal other than absence is an error.
* `Disk.hasEntry`: whether there is an entry at a path, a link itself being one.
* `Disk.isSameEntry`: whether two paths lead to one entry, links followed.
* `Disk.resolve`: the absolute path without links that a path stands for.
* `Disk.rename`, `Disk.makeDirectories`, `Disk.write`, `Disk.read`: the calls.
-/

namespace Recase

/-- A tree, the place of the program in it, and the changes made, oldest first. -/
structure Disk where
  tree : Tree
  here : Place
  changes : List Change
  deriving DecidableEq

namespace Disk

/-- Why a call fails: the system refuses it, or a path has a NUL in it. -/
inductive Fault
  | refused (errno : Errno)
  | embeddedNul
  deriving Repr, DecidableEq

/-- The refusal as a fault. -/
def orFault {α : Type} : Except Errno α → Except Fault α
  | .ok a => .ok a
  | .error errno => .error (.refused errno)

/-- Where a route leads. -/
def find (d : Disk) (route : Route) (last : LastStep) : Except Fault Landing :=
  if route.hasNul then .error .embeddedNul else orFault (d.tree.lookUp last d.here route)

/-- Whether what a route leads to satisfies a test of places; absence fails it. -/
def holdsAt (d : Disk) (route : Route) (test : Place → Bool) : Except Errno Bool :=
  match d.find route .follow with
  | .ok (.entry place) => .ok (test place)
  | .ok (.vacant _) => .ok false
  | .error .embeddedNul => .ok false
  | .error (.refused errno) => if errno.isAbsence then .ok false else .error errno

/-- Whether there is something at the path. -/
def isPresent (d : Disk) (path : Path) : Except Errno Bool := d.holdsAt path.route fun _ => true

/-- Whether there is a directory at the path. -/
def isDirectory (d : Disk) (path : Path) : Except Errno Bool :=
  d.holdsAt path.route d.tree.isDirectory

/-- Whether there is an entry at the end of the route, a link itself being one. -/
def hasEntry (d : Disk) (route : Route) : Bool :=
  match d.find route .stay with
  | .ok (.entry _) => true
  | _ => false

/-- The place of the directory at a path, if there is one. -/
def directoryAt? (d : Disk) (path : Path) : Option Place :=
  match d.find path.route .follow with
  | .ok (.entry place) => if d.tree.isDirectory place then some place else none
  | _ => none

/-- Whether two paths lead to one entry; a refused look-up of either means that they do not. -/
def isSameEntry (d : Disk) (first second : Path) : Except Fault Bool :=
  match d.find first.route .follow with
  | .error .embeddedNul => .error .embeddedNul
  | .ok (.entry place) =>
    match d.find second.route .follow with
    | .error .embeddedNul => .error .embeddedNul
    | .ok (.entry other) => .ok (place == other)
    | _ => .ok false
  | _ => .ok false

/-- Why it cannot be told what a path stands for. -/
inductive ResolveFault
  | embeddedNul
  | loop (path : Path)
  deriving Repr, DecidableEq

/-- The absolute path without links that a path stands for; entries may be missing. A loop of links
is an error if the system finds it too. -/
def resolve (d : Disk) (path : Path) : Except ResolveFault Path :=
  if path.route.hasNul then .error .embeddedNul
  else
    match d.tree.settle d.here path.toString with
    | .ok settled => .ok settled
    | .error loop =>
      let settled := Path.settledText d.here loop
      match d.find settled.route .follow with
      | .error (.refused .tooManyLinks) => .error (.loop settled)
      | _ => .ok settled

/-- The path of a place. -/
def pathOf (place : Place) : Path := ⟨.absolute, place⟩

/-- The disk after a change. The program stays in its directory when that is carried elsewhere. -/
def commit (d : Disk) (change : Change) : Disk :=
  { tree := d.tree.apply change
    here := change.placeAfter d.here
    changes := d.changes ++ [change] }

/-- The disk after the renaming of an entry. -/
def rename (d : Disk) (src dst : Route) : Except Fault Disk :=
  if src.hasNul || dst.hasNul then .error .embeddedNul
  else
    match d.tree.renamePlaces d.here src dst with
    | .error errno => .error (.refused errno)
    | .ok none => .ok d
    | .ok (some (srcPlace, dstPlace)) => .ok (d.commit (.moved srcPlace dstPlace))

/-- The disk with a directory made at the path. -/
def makeDirectory (d : Disk) (path : Path) : Except Fault Disk :=
  if path.route.hasNul then .error .embeddedNul
  else
    match d.tree.newDirectoryPlace d.here path.route with
    | .error errno => .error (.refused errno)
    | .ok place => .ok (d.commit (.madeDirectory place))

/-- Whether a route leads to a directory; a refused look-up means that it does not. -/
def leadsToDirectory (d : Disk) (route : Route) : Bool :=
  match d.holdsAt route d.tree.isDirectory with
  | .ok found => found
  | .error _ => false

/-- Why a directory cannot be made, and at which path. -/
structure MakeFault where
  path : Path
  fault : Fault
  deriving Repr, DecidableEq

/-- A directory made at the path; one that is there already will do. -/
def ensureDirectory (d : Disk) (path : Path) : Option MakeFault × Disk :=
  match d.makeDirectory path with
  | .ok made => (none, made)
  | .error .embeddedNul => (some ⟨path, .embeddedNul⟩, d)
  | .error fault => (if d.leadsToDirectory path.route then none else some ⟨path, fault⟩, d)

/-- A directory made at the path whose segments are given from the last to the first, those above
it made where they are missing. The disk keeps those made before a fault. -/
def ensureBelow (d : Disk) (anchor : Anchor) : List String → Option MakeFault × Disk
  | [] => d.ensureDirectory ⟨anchor, []⟩
  | name :: above =>
    let path : Path := ⟨anchor, (name :: above).reverse⟩
    match d.makeDirectory path with
    | .error (.refused .noEntry) =>
      match d.ensureBelow anchor above with
      | (some fault, d) => (some fault, d)
      | (none, d) => d.ensureDirectory path
    | _ => d.ensureDirectory path

/-- A directory made at the path, with those above it. -/
def makeDirectories (d : Disk) (path : Path) : Option MakeFault × Disk :=
  d.ensureBelow path.anchor path.segments.reverse

/-- The disk with a file of the given content at the path. -/
def write (d : Disk) (path : Path) (content : ByteArray) : Except Fault Disk :=
  if path.route.hasNul then .error .embeddedNul
  else
    match d.tree.writePlace d.here path.route with
    | .error errno => .error (.refused errno)
    | .ok place => .ok (d.commit (.wrote place content))

/-- The content of the file at the path. -/
def read (d : Disk) (path : Path) : Except Fault ByteArray :=
  if path.route.hasNul then .error .embeddedNul else orFault (d.tree.content d.here path.route)

end Disk

end Recase
