import Recase.Tree.Walk

/-!
# Changes of a tree

What the file system does to a tree, and when it refuses.

* `Change`: an entry carried elsewhere, a file written, a directory made; `Tree.apply` does it, and
  `Change.placeAfter` is where it leaves what was at a place.
* `Tree.parentOf`, `Route.lastName?`: the directory in which the last step of a route is taken,
  and the name of that step.
* `Tree.renamePlaces`: the places between which a renaming carries an entry; none where both routes
  name the same entry. An entry in the way is replaced, a directory only if it is empty and only by
  a directory.
* `Tree.newDirectoryPlace`, `Tree.writePlace`, `Tree.content`: the place of a directory to be made,
  the place of a file to be written, and the content of a file.
-/

namespace Recase

/-- A change of a tree. -/
inductive Change
  | moved (src dst : Place)
  | wrote (place : Place) (content : ByteArray)
  | madeDirectory (place : Place)
  deriving DecidableEq

/-- The place after a change of what was at `place` before it. -/
def Change.placeAfter (place : Place) : Change → Place
  | .moved src dst => place.carried src dst
  | .wrote _ _ | .madeDirectory _ => place

/-- The name that the last step of a route is, unless it is a dot or two dots or missing. -/
def Route.lastName? (r : Route) : Option String :=
  match r.names.getLast? with
  | some name => if name = "." || name = ".." then none else some name
  | none => none

namespace Tree

/-- The tree after a change. -/
def apply (t : Tree) : Change → Tree
  | .moved src dst => t.move src dst
  | .wrote place content => t.put place (.file content)
  | .madeDirectory place => t.put place .directory

/-- The directory in which the last step of a route is taken. -/
def parentOf (t : Tree) (here : Place) (route : Route) : Except Errno Place :=
  if route.isTooLong then .error .nameTooLong
  else
    match t.walk .follow linkLimit (route.startAt here) route.names.dropLast with
    | .error errno => .error errno
    | .ok (.vacant _) => .error .noEntry
    | .ok (.entry parent) => if t.isDirectory parent then .ok parent else .error .notDirectory

/-- What has a name in a directory; a name that is too long is refused. -/
def entryIn (t : Tree) (parent : Place) (name : String) : Except Errno (Option Node) :=
  if nameLimit < name.utf8ByteSize then .error .nameTooLong else .ok (t.node? (parent ++ [name]))

/-- Whether a node may take the place of what is at `dst`. -/
def replacing (t : Tree) (node : Node) (dst : Place) : Except Errno Unit :=
  match node, t.node? dst with
  | _, none => .ok ()
  | .directory, some .directory => if (t.below dst).isEmpty then .ok () else .error .notEmpty
  | .directory, some _ => .error .notDirectory
  | _, some .directory => .error .isDirectory
  | _, some _ => .ok ()

/-- The places between which a renaming carries an entry; none if both routes name the entry. -/
def renamePlaces (t : Tree) (here : Place) (src dst : Route) :
    Except Errno (Option (Place × Place)) := do
  let srcParent ← t.parentOf here src
  let dstParent ← t.parentOf here dst
  match src.lastName?, dst.lastName? with
  | some srcName, some dstName =>
    let srcPlace := srcParent ++ [srcName]
    let dstPlace := dstParent ++ [dstName]
    match ← t.entryIn srcParent srcName with
    | none => .error .noEntry
    | some node =>
      let _ ← t.entryIn dstParent dstName
      if node != .directory && (src.endsInSlash || dst.endsInSlash) then .error .notDirectory
      else if srcPlace.isPrefixOf dstParent then .error .invalidArgument
      else if dstPlace.isPrefixOf srcParent then .error .notEmpty
      else if srcPlace = dstPlace then .ok none
      else
        t.replacing node dstPlace
        .ok (some (srcPlace, dstPlace))
  | _, _ => .error .busy

/-- The place of a directory to be made. -/
def newDirectoryPlace (t : Tree) (here : Place) (route : Route) : Except Errno Place := do
  let parent ← t.parentOf here route
  match route.lastName? with
  | none => .error .exists
  | some name =>
    match ← t.entryIn parent name with
    | some _ => .error .exists
    | none => .ok (parent ++ [name])

/-- The place of a file to be written: that of a file, or one where nothing is. -/
def writePlace (t : Tree) (here : Place) (route : Route) : Except Errno Place := do
  match ← t.lookUp .make here route with
  | .vacant place => .ok place
  | .entry place => if t.isDirectory place then .error .isDirectory else .ok place

/-- The content of a file. -/
def content (t : Tree) (here : Place) (route : Route) : Except Errno ByteArray := do
  match ← t.lookUp .follow here route with
  | .vacant _ => .error .noEntry
  | .entry place =>
    match t.node? place with
    | some (.file content) => .ok content
    | _ => .error .isDirectory

end Tree

end Recase
