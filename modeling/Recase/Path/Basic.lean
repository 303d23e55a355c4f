import Recase.Text.Pieces

/-!
# Paths

A path is where it starts and the names that follow. Empty segments and single dots are dropped
when its text is read; two dots stay, for what lies above a link is not known before it is
followed.

* `Path.parse`, `Path.toString`: a path from its text and back. Exactly two slashes in front are
  kept, any other number counts as one.
* `Path.join`: a path below another; one that is not relative stands for itself.
* `Path.child`, `Path.below`, `Path.name`, `Path.parent`, `Path.withName?`, `Path.size`: the names
  in it.
* `Path.above`: the directory above, as far as the path tells.

Items and moves name entries by texts with slashes. Nothing is normalised in them: empty segments
and dots are what they are.

* `PathText.depth`: the number of segments that are not empty.
* `PathText.lastName`: what follows the last slash; `PathText.parentText`: what precedes it, without
  the slashes at its end unless there is nothing else.
* `PathText.joinText`: a text below another; one that starts with a slash stands for itself.
-/

namespace Recase

/-- Where a path starts: in the working directory, or at the top, written with one slash or two. -/
inductive Anchor
  | relative
  | absolute
  | doubleSlash
  deriving Repr, DecidableEq

/-- A path: where it starts, and the segments that follow. -/
structure Path where
  anchor : Anchor
  segments : List String
  deriving Repr, DecidableEq

namespace Path

open Recase.Text

/-- Where a path text starts. -/
def anchorOf (cs : List Char) : Anchor :=
  match (cs.takeWhile (· == '/')).length with
  | 0 => .relative
  | 2 => .doubleSlash
  | _ => .absolute

/-- The segments of a path text that name a step. -/
def stepsOf (cs : List Char) : List String :=
  ((pieces (· == '/') cs).filter fun s => !s.isEmpty && s != ['.']).map String.ofList

/-- The path that a text names. -/
def parse (text : String) : Path := ⟨anchorOf text.toList, stepsOf text.toList⟩

/-- The text of a path; a path without segments is a dot or the top. -/
def toString (p : Path) : String :=
  match p.anchor with
  | .relative => if p.segments.isEmpty then "." else "/".intercalate p.segments
  | .absolute => "/" ++ "/".intercalate p.segments
  | .doubleSlash => "//" ++ "/".intercalate p.segments

instance : ToString Path := ⟨Path.toString⟩

/-- Whether the path starts in the working directory. -/
def isRelative (p : Path) : Bool := p.anchor == .relative

/-- The path `q` taken from `p`: below it, or `q` itself if it starts at the top. -/
def join (p q : Path) : Path :=
  if q.isRelative then { p with segments := p.segments ++ q.segments } else q

/-- The path that the text names, taken from `p`. -/
def joinText (p : Path) (text : String) : Path := p.join (parse text)

/-- The path one segment below. -/
def child (p : Path) (name : String) : Path := { p with segments := p.segments ++ [name] }

/-- The path to which names lead from the path. -/
def below (p : Path) (names : List String) : Path := { p with segments := p.segments ++ names }

/-- The last segment, empty if there is none. -/
def name (p : Path) : String := p.segments.getLast?.getD ""

/-- The path without its last segment. -/
def parent (p : Path) : Path := { p with segments := p.segments.dropLast }

/-- The path of the directory above. The top has none above it, and where a relative path has no
name to take away it gets two dots. -/
def above (p : Path) : Path :=
  if p.isRelative && p.segments.getLast?.all (· == "..") then p.child ".." else p.parent

/-- The number of segments, a start at the top counted as one. -/
def size (p : Path) : Nat := p.segments.length + (if p.isRelative then 0 else 1)

/-- The path with another last segment, unless that is no name: empty, a dot or a text with a
slash in it. -/
def withName? (p : Path) (name : String) : Option Path :=
  if name.isEmpty || name == "." || name.toList.contains '/' then none
  else some (p.parent.child name)

end Path

/-! ## Texts of paths below a root -/

namespace PathText

open Recase.Text

/-- The segments between slashes, empty ones included. -/
def segments (path : String) : List String :=
  (pieces (· == '/') path.toList).map String.ofList

/-- The number of segments that are not empty. -/
def depth (path : String) : Nat :=
  ((pieces (· == '/') path.toList).filter (!·.isEmpty)).length

/-- What follows the last slash. -/
def lastName (path : String) : String :=
  String.ofList (path.toList.reverse.takeWhile (· != '/')).reverse

/-- What precedes the last slash, without slashes at its end unless it has nothing else. -/
def parentText (path : String) : String :=
  let throughSlash := path.toList.reverse.dropWhile (· != '/')
  let trimmed := throughSlash.dropWhile (· == '/')
  String.ofList (if trimmed.isEmpty then throughSlash else trimmed).reverse

/-- The text of `path` below `top`, with a slash between them where `top` has none at its end. -/
def joinText (top path : String) : String :=
  if path.toList.head? = some '/' then path
  else if top.isEmpty || top.toList.getLast? = some '/' then top ++ path
  else top ++ "/" ++ path

end PathText

end Recase
