import Recase.Path.Basic

/-!
# Routes

A route is a path text as the file system reads it, step by step from the top or from the place
where the reader stands. A step is a name, a dot or two dots; empty steps are passed over.

* `Route.ofText`: the route of a text, also of the target of a link.
* `Path.route`: the route of a path.
* `Route.steps`: all steps; a slash at the end is an empty step, which asks for a directory.
* `Route.isTooLong`: the system takes no text of more than `pathLimit` bytes.
* `Path.walkedRoute`: the route by which a walk over the directories below a path reaches an entry.
  The walk names each entry by the text of its directory, a slash and its name.
* `Path.canList`: whether the walk can list a directory. The system takes no text that is too long,
  and such a directory is passed over as if it were empty.
-/

namespace Recase

open Recase.Text

/-- A path text as the file system reads it. -/
structure Route where
  /-- Whether the route starts at the top. -/
  isAbsolute : Bool
  /-- The steps, empty ones left out. -/
  names : List String
  /-- Whether a slash follows the last step. -/
  endsInSlash : Bool
  /-- The number of bytes of the text. -/
  size : Nat
  deriving Repr, DecidableEq

/-- The longest path text that the system takes, in bytes. -/
def pathLimit : Nat := 4095

namespace Route

/-- The route that a text describes. -/
def ofText (text : String) : Route :=
  let cs := text.toList
  { isAbsolute := cs.head? == some '/'
    names := ((pieces (· == '/') cs).filter (!·.isEmpty)).map String.ofList
    endsInSlash := cs.getLast? == some '/'
    size := text.utf8ByteSize }

/-- All steps of the route. -/
def steps (r : Route) : List String :=
  if r.endsInSlash then r.names ++ [""] else r.names

/-- Whether the system refuses the text for its length. -/
def isTooLong (r : Route) : Bool := pathLimit < r.size

/-- Whether some step has a NUL in it, which no call accepts. -/
def hasNul (r : Route) : Bool := r.names.any (·.toList.contains '\x00')

end Route

/-- The route of a path; the path without segments is the place where the reader stands. -/
def Path.route (p : Path) : Route :=
  { isAbsolute := !p.isRelative
    names := if p.isRelative && p.segments.isEmpty then ["."] else p.segments
    endsInSlash := false
    size := p.toString.utf8ByteSize }

/-! ## Walked paths -/

namespace Path

/-- The text by which a walk from the path reaches that to which names lead. Unlike the text of a
path it keeps the dot of the working directory in front. -/
def walkedText (p : Path) (names : List String) : String :=
  if names.isEmpty then p.toString else PathText.joinText p.toString ("/".intercalate names)

/-- The route by which a walk from the path reaches that to which names lead. -/
def walkedRoute (p : Path) (names : List String) : Route := Route.ofText (p.walkedText names)

/-- Whether a walk from the path can list the directory to which names lead. -/
def canList (p : Path) (names : List String) : Bool := !(p.walkedRoute names).isTooLong

end Path

end Recase
