import Recase.Path.Route
import Recase.Tree.Basic
import Recase.Tree.Errno

/-!
# Walking a tree

How the file system finds what a route names.

* `LastStep`: what is done with a link as the last step, and what a route is walked for.
* `Tree.advance`: the steps of a route up to the first link that has to be followed. Every step is
  taken in a directory, and looks at what is inside it alone; the last one may lead to a place
  where nothing is.
* `Tree.walk`: the steps of a whole route, with a bound on the links followed (`linkLimit`).
* `Tree.lookUp`: the walk of a route, unless its text is too long.
-/

namespace Recase

/-- Where a route ends: at an entry, or at a place in a directory where nothing is. -/
inductive Landing
  | entry (place : Place)
  | vacant (place : Place)
  deriving Repr, DecidableEq

/-- How far steps lead: to their end, to a refusal, or to a link that has to be followed before
the rest of them. -/
inductive Stretch
  | landed (landing : Landing)
  | refused (errno : Errno)
  | linked (place : Place) (target : String) (rest : List String)

/-- What is done with the last step of a route. -/
inductive LastStep
  /-- A link is not followed. -/
  | stay
  /-- A link is followed. -/
  | follow
  /-- A link is followed, for a file is to be made there. A name before a slash names a directory,
  whether there is one or not. -/
  | make
  deriving Repr, DecidableEq

/-- The most links that are followed on one route. -/
def linkLimit : Nat := 40

/-- The place from which the target of a link at `place` is walked. -/
def Route.startAt (r : Route) (here : Place) : Place := if r.isAbsolute then [] else here

namespace Tree

/-- The steps from the directory `here`, with what is `inside` it, up to the first link that has to
be followed. -/
def advance (t : Tree) (last : LastStep) : (here : Place) → (inside : Tree) → List String → Stretch
  | here, _, [] => .landed (.entry here)
  | here, inside, step :: rest =>
    if step = "" || step = "." then t.advance last here inside rest
    else if step = ".." then t.advance last here.dropLast (t.subtree here.dropLast) rest
    else if last = .make && rest = [""] then .refused .isDirectory
    else if nameLimit < step.utf8ByteSize then .refused .nameTooLong
    else
      let next := here ++ [step]
      match inside.node? [step] with
      | none => if rest.isEmpty then .landed (.vacant next) else .refused .noEntry
      | some .directory => t.advance last next (inside.subtree [step]) rest
      | some (.file _) => if rest.isEmpty then .landed (.entry next) else .refused .notDirectory
      | some (.link target) =>
        if rest.isEmpty && last = .stay then .landed (.entry next)
        else .linked next target rest

/-- The steps from `here`, which has to be a directory, up to the first link. -/
def advanceFrom (t : Tree) (last : LastStep) (here : Place) (steps : List String) : Stretch :=
  if t.isDirectory here then t.advance last here (t.subtree here) steps else .refused .notDirectory

/-- Where the steps from `here` lead when at most `links` links are followed. -/
def walk (t : Tree) (last : LastStep) (links : Nat) (here : Place) (steps : List String) :
    Except Errno Landing :=
  match t.advanceFrom last here steps with
  | .landed landing => .ok landing
  | .refused errno => .error errno
  | .linked place target rest =>
    match links with
    | 0 => .error .tooManyLinks
    | links + 1 =>
      let route := Route.ofText target
      t.walk last links (route.startAt place.dropLast) (route.steps ++ rest)

/-- Where a route leads. -/
def lookUp (t : Tree) (last : LastStep) (here : Place) (route : Route) : Except Errno Landing :=
  if route.isTooLong then .error .nameTooLong
  else t.walk last linkLimit (route.startAt here) route.steps

end Tree

end Recase
