import Recase.Path.Route
import Recase.Path.Basic
import Recase.Tree.Basic

/-!
# Settling a path

The path that is left of a path once all links on it are followed, where entries may be missing.

* `Path.placeFrom`: the place of a path without links, seen from a place.
* `Path.settledText`: the path of a text that is read without looking at the disk.
* `Tree.settle`: the settled form of a path. Links are known by the paths by which they are
  reached, from the working directory or from the top, and each is settled once (`SettledLinks`).
  One that is met again while its own target is being settled is a loop; what is left of the path
  is then put after it as text.
-/

namespace Recase

open Recase.Text

/-- The place of a path without links, seen from `here`. -/
def Path.placeFrom (p : Path) (here : Place) : Place :=
  Place.lexically (if p.isRelative then here else []) p.segments

/-- The absolute path of a text taken from `here`, two dots taking away the name before them. -/
def Path.settledText (here : Place) (text : String) : Path :=
  let p := (Path.mk .absolute here).join (Path.parse text)
  { p with segments := Place.lexically [] p.segments }

/-- The links that have been settled, each with its settled form. -/
abbrev SettledLinks := List (Path × Path)

namespace Tree

/-- The settled form of the pieces of a path text, from a settled path on, and the links settled by
then. A link that is not among those `known` is settled by `enter`, from its path and its target.
The text of a loop is an error, with the pieces that are left put after it. -/
def settleWith (t : Tree) (here : Place)
    (enter : SettledLinks → Path → String → Except String (Path × SettledLinks)) :
    SettledLinks → Path → List String → Except String (Path × SettledLinks)
  | known, sofar, [] => .ok (sofar, known)
  | known, sofar, piece :: rest =>
    if piece = "" || piece = "." then t.settleWith here enter known sofar rest
    else if piece = ".." then t.settleWith here enter known sofar.above rest
    else
      let next := sofar.child piece
      match t.node? (next.placeFrom here), known.lookup next with
      | some (.link _), some settled => t.settleWith here enter known settled rest
      | some (.link target), none =>
        match enter known next target with
        | .ok (settled, known) => t.settleWith here enter ((next, settled) :: known) settled rest
        | .error loop => .error (PathText.joinText loop ("/".intercalate rest))
      | _, _ => t.settleWith here enter known next rest

/-- The path from which a text is settled that stands at `sofar`. -/
def settleStart (sofar : Path) (text : String) : Path :=
  if text.toList.head? = some '/' then ⟨.absolute, []⟩ else sofar

/-- The settled form of a path text from a settled path on, within links that are `entered` and
with at most `depth` more links inside each other, and the links settled by then. -/
def settleWithin (t : Tree) (here : Place) (entered : List Path) :
    Nat → SettledLinks → Path → String → Except String (Path × SettledLinks)
  | 0, known, sofar, text =>
    t.settleWith here (fun _ link _ => .error link.toString) known (settleStart sofar text)
      (PathText.segments text)
  | depth + 1, known, sofar, text =>
    t.settleWith here
      (fun known link target =>
        if entered.contains link then .error link.toString
        else t.settleWithin here (link :: entered) depth known link.parent target)
      known (settleStart sofar text) (PathText.segments text)

/-- How deep links can lie inside each other before one is met again. Each can be reached from the
top, and from every directory above `here`. -/
def settleDepth (t : Tree) (here : Place) : Nat := (here.length + 2) * t.entries.length

/-- The settled form of a path text, seen from `here`. The error is the text of a loop. -/
def settle (t : Tree) (here : Place) (text : String) : Except String Path :=
  match t.settleWithin here [] (t.settleDepth here) [] ⟨.relative, []⟩ text with
  | .ok (settled, _) => .ok ⟨.absolute, settled.placeFrom here⟩
  | .error loop => .error loop

end Tree

end Recase
