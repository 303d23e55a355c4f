import Recase.Item
import Recase.Text.Case
import Recase.Text.Quoted

/-!
# Conflicts

* `Conflict`: items of one root whose converted paths are equal ignoring case.
* `conflictsOf`: the conflicts among items, in the order of their first members. All items count,
  whether or not they are renamed.
* `Conflict.message`: a conflict in words.
-/

namespace Recase

/-- Items with one destination. -/
structure Conflict where
  /-- The paths of the items, in order. -/
  paths : List String
  /-- The converted path of the first of them. -/
  convertedPath : String
  root : String
  deriving Repr, DecidableEq

/-- The conflict in words. -/
def Conflict.message (c : Conflict) : String :=
  "Multiple entries have the same destination: " ++ Text.quotedList c.paths ++ " -> "
    ++ c.convertedPath ++ " (in " ++ c.root ++ ")"

/-- What the items of one destination have in common: the root, and the converted path without
regard to case. -/
def Item.destinationKey (item : Item) : String × String :=
  (item.root.toString, Text.casefold item.convertedPath)

/-- An item beside its destination key. -/
def Item.keyed (item : Item) : (String × String) × Item := (item.destinationKey, item)

/-- The conflict among the items with a key, if it has two or more. The converted path is that of
the first item with the root and the path of the first member. -/
def conflictAt? (keyed : List ((String × String) × Item)) (key : String × String) :
    Option Conflict :=
  match keyed.filter (·.1 == key) with
  | first :: second :: more =>
    let named := keyed.find? fun (other, item) => other.1 == key.1 && item.path == first.2.path
    some
      { paths := (first :: second :: more).map (·.2.path)
        convertedPath := (named.getD first).2.convertedPath
        root := key.1 }
  | _ => none

/-- The conflicts among items. -/
def conflictsOf (items : List Item) : List Conflict :=
  let keyed := items.map (·.keyed)
  (keyed.map (·.1)).eraseDups.filterMap (conflictAt? keyed)

end Recase
