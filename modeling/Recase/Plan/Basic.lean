import Recase.Failure
import Recase.Order.Sort
import Recase.Plan.Conflict
import Recase.Text.Case

/-!
# Plans

A plan is the list of moves that gives every item its converted name.

* `Item.executionOrder`: directories come before files; directories from the top down, so that a
  parent has its new name when its entries are addressed, and files from the bottom up. Items of
  one depth go by root and path. `inExecutionOrder`: items in that order.
* `differInCase`: whether two paths differ in letter case alone.
* `Item.temporaryPath`, `Item.temporarySite`: the temporary path of an item, and where on the disk
  something would stand in its way before any move is made.
* `movesOf`, `planMoves`: the moves of an item, and of items in the order of execution. A token is
  drawn for each temporary name that is taken.
* `buildPlan`: the plan of scanned items, with a warning for each token and the conflicts.
-/

namespace Recase

open Text

/-- The order in which items are renamed. -/
def Item.executionOrder (a b : Item) : Ordering :=
  let byRoot := compare a.root.toString b.root.toString
  let byPath := byRoot.then (compare a.path b.path)
  match a.kind, b.kind with
  | .directory, .file => .lt
  | .file, .directory => .gt
  | .directory, .directory => (compare a.depth b.depth).then byPath
  | .file, .file => (compare b.depth a.depth).then byPath

/-- The items in the order in which they are renamed. -/
def inExecutionOrder (items : List Item) : List Item :=
  sortBy (fun a b => (a.executionOrder b).isLE) items

/-- Whether the paths differ in letter case alone. -/
def differInCase (src dst : String) : Bool := lowercase src == lowercase dst && src != dst

namespace Item

/-- The temporary path of the item. -/
def temporaryPath (item : Item) : String := item.convertedPath ++ Name.temporarySuffix

/-- Where the temporary name would be taken: beside the item as it was scanned. -/
def temporarySite (item : Item) : Path :=
  (item.root.joinText (PathText.parentText item.path)).joinText
    (PathText.lastName item.temporaryPath)

/-- Whether the converted name differs in letter case alone, as far as paths tell. -/
def isRecased (item : Item) : Bool := differInCase item.currentPath item.convertedPath

end Item

/-- The temporary path of an item and the number of tokens drawn, given how many were drawn before:
`token` is appended to a temporary name that is taken. -/
def freePath (isTaken : Path → Bool) (token : Nat → String) (drawn : Nat) (item : Item) :
    String × Nat :=
  if isTaken item.temporarySite then (item.temporaryPath ++ "-" ++ token (drawn + 1), drawn + 1)
  else (item.temporaryPath, drawn)

/-- The moves that rename an item, and the number of tokens drawn after them. -/
def movesOf (isTaken : Path → Bool) (token : Nat → String) (drawn : Nat) (item : Item) :
    List Move × Nat :=
  if item.isRecased then
    let (between, drawn) := freePath isTaken token drawn item
    ([⟨item.currentPath, between, item.root, true⟩,
      ⟨between, item.convertedPath, item.root, true⟩], drawn)
  else ([⟨item.currentPath, item.convertedPath, item.root, false⟩], drawn)

/-- The moves that rename items one after the other, and the number of tokens drawn after them. -/
def movesOfAll (isTaken : Path → Bool) (token : Nat → String) : Nat → List Item → List Move × Nat
  | drawn, [] => ([], drawn)
  | drawn, item :: rest =>
    let (moves, drawn) := movesOf isTaken token drawn item
    let (more, drawn) := movesOfAll isTaken token drawn rest
    (moves ++ more, drawn)

/-- The moves for the items that need a new name, in the order of execution. -/
def planMoves (isTaken : Path → Bool) (token : Nat → String) (drawn : Nat) (items : List Item) :
    List Move × Nat :=
  movesOfAll isTaken token drawn (inExecutionOrder (items.filter (·.changesName)))

/-- A temporary path that was used because the plain one was taken. -/
structure TokenWarning where
  used : String
  taken : String
  deriving Repr, DecidableEq

/-- The warning in words. -/
def TokenWarning.message (w : TokenWarning) : String :=
  "Temporary name " ++ w.used ++ " used because " ++ w.taken ++ " already exists"

/-- The text up to the end of the last occurrence of `part`. -/
def throughLast? (part : List Char) : List Char → Option (List Char)
  | [] => if part.isEmpty then some [] else none
  | c :: rest =>
    match throughLast? part rest with
    | some kept => some (c :: kept)
    | none => if part.isPrefixOf (c :: rest) then some part else none

/-- Whether the move goes to a temporary name that does not end in the suffix. -/
def Move.needsWarning (m : Move) : Bool :=
  m.isPaired && !m.leavesTemporary && !Name.temporarySuffix.toList.isSuffixOf m.target.toList

/-- The warnings about moves. A paired move that should go to a temporary name and has no suffix in
its target is a failure. -/
def warningsOf : List Move → Except Failure (List TokenWarning)
  | [] => .ok []
  | m :: rest =>
    if m.needsWarning then
      match throughLast? Name.temporarySuffix.toList m.target.toList with
      | some taken => (warningsOf rest).map (⟨m.target, String.ofList taken⟩ :: ·)
      | none => .error .missingSuffix
    else warningsOf rest

/-- The moves that give items their converted names, and what is to be said about them. -/
structure Plan where
  moves : List Move
  /-- The items that need a new name. -/
  items : List Item
  warnings : List TokenWarning
  conflicts : List Conflict
  /-- The number of items scanned. -/
  scanned : Nat
  deriving Repr, DecidableEq

namespace Plan

/-- The number of items that are renamed. -/
def renameCount (p : Plan) : Nat := p.items.length

/-- The number of items that go through a temporary name. -/
def temporaryCount (p : Plan) : Nat :=
  (p.moves.filter fun m => m.isPaired && !m.leavesTemporary).length

/-- The plan in words. -/
def summary (p : Plan) : String :=
  "\n".intercalate
    ["Rename Plan Summary:",
      "  - Items to rename: " ++ toString p.renameCount,
      "  - Commands: " ++ toString p.moves.length,
      "  - Case-only renames: " ++ toString p.temporaryCount,
      "  - Warnings: " ++ toString p.warnings.length,
      "  - Errors: " ++ toString p.conflicts.length]

end Plan

/-- The plan of scanned items, and the number of tokens drawn after it. -/
def buildPlan (isTaken : Path → Bool) (token : Nat → String) (drawn : Nat) (items : List Item) :
    Except Failure Plan × Nat :=
  let (moves, drawn) := planMoves isTaken token drawn items
  let plan := (warningsOf moves).map fun warnings =>
    { moves
      items := items.filter (·.changesName)
      warnings
      conflicts := conflictsOf items
      scanned := 0 }
  (plan, drawn)

end Recase
