import Recase.Name.Convert
import Recase.Path.Basic

/-!
# Items

* `Item`: a directory or regular file below a root, with its path there and the path that it is to
  have once its own name and all above it are converted.
* `Item.currentPath`: where the item is when its turn comes. The directories above it have been
  renamed by then and it still has its own name.
-/

namespace Recase

/-- A directory or file below a root. -/
structure Item where
  /-- The path below the root. -/
  path : String
  /-- The converted path below the root. -/
  convertedPath : String
  kind : EntryKind
  /-- Whether the converted name is another one. -/
  changesName : Bool
  root : Path
  deriving Repr, DecidableEq

namespace Item

/-- The number of segments of the path. -/
def depth (item : Item) : Nat := PathText.depth item.path

/-- The name of the item. -/
def name (item : Item) : String := PathText.lastName item.path

/-- The converted name of the item. -/
def convertedName (item : Item) : String := PathText.lastName item.convertedPath

/-- The path of the item when its own turn comes. -/
def currentPath (item : Item) : String :=
  let parent := PathText.parentText item.convertedPath
  if parent.isEmpty then item.name else PathText.joinText parent item.name

end Item

end Recase
