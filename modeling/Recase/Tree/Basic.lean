/-!
# Trees of files

A tree is the list of its entries, each at a place: the names that lead to it from the top. The
top itself is a directory and no entry. Trees are idealised: a regular file is at one place alone,
so there are no hard links, and there are no special files (pipes, sockets, devices) and no names
that are not text. Nobody is refused an entry for its mode; that a file may not be opened is data of
the world and not of the tree.

* `Tree.node?`: what is at a place.
* `Tree.below`: the entries below a place, by the names that lead to them from there; as a tree of
  their own (`Tree.subtree`) they hold what the whole tree holds there (`node?_subtree`).
* `Tree.move`: an entry and all below it carried to another place, the entries keeping their order.
* `Tree.put`, `Tree.remove`: an entry written or taken away.
* `Tree.WellFormed`: every place occurs once, and its parent is a directory.
-/

namespace Recase

/-- The names that lead to an entry from the top. -/
abbrev Place := List String

/-- Contents are compared in the way that comes with arrays of bytes. -/
instance (priority := high) decidableEqContent : DecidableEq ByteArray := ByteArray.instDecidableEq

/-- What an entry is: a directory, a regular file or a symbolic link. -/
inductive Node
  | directory
  | file (content : ByteArray)
  | link (target : String)
  deriving DecidableEq

/-- A tree of files: its entries below the top, each with its place. -/
structure Tree where
  entries : List (Place × Node)
  deriving DecidableEq

/-- The place `place` after what is at `src` has been carried to `dst`. -/
def Place.carried (place src dst : Place) : Place :=
  match src.isPrefixOf? place with
  | some rest => dst ++ rest
  | none => place

/-- The place that steps lead to when no link is followed and nothing has to exist. -/
def Place.lexically : Place → List String → Place
  | here, [] => here
  | here, step :: rest =>
    if step = "." then lexically here rest
    else if step = ".." then lexically here.dropLast rest
    else lexically (here ++ [step]) rest

theorem Place.isPrefixOf?_eq_some_iff {top place rest : Place} :
    top.isPrefixOf? place = some rest ↔ place = top ++ rest := by
  induction top generalizing place with
  | nil => exact Option.some_inj
  | cons a top ih =>
    cases place with
    | nil => exact ⟨nofun, nofun⟩
    | cons b place =>
      change (if a == b then top.isPrefixOf? place else none) = some rest ↔ _
      rw [List.cons_append, List.cons.injEq]
      split
      · rename_i h
        rw [ih, beq_iff_eq.mp h, eq_self, true_and]
      · rename_i h
        exact ⟨nofun, fun hsplit => absurd (beq_iff_eq.mpr hsplit.1.symm) h⟩

namespace Tree

/-- The tree without entries. -/
def empty : Tree := ⟨[]⟩

/-- What is at a place, if anything is. -/
def node? (t : Tree) (place : Place) : Option Node :=
  if place = [] then some .directory else t.entries.lookup place

/-- Whether there is a directory at a place. -/
def isDirectory (t : Tree) (place : Place) : Bool := t.node? place == some .directory

/-- The entries below a place, with the names that lead to them from there. -/
def below (t : Tree) (top : Place) : List (List String × Node) :=
  t.entries.filterMap fun (place, node) =>
    match top.isPrefixOf? place with
    | some (name :: rest) => some (name :: rest, node)
    | _ => none

/-- The tree of the entries below a place. -/
def subtree (t : Tree) (top : Place) : Tree := ⟨t.below top⟩

/-- The tree with what is at `src` carried to `dst`, in place of what is at `dst`. -/
def move (t : Tree) (src dst : Place) : Tree :=
  ⟨(t.entries.filter (·.1 != dst)).map fun (place, node) => (place.carried src dst, node)⟩

/-- The tree with a node at a place, in place of what is there. -/
def put (t : Tree) (place : Place) (node : Node) : Tree :=
  if t.entries.any (·.1 == place) then
    ⟨t.entries.map fun e => if e.1 == place then (place, node) else e⟩
  else ⟨t.entries ++ [(place, node)]⟩

/-- The tree without what is at a place and below it. -/
def remove (t : Tree) (place : Place) : Tree := ⟨t.entries.filter (!place.isPrefixOf ·.1)⟩

/-- The longest name that the file system takes, in bytes. -/
def nameLimit : Nat := 255

/-- Whether a text can be the name of an entry. -/
def isEntryName (name : String) : Bool :=
  name != "" && name != "." && name != ".." && name.utf8ByteSize ≤ nameLimit &&
    !name.toList.contains '/' && !name.toList.contains '\x00'

/-- Every entry has a place of its own below a directory, and all names are names of entries. -/
structure WellFormed (t : Tree) : Prop where
  nodup : (t.entries.map (·.1)).Nodup
  ne_top : ∀ e ∈ t.entries, e.1 ≠ []
  parent : ∀ e ∈ t.entries, t.isDirectory e.1.dropLast = true
  names : ∀ e ∈ t.entries, ∀ name ∈ e.1, isEntryName name = true

theorem lookup_below (t : Tree) (top : Place) {place : Place} (h : place ≠ []) :
    (t.below top).lookup place = t.entries.lookup (top ++ place) := by
  obtain ⟨name, rest, rfl⟩ := List.exists_cons_of_ne_nil h
  unfold below
  induction t.entries with
  | nil => rfl
  | cons e es ih =>
    obtain ⟨path, node⟩ := e
    rw [List.filterMap_cons, List.lookup_cons]
    by_cases hat : path = top ++ name :: rest
    · subst hat
      simp [Place.isPrefixOf?_eq_some_iff.mpr rfl]
    · have hne : (top ++ name :: rest == path) = false := by simpa using fun h => hat h.symm
      rw [hne]
      split
      · exact ih
      · rename_i e' he
        dsimp only at he
        split at he
        · rename_i name' rest' hpre
          cases he
          have : (name :: rest == name' :: rest') = false := by
            rw [beq_eq_false_iff_ne]
            intro heq
            exact hat (heq ▸ Place.isPrefixOf?_eq_some_iff.mp hpre)
          rw [List.lookup_cons, this]
          exact ih
        · cases he

/-- A subtree holds what the whole tree holds there, and is a directory itself. -/
theorem node?_subtree (t : Tree) (top place : Place) :
    (t.subtree top).node? place =
      if place = [] then some .directory else t.node? (top ++ place) := by
  unfold node? subtree
  split
  · rfl
  · rename_i h
    rw [if_neg (by simp [h]), lookup_below t top h]

end Tree

end Recase
