import Mathlib.Data.List.Induction
import Recase.Proofs.Name.Entry

/-!
# Well-formed trees

* `Tree.node?_eq_some_iff`: what is at a place is an entry there, or the top.
* `Tree.WellFormed.isDirectory_of_append`: what leads to an entry are directories.
* `Tree.WellFormed.isPlain`: the names that lead to an entry are plain, and not too long
  (`Tree.WellFormed.size_le`).
* `Tree.mem_below_iff`: the entries below a place.
* `Tree.subtree_subtree`: a tree below a place of a tree below a place.
* `Tree.LinkFree`: a tree of directories and regular files.
-/

namespace Recase

open Name

theorem exists_of_bind_eq_ok {ε α β : Type} {first : Except ε α} {next : α → Except ε β} {b : β}
    (h : first >>= next = .ok b) : ∃ a, first = .ok a ∧ next a = .ok b := by
  cases first with
  | error e => cases h
  | ok a => exact ⟨a, rfl, h⟩

theorem lookup_eq_some_iff {α β : Type} [BEq α] [LawfulBEq α] {entries : List (α × β)} {key : α}
    {value : β} (h : (entries.map (·.1)).Nodup) :
    entries.lookup key = some value ↔ (key, value) ∈ entries := by
  induction entries with
  | nil => simp
  | cons e rest ih =>
    obtain ⟨key', value'⟩ := e
    rw [List.map_cons, List.nodup_cons] at h
    rw [List.lookup_cons]
    by_cases hkey : key = key'
    · subst hkey
      have hne : (key, value) ∉ rest := fun hm => h.1 (List.mem_map_of_mem (f := (·.1)) hm)
      simp [hne, eq_comm]
    · rw [beq_false_of_ne hkey, ih h.2]
      simp [hkey]

namespace Tree

variable {t : Tree} {place above : Place} {node : Node} {name : String}

@[simp] theorem node?_nil (t : Tree) : t.node? [] = some .directory := by simp [node?]

@[simp] theorem isDirectory_nil (t : Tree) : t.isDirectory [] = true := by simp [isDirectory]

theorem isDirectory_iff : t.isDirectory place = true ↔ t.node? place = some .directory := by
  simp [isDirectory]

theorem node?_of_ne_nil (h : place ≠ []) : t.node? place = t.entries.lookup place := by
  simp [node?, h]

instance (t : Tree) : Decidable t.WellFormed :=
  decidable_of_iff
    ((t.entries.map (·.1)).Nodup ∧ (∀ e ∈ t.entries, e.1 ≠ []) ∧
      (∀ e ∈ t.entries, t.isDirectory e.1.dropLast = true) ∧
      ∀ e ∈ t.entries, ∀ name ∈ e.1, isEntryName name = true)
    ⟨fun ⟨h₁, h₂, h₃, h₄⟩ => ⟨h₁, h₂, h₃, h₄⟩, fun ⟨h₁, h₂, h₃, h₄⟩ => ⟨h₁, h₂, h₃, h₄⟩⟩

/-- A tree of directories and regular files. -/
def LinkFree (t : Tree) : Prop := ∀ place target, t.node? place ≠ some (.link target)

/-- A tree without links among its entries. -/
theorem linkFree_of_entries (h : ∀ e ∈ t.entries, ∀ target, e.2 ≠ .link target) : t.LinkFree := by
  intro place target htarget
  by_cases hnil : place = []
  · simp [hnil] at htarget
  · rw [node?_of_ne_nil hnil, List.lookup_eq_some_iff] at htarget
    obtain ⟨front, back, hentries, -⟩ := htarget
    exact h (place, .link target) (by simp [hentries]) target rfl

namespace WellFormed

theorem node?_eq_some_iff (ht : t.WellFormed) (h : place ≠ []) :
    t.node? place = some node ↔ (place, node) ∈ t.entries := by
  rw [node?_of_ne_nil h, lookup_eq_some_iff ht.nodup]

theorem node?_of_mem (ht : t.WellFormed) (h : (place, node) ∈ t.entries) :
    t.node? place = some node :=
  (ht.node?_eq_some_iff (ht.ne_top _ h)).mpr h

/-- What an entry lies in is a directory. -/
theorem isDirectory_of_concat (ht : t.WellFormed) (h : t.node? (above ++ [name]) = some node) :
    t.isDirectory above = true := by
  have := ht.parent _ ((ht.node?_eq_some_iff (by simp)).mp h)
  simpa using this

theorem isDirectory_dropLast (ht : t.WellFormed) (h : t.isDirectory place = true) :
    t.isDirectory place.dropLast = true := by
  rcases List.eq_nil_or_concat place with rfl | ⟨above, name, rfl⟩
  · simp
  · rw [List.concat_eq_append] at h ⊢
    simpa using ht.isDirectory_of_concat (isDirectory_iff.mp h)

/-- What leads to an entry are directories. -/
theorem isDirectory_of_append (ht : t.WellFormed) {rest : List String} (hrest : rest ≠ [])
    (h : t.node? (above ++ rest) = some node) : t.isDirectory above = true := by
  induction rest using List.reverseRecOn generalizing node with
  | nil => exact absurd rfl hrest
  | append_singleton rest name ih =>
    rw [← List.append_assoc] at h
    have hdir := ht.isDirectory_of_concat h
    rcases eq_or_ne rest [] with rfl | hne
    · simpa using hdir
    · exact ih hne (isDirectory_iff.mp hdir)

/-- What leads to a directory are directories. -/
theorem isDirectory_of_isDirectory_append (ht : t.WellFormed) {rest : List String}
    (h : t.isDirectory (above ++ rest) = true) : t.isDirectory above = true := by
  rcases eq_or_ne rest [] with rfl | hne
  · simpa using h
  · exact ht.isDirectory_of_append hne (isDirectory_iff.mp h)

theorem entryName (ht : t.WellFormed) (h : t.node? place = some node) (hname : name ∈ place) :
    isEntryName name = true :=
  ht.names _ ((ht.node?_eq_some_iff (List.ne_nil_of_mem hname)).mp h) _ hname

/-- The names that lead to an entry are plain. -/
theorem isPlain (ht : t.WellFormed) (h : t.node? place = some node) (hname : name ∈ place) :
    IsPlain name :=
  (isEntryName_iff.mp (ht.entryName h hname)).1

theorem size_le (ht : t.WellFormed) (h : t.node? place = some node) (hname : name ∈ place) :
    name.utf8ByteSize ≤ nameLimit :=
  (isEntryName_iff.mp (ht.entryName h hname)).2

end WellFormed

/-! ## What lies below a place -/

/-- The entries below a place, in the order in which the tree has them. -/
theorem below_eq_filterMap (t : Tree) (top : Place) :
    t.below top = t.entries.filterMap fun e =>
      (top.isPrefixOf? e.1).bind fun names => if names = [] then none else some (names, e.2) := by
  unfold below
  congr 1
  funext ⟨place, node⟩
  cases h : top.isPrefixOf? place with
  | none => simp [h]
  | some names => cases names <;> simp [h]

theorem mem_below_iff {top : Place} {names : List String} :
    (names, node) ∈ t.below top ↔ names ≠ [] ∧ (top ++ names, node) ∈ t.entries := by
  rw [below_eq_filterMap, List.mem_filterMap]
  constructor
  · rintro ⟨⟨place, node'⟩, hmem, heq⟩
    obtain ⟨rest, hrest, heq⟩ := Option.bind_eq_some_iff.mp heq
    split at heq
    · cases heq
    · rename_i hne
      cases heq
      rw [Place.isPrefixOf?_eq_some_iff] at hrest
      exact ⟨hne, hrest ▸ hmem⟩
  · rintro ⟨hne, hmem⟩
    exact ⟨_, hmem, by rw [Place.isPrefixOf?_eq_some_iff.mpr rfl]; simp [hne]⟩

theorem isPrefixOf?_append (top more place : Place) :
    (top ++ more).isPrefixOf? place = (top.isPrefixOf? place).bind more.isPrefixOf? := by
  ext rest
  simp only [Option.bind_eq_some_iff, Place.isPrefixOf?_eq_some_iff]
  constructor
  · rintro rfl
    exact ⟨more ++ rest, List.append_assoc .., rfl⟩
  · rintro ⟨_, rfl, rfl⟩
    exact (List.append_assoc ..).symm

/-- A tree below a place of a tree below a place. -/
theorem subtree_subtree (t : Tree) (top more : Place) :
    (t.subtree top).subtree more = t.subtree (top ++ more) := by
  rw [subtree, subtree, below_eq_filterMap _ more]
  unfold subtree
  rw [below_eq_filterMap t, below_eq_filterMap t, List.filterMap_filterMap]
  congr 2
  funext ⟨place, node⟩
  simp only [isPrefixOf?_append]
  cases htop : top.isPrefixOf? place with
  | none => simp
  | some rest =>
    rcases eq_or_ne rest [] with rfl | hne
    · cases more <;> rfl
    · simp [hne]

end Tree

end Recase
