import Recase.Proofs.Root
import Recase.Scan

/-!
# Retained entries

* `Retained`: an entry that a scan retains, with the root below which it was found and the place of
  that root. `Retained.item` is its item.
* `Disk.Retains`: the entry is there, and no name on the way to it is skipped.
* `retained`: the retained entries below roots. They are those that the disk retains
  (`mem_retained_iff`), each at a place of its own (`retained_pairwise`).
* `scan_items`: a scan that ends without a failure gives their items. `scan_cases`: one that fails
  has come to a directory that cannot be listed.
-/

namespace Recase

open Name Recase.Tree

/-- An entry that a scan retains. -/
structure Retained where
  root : Path
  /-- The place of the root. -/
  top : Place
  /-- The names of the directories on the way from the root. -/
  above : List String
  name : String
  kind : EntryKind
  deriving DecidableEq

namespace Retained

/-- The names that lead from the root to the entry. -/
def names (e : Retained) : List String := e.above ++ [e.name]

/-- The place of the directory that the entry is in. -/
def directory (e : Retained) : Place := e.top ++ e.above

/-- The place of the entry. -/
def place (e : Retained) : Place := e.directory ++ [e.name]

/-- The converted name of the entry. -/
def newName (e : Retained) : String := e.kind.convert e.name

/-- The converted names of the directories on the way from the root. -/
def newAbove (e : Retained) : List String := e.above.map EntryKind.directory.convert

/-- The item of the entry. -/
def item (e : Retained) : Item where
  path := pathText e.names
  convertedPath := pathText (e.newAbove ++ [e.newName])
  kind := e.kind
  changesName := e.newName != e.name
  root := e.root

/-- The retained entry of an entry found below a root. -/
def ofEntry? (root : Path) (top : Place) (names : List String) (node : Node) : Option Retained :=
  match names.getLast?, node.kind? with
  | some name, some kind => some ⟨root, top, names.dropLast, name, kind⟩
  | _, _ => none

variable {root : Path} {top : Place} {names : List String} {node : Node} {e : Retained}

theorem ofEntry?_eq_some_iff :
    ofEntry? root top names node = some e ↔
      e.root = root ∧ e.top = top ∧ e.names = names ∧ node.kind? = some e.kind := by
  unfold ofEntry?
  rcases List.eq_nil_or_concat names with rfl | ⟨above, name, rfl⟩
  · simp [Retained.names]
  · obtain ⟨root', top', above', name', kind'⟩ := e
    cases node.kind? with
    | none => simp
    | some kind =>
      simp only [List.concat_eq_append, List.getLast?_append, List.getLast?_singleton,
        Option.some_or, List.dropLast_concat, Option.some.injEq, mk.injEq, Retained.names]
      constructor
      · rintro ⟨rfl, rfl, rfl, rfl, rfl⟩
        exact ⟨rfl, rfl, rfl, rfl⟩
      · rintro ⟨rfl, rfl, hnames, rfl⟩
        obtain ⟨rfl, hname⟩ := List.append_inj' hnames rfl
        exact ⟨rfl, rfl, rfl, (by simpa using hname.symm), rfl⟩

theorem place_eq (e : Retained) : e.place = e.top ++ e.names := by
  simp [place, directory, names]

end Retained

/-- Directories on the way to an entry are converted as such. -/
theorem convertNames_concat (kind : EntryKind) (above : List String) (name : String) :
    convertNames kind (above ++ [name]) =
      above.map EntryKind.directory.convert ++ [kind.convert name] := by
  induction above with
  | nil => rfl
  | cons first rest ih =>
    rw [List.map_cons, List.cons_append, List.cons_append, ← ih]
    cases h : rest ++ [name] with
    | nil => simp at h
    | cons second more => rfl

/-- The item of an entry is that of what a scan retains. -/
theorem Item.ofEntry?_eq (root : Path) (top : Place) {names : List String} (h : names ≠ [])
    (node : Node) :
    Item.ofEntry? root names node = (Retained.ofEntry? root top names node).map (·.item) := by
  rcases List.eq_nil_or_concat names with rfl | ⟨above, name, rfl⟩
  · exact absurd rfl h
  · unfold Item.ofEntry? Retained.ofEntry?
    cases node.kind? with
    | none => simp
    | some kind =>
      have hchanges : (some name != some (kind.convert name)) = (kind.convert name != name) := by
        rw [bne, bne, Option.some_beq_some, BEq.comm]
      simp only [convertNames_concat, List.concat_eq_append, List.getLast?_append,
        List.getLast?_singleton, Option.some_or, List.dropLast_concat, Option.map_some, hchanges,
        Retained.item, Retained.names, Retained.newAbove, Retained.newName]

/-! ## What a disk retains -/

theorem isRetained_concat {ignored above : List String} {name : String} :
    isRetained ignored (above ++ [name]) = true ↔
      isRetained ignored above = true ∧ isSkipped ignored name = false := by
  simp [isRetained]

/-- The entry is there, and no name on the way to it is skipped. -/
structure Disk.Retains (d : Disk) (ignored : List String) (e : Retained) : Prop where
  top : d.directoryAt? e.root = some e.top
  node : ∃ node, d.tree.node? e.place = some node ∧ node.kind? = some e.kind
  visible : isRetained ignored e.names = true

/-- The retained entries below one root. -/
def retainedBelow (d : Disk) (ignored : List String) (root : Path) : List Retained :=
  match d.directoryAt? root with
  | none => []
  | some top =>
    (d.tree.retainedBelow ignored top).filterMap fun e => Retained.ofEntry? root top e.1 e.2

/-- The retained entries below roots. -/
def retained (d : Disk) (ignored : List String) (roots : List Path) : List Retained :=
  roots.flatMap (retainedBelow d ignored)

variable {d : Disk} {ignored : List String} {root : Path} {roots : List Path} {e : Retained}

theorem Tree.mem_retainedBelow_iff {t : Tree} {top : Place} {names : List String} {node : Node} :
    (names, node) ∈ t.retainedBelow ignored top ↔
      names ≠ [] ∧ (top ++ names, node) ∈ t.entries ∧ isRetained ignored names = true := by
  rw [retainedBelow, (sortBy_perm _ _).mem_iff, List.mem_filter, mem_below_iff, and_assoc]

theorem mem_retainedBelow_iff (ht : d.tree.WellFormed) :
    e ∈ retainedBelow d ignored root ↔ e.root = root ∧ d.Retains ignored e := by
  unfold retainedBelow
  constructor
  · intro h
    split at h
    · simp at h
    rename_i top htop
    obtain ⟨⟨names, node⟩, hmem, heq⟩ := List.mem_filterMap.mp h
    obtain ⟨rfl, rfl, rfl, hkind⟩ := Retained.ofEntry?_eq_some_iff.mp heq
    obtain ⟨-, hentry, hvisible⟩ := Tree.mem_retainedBelow_iff.mp hmem
    rw [← e.place_eq] at hentry
    exact ⟨rfl, htop, ⟨node, ht.node?_of_mem hentry, hkind⟩, hvisible⟩
  · rintro ⟨rfl, htop, ⟨node, hnode, hkind⟩, hvisible⟩
    rw [htop]
    refine List.mem_filterMap.mpr ⟨(e.names, node), ?_, ?_⟩
    · rw [e.place_eq, ht.node?_eq_some_iff (by simp [Retained.names])] at hnode
      exact Tree.mem_retainedBelow_iff.mpr ⟨by simp [Retained.names], hnode, hvisible⟩
    · exact Retained.ofEntry?_eq_some_iff.mpr ⟨rfl, rfl, rfl, hkind⟩

/-- The retained entries are those that the disk retains. -/
theorem mem_retained_iff (ht : d.tree.WellFormed) :
    e ∈ retained d ignored roots ↔ e.root ∈ roots ∧ d.Retains ignored e := by
  simp only [retained, List.mem_flatMap, mem_retainedBelow_iff ht]
  constructor
  · rintro ⟨root, hroot, rfl, h⟩
    exact ⟨hroot, h⟩
  · rintro ⟨hroot, h⟩
    exact ⟨e.root, hroot, rfl, h⟩

theorem retained_singleton {top : Place} (htop : d.directoryAt? root = some top) :
    retained d ignored [root] =
      (d.tree.retainedBelow ignored top).filterMap fun e => Retained.ofEntry? root top e.1 e.2 := by
  rw [retained, List.flatMap_singleton, retainedBelow, htop]

theorem below_pairwise {t : Tree} (ht : t.WellFormed) (top : Place) :
    (t.below top).Pairwise fun a b => a.1 ≠ b.1 := by
  rw [below_eq_filterMap]
  refine List.Pairwise.filterMap _ (fun a b hab x hx y hy => ?_) (List.pairwise_map.mp ht.nodup)
  have hsplit : ∀ (e : Place × Node) (z : List String × Node),
      ((top.isPrefixOf? e.1).bind fun names => if names = [] then none else some (names, e.2)) =
        some z → e.1 = top ++ z.1 := by
    intro e z hz
    obtain ⟨names, hnames, hz⟩ := Option.bind_eq_some_iff.mp hz
    split at hz
    · cases hz
    · cases hz
      exact Place.isPrefixOf?_eq_some_iff.mp hnames
  intro heq
  exact hab ((hsplit a x hx).trans (heq ▸ (hsplit b y hy).symm))

/-- No entry is retained twice. -/
theorem Tree.WellFormed.distinct_retainedBelow {t : Tree} (ht : t.WellFormed)
    (ignored : List String) (top : Place) :
    (t.retainedBelow ignored top).Pairwise fun a b => a.1 ≠ b.1 :=
  ((below_pairwise ht top).filter _).perm (sortBy_perm _ _).symm fun h => Ne.symm h

/-- Retained entries are each at a place of their own. -/
theorem retained_pairwise (ht : d.tree.WellFormed) (hroots : d.AreApart roots) :
    (retained d ignored roots).Pairwise fun a b => a.place ≠ b.place := by
  refine List.pairwise_flatMap.mpr ⟨fun root _ => ?_, hroots.imp fun {root other} hapart => ?_⟩
  · unfold retainedBelow
    split
    · simp
    rename_i top htop
    refine (ht.distinct_retainedBelow ignored top).filterMap _ fun a b hab x hx y hy => ?_
    obtain ⟨-, hxtop, hxnames, -⟩ := Retained.ofEntry?_eq_some_iff.mp hx
    obtain ⟨-, hytop, hynames, -⟩ := Retained.ofEntry?_eq_some_iff.mp hy
    rw [x.place_eq, y.place_eq, hxtop, hytop, hxnames, hynames]
    exact fun heq => hab (List.append_cancel_left heq)
  · intro a ha b hb heq
    obtain ⟨rfl, hretains⟩ := (mem_retainedBelow_iff ht).mp ha
    obtain ⟨rfl, hretains'⟩ := (mem_retainedBelow_iff ht).mp hb
    rw [Disk.topAt_eq hretains.top, Disk.topAt_eq hretains'.top] at hapart
    rw [a.place_eq, b.place_eq] at heq
    have hbelow : a.top <+: a.top ++ a.names := List.prefix_append _ _
    have hbelow' : b.top <+: a.top ++ a.names := heq ▸ List.prefix_append _ _
    rcases List.prefix_or_prefix_of_prefix hbelow hbelow' with h | h
    · exact hapart.1 h
    · exact hapart.2 h

/-! ## Scans -/

/-- The items of a scan of entries that ends without a failure. -/
theorem scanEntries_items {entries : List (List String × Node)} {items : List Item} (top : Place)
    (hentries : ∀ e ∈ entries, e.1 ≠ []) (h : (scanEntries root entries).items = .ok items) :
    items = (entries.filterMap fun e => Retained.ofEntry? root top e.1 e.2).map (·.item) := by
  induction entries generalizing items with
  | nil => simpa [scanEntries, Scan.empty, eq_comm] using h
  | cons entry rest ih =>
    obtain ⟨names, node⟩ := entry
    rw [scanEntries] at h
    split at h
    · cases h
    cases hrest : (scanEntries root rest).items with
    | error failure => simp [Scan.visit, hrest, Except.map] at h
    | ok more =>
      have hmore := ih (fun e he => hentries e (by simp [he])) hrest
      simp only [Scan.visit, hrest, Except.map, Except.ok.injEq] at h
      rw [← h, hmore, Item.ofEntry?_eq root top (hentries (names, node) (by simp)),
        List.filterMap_cons]
      cases Retained.ofEntry? root top names node <;> simp

theorem scanRoot_items {items : List Item} (h : (scanRoot d ignored root).items = .ok items) :
    items = (retainedBelow d ignored root).map (·.item) := by
  unfold scanRoot at h
  unfold retainedBelow
  cases htop : d.directoryAt? root with
  | none =>
    rw [htop] at h
    simpa [Scan.empty, eq_comm] using h
  | some top =>
    rw [htop] at h
    refine scanEntries_items top (fun e he => ?_) h
    exact (Tree.mem_retainedBelow_iff.mp he).1

/-- A scan that ends without a failure gives the items of the retained entries. -/
theorem scan_items {given : List Root} {items : List Item}
    (h : (scan d ignored given).items = .ok items) :
    ∃ kept, outermostRoots d given = .ok kept ∧
      items = (retained d ignored kept).map (·.item) := by
  unfold scan at h
  split at h
  · cases h
  rename_i kept hkept
  refine ⟨kept, hkept, ?_⟩
  clear hkept
  induction kept generalizing items with
  | nil => simpa [Scan.empty, retained, eq_comm] using h
  | cons root rest ih =>
    rw [List.map_cons, List.foldr_cons, Scan.append] at h
    split at h
    · rename_i hfirst
      rw [hfirst] at h
      cases h
    · rename_i first hfirst
      cases hrest : ((rest.map (scanRoot d ignored)).foldr Scan.append .empty).items with
      | error failure => simp [hrest, Except.map] at h
      | ok more =>
        simp only [hrest, Except.map, Except.ok.injEq] at h
        rw [← h, ih hrest, scanRoot_items hfirst]
        simp [retained]

/-! ## Directories that cannot be listed -/

section Listing

variable {failure : Failure} {entries : List (List String × Node)} {given : List Root}
  {kept : List Path}

/-- The path of a directory in which nothing can be listed is too long. -/
theorem listingFailure?_eq_some_iff {root : Path} {names : List String} :
    listingFailure? root names = some failure ↔ (root.below names).route.isTooLong = true ∧
      failure = .system .nameTooLong (root.below names).toString none := by
  unfold listingFailure?
  dsimp only
  split
  · rename_i hlong
    simp [hlong, eq_comm]
  · rename_i hlong
    simp [hlong]

/-- A scan of entries either lists all directories or fails at one that cannot be listed. -/
theorem scanEntries_cases (root : Path) (entries : List (List String × Node)) :
    ((∃ items, (scanEntries root entries).items = .ok items) ∧
        ∀ names, (names, .directory) ∈ entries → listingFailure? root names = none) ∨
      ∃ names failure, (names, .directory) ∈ entries ∧
        listingFailure? root names = some failure ∧
        (scanEntries root entries).items = .error failure := by
  induction entries with
  | nil => exact .inl ⟨⟨[], rfl⟩, by simp⟩
  | cons entry rest ih =>
    obtain ⟨names, node⟩ := entry
    rw [scanEntries]
    split
    · rename_i failure hfailure
      split at hfailure
      · rename_i hdirectory
        exact .inr ⟨names, failure, by simp [hdirectory], hfailure, rfl⟩
      · cases hfailure
    · rename_i hlisted
      obtain ⟨⟨items, hitems⟩, hall⟩ | ⟨names', failure, hmem, hfailure, hitems⟩ := ih
      · refine .inl ⟨⟨_, by rw [Scan.visit, hitems]; rfl⟩, fun names' hmem => ?_⟩
        rcases List.mem_cons.mp hmem with heq | hmem
        · cases heq
          exact hlisted
        · exact hall names' hmem
      · refine .inr ⟨names', failure, List.mem_cons_of_mem _ hmem, hfailure, ?_⟩
        rw [Scan.visit, hitems]
        rfl

/-- A scan of one root either lists all directories or fails at one that cannot be listed. -/
theorem scanRoot_cases (d : Disk) (ignored : List String) (root : Path) :
    ((∃ items, (scanRoot d ignored root).items = .ok items) ∧
        ∀ e ∈ retainedBelow d ignored root, e.kind = .directory →
          listingFailure? e.root e.names = none) ∨
      ∃ e ∈ retainedBelow d ignored root, ∃ failure, e.kind = .directory ∧
        listingFailure? e.root e.names = some failure ∧
        (scanRoot d ignored root).items = .error failure := by
  unfold scanRoot retainedBelow
  cases htop : d.directoryAt? root with
  | none => exact .inl ⟨⟨[], rfl⟩, by simp⟩
  | some top =>
    dsimp only
    obtain ⟨hitems, hall⟩ | ⟨names, failure, hmem, hfailure, hitems⟩ :=
      scanEntries_cases root (d.tree.retainedBelow ignored top)
    · refine .inl ⟨hitems, fun e he hkind => ?_⟩
      obtain ⟨⟨names, node⟩, hmem, heq⟩ := List.mem_filterMap.mp he
      obtain ⟨rfl, -, rfl, hnode⟩ := Retained.ofEntry?_eq_some_iff.mp heq
      rw [hkind] at hnode
      cases node with
      | directory => exact hall _ hmem
      | file | link => cases hnode
    · obtain ⟨hne, -, -⟩ := Tree.mem_retainedBelow_iff.mp hmem
      obtain ⟨above, name, rfl⟩ := (List.eq_nil_or_concat names).resolve_left hne
      rw [List.concat_eq_append] at hmem hfailure
      refine .inr ⟨⟨root, top, above, name, .directory⟩, ?_, failure, rfl, hfailure, hitems⟩
      exact List.mem_filterMap.mpr ⟨_, hmem, Retained.ofEntry?_eq_some_iff.mpr ⟨rfl, rfl, rfl, rfl⟩⟩

/-- A scan of roots either gives the items of all retained entries, or fails at a directory that
cannot be listed. -/
theorem scan_cases (hkept : outermostRoots d given = .ok kept) (ignored : List String) :
    ((scan d ignored given).items = .ok ((retained d ignored kept).map (·.item)) ∧
        ∀ e ∈ retained d ignored kept, e.kind = .directory →
          listingFailure? e.root e.names = none) ∨
      ∃ e ∈ retained d ignored kept, ∃ failure, e.kind = .directory ∧
        listingFailure? e.root e.names = some failure ∧
        (scan d ignored given).items = .error failure := by
  rw [scan, hkept]
  dsimp only
  clear hkept
  induction kept with
  | nil => exact .inl ⟨rfl, by simp [retained]⟩
  | cons root rest ih =>
    have hretained : retained d ignored (root :: rest) =
        retainedBelow d ignored root ++ retained d ignored rest := by
      simp [retained]
    rw [List.map_cons, List.foldr_cons, Scan.append, hretained]
    obtain ⟨⟨first, hfirst⟩, hall⟩ | ⟨e, he, failure, hkind, hfailure, hitems⟩ :=
      scanRoot_cases d ignored root
    · rw [hfirst]
      dsimp only
      obtain ⟨hrest, hall'⟩ | ⟨e, he, failure, hkind, hfailure, hrest⟩ := ih
      · left
        rw [hrest, List.map_append, ← scanRoot_items hfirst]
        refine ⟨rfl, fun e he => ?_⟩
        rcases List.mem_append.mp he with he | he
        · exact hall e he
        · exact hall' e he
      · refine .inr ⟨e, List.mem_append_right _ he, failure, hkind, hfailure, ?_⟩
        rw [hrest]
        rfl
    · refine .inr ⟨e, List.mem_append_left _ he, failure, hkind, hfailure, ?_⟩
      rw [hitems]
      exact hitems

end Listing

end Recase
