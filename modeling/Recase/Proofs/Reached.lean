import Recase.Proofs.Again
import Recase.Proofs.Nested
import Recase.Proofs.Plan.Turns

/-!
# What a scan reaches

* `Tree.Reaches`: the entries to which names lead from a place through directories, none of the
  names skipped. `reaches_iff`: they are the ones that are retained.
* `namesLe_trans`, `namesLe_total`: names are ordered. `eq_of_namesLe`: what leads to an entry does
  not come after it.
* `Item.TellsOf`: the item of an entry, by the names that lead to it.
* `Disk.IsScan`: the items of all entries that are reached below a root, each once, and those of
  directories before those of what they hold.
* `scan_isExact`: a scan gives these items, unless a directory that is reached cannot be listed.
  `scan_corridor`: one that cannot, for its path is too long.
-/

namespace Recase

open Name Recase.Tree

/-! ## Entries that are reached -/

/-- The names lead from a place through directories to an entry, and none of them is skipped. -/
inductive Tree.Reaches (t : Tree) (ignored : List String) : Place → List String → Node → Prop
  | entry {top : Place} {name : String} {node : Node} (hname : isSkipped ignored name = false)
      (hnode : t.node? (top ++ [name]) = some node) : Reaches t ignored top [name] node
  | within {top : Place} {name : String} {rest : List String} {node : Node}
      (hname : isSkipped ignored name = false)
      (hdirectory : t.node? (top ++ [name]) = some .directory)
      (hrest : Reaches t ignored (top ++ [name]) rest node) :
      Reaches t ignored top (name :: rest) node

variable {t : Tree} {ignored : List String} {top : Place} {names : List String} {node : Node}

/-- What is reached is what is retained. -/
theorem Tree.reaches_iff (ht : t.WellFormed) :
    t.Reaches ignored top names node ↔
      names ≠ [] ∧ t.node? (top ++ names) = some node ∧ isRetained ignored names = true := by
  constructor
  · intro h
    induction h with
    | entry hname hnode => exact ⟨by simp, hnode, by simp [isRetained, hname]⟩
    | within hname _ _ ih =>
      obtain ⟨-, hnode, hvisible⟩ := ih
      refine ⟨by simp, by simpa using hnode, ?_⟩
      rw [isRetained] at hvisible ⊢
      simp [hname, hvisible]
  · rintro ⟨hne, hnode, hvisible⟩
    induction names generalizing top with
    | nil => exact absurd rfl hne
    | cons name rest ih =>
      have hname : isSkipped ignored name = false := by
        simpa using List.all_eq_true.mp hvisible name List.mem_cons_self
      rcases eq_or_ne rest [] with rfl | hrest
      · exact .entry hname hnode
      · have hsplit : top ++ name :: rest = (top ++ [name]) ++ rest := by simp
        rw [hsplit] at hnode
        have hdirectory := isDirectory_iff.mp (ht.isDirectory_of_append hrest hnode)
        refine .within hname hdirectory (ih hrest hnode ?_)
        rw [isRetained, List.all_cons, Bool.and_eq_true] at hvisible
        exact hvisible.2

/-! ## The order of names -/

theorem namesLe_total (a b : List String) : (namesLe a b || namesLe b a) = true := by
  induction a generalizing b with
  | nil => simp [namesLe]
  | cons x a ih =>
    cases b with
    | nil => simp [namesLe]
    | cons y b =>
      by_cases hxy : x = y
      · simpa [namesLe, hxy] using ih b
      · simpa [namesLe, hxy, Ne.symm hxy] using String.le_total x y

theorem namesLe_trans (a b c : List String) (hab : namesLe a b = true) (hbc : namesLe b c = true) :
    namesLe a c = true := by
  induction a generalizing b c with
  | nil => rfl
  | cons x a ih =>
    cases b with
    | nil => cases hab
    | cons y b =>
      cases c with
      | nil => cases hbc
      | cons z c =>
        simp only [namesLe] at hab hbc ⊢
        by_cases hxy : x = y
        · by_cases hyz : y = z
          · simp only [hxy, hyz, if_true] at hab hbc ⊢
            exact ih b c hab hbc
          · simpa [hxy, hyz] using hbc
        · simp only [hxy, if_false, decide_eq_true_eq] at hab
          by_cases hyz : y = z
          · simpa [← hyz, hxy] using hab
          · simp only [hyz, if_false, decide_eq_true_eq] at hbc
            have hxz : x ≠ z := by
              rintro rfl
              exact hxy (String.le_antisymm hab hbc)
            simpa [hxz] using String.le_trans hab hbc

/-- Names that lead to an entry do not come after it. -/
theorem eq_of_namesLe {a b : List String} (h : namesLe a b = true) (hleads : b <+: a) : a = b := by
  induction b generalizing a with
  | nil =>
    cases a with
    | nil => rfl
    | cons x a => cases h
  | cons y b ih =>
    obtain ⟨rest, rfl⟩ := hleads
    rw [List.cons_append, namesLe, if_pos rfl] at h
    rw [List.cons_append, ih h (List.prefix_append _ _)]

/-! ## Items -/

/-- The item tells of the entry of a kind to which names lead below a root. The segments of its new
path are those of its path, each converted as what it names: all but the last one are
directories. -/
structure Item.TellsOf (item : Item) (root : Path) (names : List String) (kind : EntryKind) :
    Prop where
  root_eq : item.root = root
  kind_eq : item.kind = kind
  path_eq : item.path = pathText names
  segments_path : PathText.segments item.path = names
  converted : ∀ i, (PathText.segments item.convertedPath)[i]? =
    names[i]?.map (if i + 1 = names.length then kind else EntryKind.directory).convert
  changesName : item.changesName = true ↔
    (PathText.segments item.path).getLast? ≠ (PathText.segments item.convertedPath).getLast?

/-- The items are those of the entries that are reached below a root, each once, and those of
directories before those of what they hold. -/
structure Disk.IsScan (d : Disk) (ignored : List String) (root : Path) (top : Place)
    (items : List Item) : Prop where
  sound : ∀ item ∈ items, ∃ names node kind, d.tree.Reaches ignored top names node ∧
    node.kind? = some kind ∧ item.TellsOf root names kind
  complete : ∀ names node kind, d.tree.Reaches ignored top names node → node.kind? = some kind →
    ∃ item ∈ items, item.TellsOf root names kind
  once : (items.map (·.path)).Nodup
  order : items.Pairwise fun a b => ¬ PathText.segments b.path <+: PathText.segments a.path

variable {d : Disk} {root : Path} {e : Retained}

theorem Retained.IsVisible.tellsOf (h : e.IsVisible) : e.item.TellsOf e.root e.names e.kind where
  root_eq := rfl
  kind_eq := rfl
  path_eq := rfl
  segments_path := h.segments_path
  converted := by
    intro i
    rw [h.segments_convertedPath, Retained.names, Retained.newAbove, List.length_append,
      List.length_singleton]
    rcases lt_trichotomy i e.above.length with hlt | rfl | hlt
    · rw [if_neg (by omega), List.getElem?_append_left (by simpa), List.getElem?_append_left hlt,
        List.getElem?_map]
    · rw [if_pos rfl, List.getElem?_append_right (by simp), List.getElem?_append_right (by simp)]
      simp [Retained.newName]
    · rw [List.getElem?_eq_none (by simp; omega), List.getElem?_eq_none (by simp; omega),
        Option.map_none]
  changesName := by
    rw [h.segments_path, h.segments_convertedPath, Retained.names, List.getLast?_concat,
      List.getLast?_concat, ne_eq, Option.some_inj]
    exact bne_iff_ne.trans ne_comm

/-- What the disk retains is reached. -/
theorem Disk.Retains.reaches (h : d.Retains ignored e) (ht : d.tree.WellFormed) :
    ∃ node, d.tree.Reaches ignored e.top e.names node ∧ node.kind? = some e.kind := by
  obtain ⟨node, hnode, hkind⟩ := h.node
  rw [e.place_eq] at hnode
  exact ⟨node, (reaches_iff ht).mpr ⟨by simp [Retained.names], hnode, h.visible⟩, hkind⟩

/-- What the disk retains below a root is what is reached there. -/
theorem exists_mem_retainedBelow_iff (ht : d.tree.WellFormed)
    (htop : d.directoryAt? root = some top) {kind : EntryKind} :
    (∃ e ∈ retainedBelow d ignored root, e.names = names ∧ e.kind = kind) ↔
      ∃ node, d.tree.Reaches ignored top names node ∧ node.kind? = some kind := by
  constructor
  · rintro ⟨e, he, rfl, rfl⟩
    obtain ⟨rfl, hretains⟩ := (mem_retainedBelow_iff ht).mp he
    obtain rfl := Option.some.inj (hretains.top.symm.trans htop)
    exact hretains.reaches ht
  · rintro ⟨node, hreaches, hkind⟩
    obtain ⟨hne, hnode, hvisible⟩ := (reaches_iff ht).mp hreaches
    obtain ⟨above, name, rfl⟩ := (List.eq_nil_or_concat names).resolve_left hne
    rw [List.concat_eq_append] at hnode hvisible ⊢
    refine ⟨⟨root, top, above, name, kind⟩,
      (mem_retainedBelow_iff ht).mpr ⟨rfl, htop, ⟨node, ?_, hkind⟩, hvisible⟩, rfl, rfl⟩
    rw [Retained.place_eq]
    exact hnode

/-- Retained entries are in order. -/
theorem retainedBelow_pairwise (ht : d.tree.WellFormed) (ignored : List String) (root : Path) :
    (retainedBelow d ignored root).Pairwise fun a b => ¬ b.names <+: a.names := by
  unfold retainedBelow
  split
  · simp
  rename_i top _
  have hordered : (d.tree.retainedBelow ignored top).Pairwise fun a b => namesLe a.1 b.1 = true :=
    sortBy_pairwise (fun a b c => namesLe_trans a.1 b.1 c.1) (fun a b => namesLe_total a.1 b.1) _
  refine ((ht.distinct_retainedBelow ignored top).and hordered).filterMap _
    fun a b ⟨hne, hle⟩ x hx y hy hleads => ?_
  obtain ⟨-, -, hxnames, -⟩ := Retained.ofEntry?_eq_some_iff.mp hx
  obtain ⟨-, -, hynames, -⟩ := Retained.ofEntry?_eq_some_iff.mp hy
  rw [hxnames, hynames] at hleads
  exact hne (eq_of_namesLe hle hleads)

/-- The items of what the disk retains below a root are those of a scan. -/
theorem isScan_retainedBelow (ht : d.tree.WellFormed) (htop : d.directoryAt? root = some top) :
    d.IsScan ignored root top ((retainedBelow d ignored root).map (·.item)) := by
  have hvisible : ∀ e ∈ retainedBelow d ignored root, e.root = root ∧ e.IsVisible := by
    intro e he
    obtain ⟨hroot, hretains⟩ := (mem_retainedBelow_iff ht).mp he
    exact ⟨hroot, hretains.isVisible ht⟩
  have horder : ((retainedBelow d ignored root).map (·.item)).Pairwise fun a b =>
      ¬ PathText.segments b.path <+: PathText.segments a.path := by
    rw [List.pairwise_map]
    refine (retainedBelow_pairwise ht ignored root).imp_of_mem fun ha hb hab => ?_
    rwa [(hvisible _ ha).2.segments_path, (hvisible _ hb).2.segments_path]
  refine ⟨fun item hitem => ?_, fun names node kind hreaches hkind => ?_, ?_, horder⟩
  · obtain ⟨e, he, rfl⟩ := List.mem_map.mp hitem
    obtain ⟨rfl, hsees⟩ := hvisible e he
    obtain ⟨node, hreaches, hkind⟩ := (exists_mem_retainedBelow_iff ht htop).mp ⟨e, he, rfl, rfl⟩
    exact ⟨e.names, node, e.kind, hreaches, hkind, hsees.tellsOf⟩
  · obtain ⟨e, he, rfl, rfl⟩ := (exists_mem_retainedBelow_iff ht htop).mpr ⟨node, hreaches, hkind⟩
    obtain ⟨rfl, hsees⟩ := hvisible e he
    exact ⟨e.item, List.mem_map_of_mem he, hsees.tellsOf⟩
  · exact List.pairwise_map.mpr (horder.imp fun {a b} hab (hpath : a.path = b.path) =>
      hab (hpath ▸ List.prefix_rfl))

/-! ## Scans -/

/-- The scan of a root gives one item for each directory and regular file that is reached below it,
the items of directories before those of what they hold, as long as the system takes the paths of
all directories that are reached. If not, it fails at one of these. -/
theorem scan_isExact {text : String} (ht : d.tree.WellFormed)
    (htop : d.directoryAt? (.parse text) = some top) :
    (∃ items, (scan d ignored [.ofText text]).items = .ok items ∧
        d.IsScan ignored (.parse text) top items ∧
        ∀ names, d.tree.Reaches ignored top names .directory →
          ((Path.parse text).below names).route.isTooLong = false) ∨
      ∃ names, d.tree.Reaches ignored top names .directory ∧
        ((Path.parse text).below names).route.isTooLong = true ∧
        (scan d ignored [.ofText text]).items =
          .error (.system .nameTooLong ((Path.parse text).below names).toString none) := by
  rw [scan_singleton ht htop]
  have hdirectory : ∀ names,
      (∃ e ∈ retainedBelow d ignored (.parse text), e.names = names ∧ e.kind = .directory) ↔
      d.tree.Reaches ignored top names .directory := by
    intro names
    rw [exists_mem_retainedBelow_iff ht htop]
    constructor
    · rintro ⟨node, hreaches, hkind⟩
      cases node with
      | directory => exact hreaches
      | file | link => cases hkind
    · exact fun hreaches => ⟨_, hreaches, rfl⟩
  obtain ⟨⟨items, hitems⟩, hall⟩ | ⟨e, he, failure, hkind, hlisting, hitems⟩ :=
    scanRoot_cases d ignored (.parse text)
  · obtain rfl := scanRoot_items hitems
    refine .inl ⟨_, hitems, isScan_retainedBelow ht htop, fun names hreaches => ?_⟩
    obtain ⟨e, he, rfl, hkind⟩ := (hdirectory names).mpr hreaches
    have hlisted := hall e he hkind
    rw [((mem_retainedBelow_iff ht).mp he).1] at hlisted
    rw [← Bool.not_eq_true]
    intro hlong
    rw [listingFailure?_eq_some_iff.mpr ⟨hlong, rfl⟩] at hlisted
    cases hlisted
  · obtain ⟨hlong, rfl⟩ := listingFailure?_eq_some_iff.mp hlisting
    rw [((mem_retainedBelow_iff ht).mp he).1] at hlong hitems
    exact .inr ⟨e.names, (hdirectory _).mp ⟨e, he, rfl, hkind⟩, hlong, hitems⟩

/-- A directory with a file and a link in it, and one whose name is skipped. -/
def Tree.mixed : Tree :=
  ⟨[(["dist"], .directory), (["dist", "oldMain.js"], .file ⟨#[]⟩), (["srcDir"], .directory),
    (["srcDir", "aLink"], .link "MainApp.ts"), (["srcDir", "MainApp.ts"], .file ⟨#[]⟩)]⟩

theorem scan_isExact_mixed :
    ∃ items, (scan (World.ofTree .mixed).disk ["dist"] [.ofText "."]).items = .ok items ∧
      (World.ofTree .mixed).disk.IsScan ["dist"] (.parse ".") [] items ∧
      items.map (·.convertedPath) = ["src-dir", "src-dir/main-app.ts"] := by
  obtain ⟨items, hitems, hpaths⟩ : ∃ items,
      (scan (World.ofTree .mixed).disk ["dist"] [.ofText "."]).items = .ok items ∧
        items.map (·.convertedPath) = ["src-dir", "src-dir/main-app.ts"] :=
          exists_ok_of_any (by decide +kernel)
  obtain ⟨found, hfound, hscan, -⟩ | ⟨names, -, -, hfails⟩ :=
    @scan_isExact ["dist"] []
      (World.ofTree .mixed).disk "." (by decide : Tree.mixed.WellFormed) (by decide)
  · obtain rfl := Except.ok.inj (hitems.symm.trans hfound)
    exact ⟨items, hitems, hscan, hpaths⟩
  · cases hitems.symm.trans hfails

/-- A directory, and a path to the one above it that leads there and back, as long as the system
takes one. -/
def Tree.corridor : Tree := ⟨[(["x"], .directory)]⟩

/-- The directory is reached, and cannot be listed over this path. -/
theorem scan_corridor :
    (World.ofTree .corridor).disk.directoryAt? (.parse (Path.winding 819).toString) = some [] ∧
      Tree.corridor.Reaches ignoredNames [] ["x"] .directory ∧
      (scan (World.ofTree .corridor).disk ignoredNames
        [.ofText (Path.winding 819).toString]).items =
        .error (.system .nameTooLong ((Path.winding 819).below ["x"]).toString none) := by
  have ht : Tree.corridor.WellFormed := by decide
  have htop : (World.ofTree .corridor).disk.directoryAt? (.winding 819) = some [] :=
    directoryAt?_winding ht rfl (by decide) (by decide) (by decide)
  have hroot := ofText_winding (k := 819) (by decide)
  have hentries : Tree.corridor.retainedBelow ignoredNames [] = [(["x"], .directory)] := by decide
  have hretained : retained (World.ofTree .corridor).disk ignoredNames [.winding 819] =
      [⟨.winding 819, [], [], "x", .directory⟩] := by
    rw [retained_singleton htop, World.ofTree, hentries]
    rfl
  refine ⟨?_, .entry (by decide) (by decide), ?_⟩
  · rw [show Path.parse (Path.winding 819).toString = .winding 819 from congrArg (·.path) hroot]
    exact htop
  · rw [hroot]
    have hlong : ((Path.winding 819).below ["x"]).route.isTooLong = true := by
      rw [isTooLong_below_winding (by decide)]
      decide
    obtain ⟨-, hall⟩ | ⟨e, he, failure, -, hlisting, hitems⟩ :=
      scan_cases (outermostRoots_winding ht htop) ignoredNames
    · have hmem : (⟨.winding 819, [], [], "x", .directory⟩ : Retained) ∈
          retained (World.ofTree .corridor).disk ignoredNames [.winding 819] := by
        rw [hretained]
        exact List.mem_singleton_self _
      have hlisted := hall _ hmem rfl
      dsimp only [Retained.names, List.nil_append] at hlisted
      rw [listingFailure?_eq_some_iff.mpr ⟨hlong, rfl⟩] at hlisted
      cases hlisted
    · rw [hretained, List.mem_singleton] at he
      subst he
      dsimp only [Retained.names, List.nil_append] at hlisting
      obtain ⟨-, rfl⟩ := listingFailure?_eq_some_iff.mp hlisting
      exact hitems

end Recase
