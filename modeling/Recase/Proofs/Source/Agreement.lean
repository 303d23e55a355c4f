import Recase.Proofs.Interrupted
import Recase.Proofs.Reached
import Recase.Proofs.Written

/-!
# The search and the scan

* `Disk.Exceeds`: an entry that is reached below a root, at a path that the system does not take.
* `Source.exceeds_of_sourceFiles`: a search below existing roots fails only at one, a file or link
  with one of the extensions. `Source.exceeds_of_scan`: a scan of them fails only at one that is a
  directory.
* `Source.exists_read_of_mem_sourceFiles`: a file that a search finds can be read.
  `Source.leadApart_sourceFiles`, `Source.nodup_sourceFiles`: it finds no file twice.
* `Item.site`: the path of an item. `Source.Search.Agrees`: a search finds the paths of the scanned
  files with one of the extensions, as far as the system takes them (`Source.agrees_sourceFiles`).
* `Source.sourceFiles_agree`: these together. `sourceFiles_meandering`: a search that fails where
  the scan does not.
-/

namespace Recase

open Name Recase.Tree Source

/-- Names lead below a root to an entry whose path the system does not take. -/
structure Disk.Exceeds (d : Disk) (ignored : List String) (root : Path) (names : List String)
    (node : Node) (failure : Failure) : Prop where
  reached : ∃ top, d.directoryAt? root = some top ∧ d.tree.Reaches ignored top names node
  tooLong : (root.below names).route.isTooLong = true
  failure_eq : failure = .system .nameTooLong (root.below names).toString none

/-- The path of the item. -/
def Item.site (item : Item) : Path := item.root.joinText item.path

/-- The search finds paths, such as the system takes, of files with one of the extensions among the
items. If it does not fail, it finds all of these. -/
structure Source.Search.Agrees (search : Search) (extensions : List String) (items : List Item) :
    Prop where
  sound : ∀ path ∈ search.files, ∃ item ∈ items, item.IsSource extensions ∧ path = item.site ∧
    path.route.isTooLong = false
  complete : search.failure? = none → ∀ item ∈ items, item.IsSource extensions →
    item.site.route.isTooLong = false → item.site ∈ search.files

variable {d : Disk} {ignored extensions names : List String} {roots : List Root}
  {kept : List Path} {root path : Path} {failure : Failure} {entries : List (List String × Node)}
  {searches : List Search} {e : Retained}

theorem Retained.IsVisible.item_site (h : e.IsVisible) : e.item.site = e.root.below e.names :=
  Path.joinText_pathText _ h.isPlain

namespace Source

/-! ## Searches that fail -/

theorem failure_of_searchEntries (h : (searchEntries root entries).failure? = some failure) :
    ∃ e ∈ entries, (root.below e.1).route.isTooLong = true ∧
      failure = .system .nameTooLong (root.below e.1).toString none := by
  induction entries with
  | nil => cases h
  | cons e rest ih =>
    have hrest : (searchEntries root rest).failure? = some failure →
        ∃ e' ∈ e :: rest, (root.below e'.1).route.isTooLong = true ∧
          failure = .system .nameTooLong (root.below e'.1).toString none := fun h => by
      obtain ⟨e', hmem, hfailure⟩ := ih h
      exact ⟨e', List.mem_cons_of_mem e hmem, hfailure⟩
    simp only [searchEntries] at h
    split at h
    · rename_i hlong
      exact ⟨e, List.mem_cons_self, hlong, (Option.some.inj h).symm⟩
    · split at h
      · exact hrest h
      · exact hrest h

theorem exceeds_of_sourceFilesBelow (ht : d.tree.WellFormed)
    (h : (sourceFilesBelow d extensions ignored root).failure? = some failure) :
    ∃ names node, node ≠ .directory ∧
      (∃ name, names.getLast? = some name ∧ extensionOf name ∈ extensions) ∧
      d.Exceeds ignored root names node failure := by
  unfold sourceFilesBelow at h
  split at h
  · cases h
  rename_i top htop
  obtain ⟨⟨names, node⟩, hmem, hlong, hfailure⟩ := failure_of_searchEntries h
  obtain ⟨hbelow, htest⟩ := List.mem_filter.mp ((sortBy_perm _ _).mem_iff.mp hmem)
  simp only [Bool.and_eq_true] at htest
  obtain ⟨⟨hvisible, hcandidate⟩, -⟩ := htest
  obtain ⟨hne, hentry⟩ := mem_below_iff.mp hbelow
  rw [isCandidate, Bool.and_eq_true, bne_iff_ne] at hcandidate
  exact ⟨names, node, hcandidate.1, by simpa [Option.any_eq_true] using hcandidate.2,
    ⟨top, htop, (reaches_iff ht).mpr ⟨hne, ht.node?_of_mem hentry, hvisible⟩⟩, hlong, hfailure⟩

theorem exists_of_failure_append
    (h : (searches.foldr Search.append .empty).failure? = some failure) :
    ∃ s ∈ searches, s.failure? = some failure := by
  induction searches with
  | nil => cases h
  | cons s rest ih =>
    rw [List.foldr_cons, Search.append] at h
    split at h
    · exact ⟨s, List.mem_cons_self, h⟩
    · obtain ⟨s', hs', hfailure⟩ := ih h
      exact ⟨s', List.mem_cons_of_mem _ hs', hfailure⟩

/-! ## Files that are found once -/

theorem isTooLong_of_mem_searchEntries (h : path ∈ (searchEntries root entries).files) :
    path.route.isTooLong = false := by
  induction entries with
  | nil => cases h
  | cons e rest ih =>
    simp only [searchEntries] at h
    split at h
    · cases h
    · rename_i hshort
      split at h
      · rcases List.mem_cons.mp h with rfl | h
        · simpa using hshort
        · exact ih h
      · exact ih h

theorem isTooLong_of_mem_sourceFiles (hkept : outermostRoots d roots = .ok kept)
    (h : path ∈ (sourceFiles d extensions ignored roots).files) : path.route.isTooLong = false := by
  rw [sourceFiles, hkept] at h
  obtain ⟨s, hs, hpath⟩ := exists_of_mem_append h
  obtain ⟨root, -, rfl⟩ := List.mem_map.mp hs
  unfold sourceFilesBelow at hpath
  split at hpath
  · cases hpath
  · exact isTooLong_of_mem_searchEntries hpath

/-- The path of a source file leads to it, unless it is too long. -/
theorem find_of_isSource (ht : d.tree.WellFormed) (hroot : root.IsNormal)
    (h : d.IsSource extensions ignored root names)
    (hshort : (root.below names).route.isTooLong = false) :
    ∃ place, d.find (root.below names).route .follow = .ok (.entry place) := by
  obtain ⟨top, content, htop, hnode⟩ := h.node
  obtain ⟨name, hlast, -⟩ := h.extension
  obtain ⟨front, rfl⟩ := List.getLast?_eq_some_iff.mp hlast
  have hplain : ∀ n ∈ front ++ [name], IsPlain n :=
    fun n hn => ht.isPlain hnode (List.mem_append_right _ hn)
  have hnul := Path.hasNul_below (Disk.directoryAt?_eq_some_iff.mp htop).1 (by simp) hplain
  rw [← List.append_assoc] at hnode
  have henters := Disk.enters_below ht hroot htop (ht.isDirectory_of_concat hnode)
  exact ⟨_, henters.find_entry ht (hplain name (by simp)).isName hnul hshort hnode (by simp)⟩

section Found

variable (ht : d.tree.WellFormed) (hroots : ∀ r ∈ roots, r.path.IsNormal)
  (hkept : outermostRoots d roots = .ok kept)
include ht hroots hkept

/-- A file that is found can be read. -/
theorem exists_read_of_mem_sourceFiles (h : path ∈ (sourceFiles d extensions ignored roots).files) :
    ∃ content, d.read path = .ok content := by
  have hnormal := (hasRoots_of_outermostRoots ht hroots hkept).isNormal
  obtain ⟨root, hroot, names, hsource, rfl⟩ := isSource_of_mem_sourceFiles ht hkept h
  obtain ⟨place, hfind⟩ :=
    find_of_isSource ht (hnormal root hroot) hsource (isTooLong_of_mem_sourceFiles hkept h)
  obtain ⟨top, htop, rfl⟩ := hsource.eq_of_find ht (hnormal root hroot) hfind
  obtain ⟨top', content, htop', hnode⟩ := hsource.node
  obtain rfl := Option.some.inj (htop.symm.trans htop')
  exact ⟨content, Disk.read_of_find hfind hnode⟩

/-- No two of the files that are found are at one place. -/
theorem leadApart_sourceFiles :
    (sourceFiles d extensions ignored roots).files.Pairwise (LeadApart d) := by
  have hagain := outermostRoots_kept ht hroots hkept
  have hsame : sourceFiles d extensions ignored roots =
      sourceFiles d extensions ignored (kept.map .ofPath) := by
    rw [sourceFiles, sourceFiles, hkept, hagain]
  rw [hsame]
  exact sourceFiles_pairwise ht (hasRoots_of_outermostRoots ht hroots hkept) hagain

theorem nodup_sourceFiles : (sourceFiles d extensions ignored roots).files.Nodup :=
  nodup_of_leadApart ht (leadApart_sourceFiles ht hroots hkept) fun _ =>
    exists_read_of_mem_sourceFiles ht hroots hkept

end Found

/-! ## The files of items -/

section Items

variable (ht : d.tree.WellFormed) (hkept : outermostRoots d roots = .ok kept)
include ht hkept

theorem exists_item_of_mem_sourceFiles (h : path ∈ (sourceFiles d extensions ignored roots).files) :
    ∃ e ∈ retained d ignored kept, e.item.IsSource extensions ∧ path = e.item.site := by
  obtain ⟨root, hroot, names, hsource, rfl⟩ := isSource_of_mem_sourceFiles ht hkept h
  obtain ⟨top, content, htop, hnode⟩ := hsource.node
  obtain ⟨name, hlast, hextension⟩ := hsource.extension
  obtain ⟨above, rfl⟩ := List.getLast?_eq_some_iff.mp hlast
  have hretains : d.Retains ignored ⟨root, top, above, name, .file⟩ := by
    refine ⟨htop, ⟨.file content, ?_, rfl⟩, hsource.visible⟩
    rwa [Retained.place_eq]
  have hvisible := hretains.isVisible ht
  refine ⟨_, (mem_retained_iff ht).mpr ⟨hroot, hretains⟩, ⟨rfl, ?_⟩, hvisible.item_site.symm⟩
  rwa [hvisible.item_name]

theorem site_mem_sourceFiles (hnone : (sourceFiles d extensions ignored roots).failure? = none)
    (he : e ∈ retained d ignored kept) (hsource : e.item.IsSource extensions)
    (hshort : e.item.site.route.isTooLong = false) :
    e.item.site ∈ (sourceFiles d extensions ignored roots).files := by
  obtain ⟨hroot, hretains⟩ := (mem_retained_iff ht).mp he
  have hvisible := hretains.isVisible ht
  obtain ⟨hfile, hextension⟩ := hsource
  obtain ⟨node, hnode, hkind⟩ := hretains.node
  rw [hvisible.item_name] at hextension
  rw [hvisible.item_site] at hshort ⊢
  have hlisted : e.root.canList e.names.dropLast = true := by
    rw [Retained.names, List.dropLast_concat]
    exact Path.canList_of_isTooLong hvisible.isPlain_name.ne_empty hshort
  have hlast : e.names.getLast? = some e.name := List.getLast?_concat
  refine mem_sourceFiles ht hkept hnone hroot ⟨⟨e.top, ?_⟩, hretains.visible,
    ⟨e.name, hlast, hextension⟩, hlisted⟩
  have hkind' : node.kind? = some .file := hkind.trans (congrArg some hfile)
  cases node with
  | directory | link target => cases hkind'
  | file content => exact ⟨content, hretains.top, by rwa [← e.place_eq]⟩

/-- What a search finds are the files among the items of a scan. -/
theorem agrees_sourceFiles :
    (sourceFiles d extensions ignored roots).Agrees extensions
        ((retained d ignored kept).map (·.item)) where
  sound path hpath := by
    have hshort := isTooLong_of_mem_sourceFiles hkept hpath
    obtain ⟨e, he, hsource, rfl⟩ := exists_item_of_mem_sourceFiles ht hkept hpath
    exact ⟨e.item, List.mem_map_of_mem he, hsource, rfl, hshort⟩
  complete hnone item hitem hsource hshort := by
    obtain ⟨e, he, rfl⟩ := List.mem_map.mp hitem
    exact site_mem_sourceFiles ht hkept hnone he hsource hshort

/-- A search below roots that are there fails only at a file or link with one of the extensions. -/
theorem exceeds_of_sourceFiles
    (h : (sourceFiles d extensions ignored roots).failure? = some failure) :
    ∃ root ∈ kept, ∃ names node, node ≠ .directory ∧
      (∃ name, names.getLast? = some name ∧ extensionOf name ∈ extensions) ∧
      d.Exceeds ignored root names node failure := by
  rw [sourceFiles, hkept] at h
  obtain ⟨s, hs, hfailure⟩ := exists_of_failure_append h
  obtain ⟨root, hroot, rfl⟩ := List.mem_map.mp hs
  exact ⟨root, hroot, exceeds_of_sourceFilesBelow ht hfailure⟩

/-- A scan of roots that are there fails only at a directory. -/
theorem exceeds_of_scan (h : (scan d ignored roots).items = .error failure) :
    ∃ root ∈ kept, ∃ names, d.Exceeds ignored root names .directory failure := by
  obtain ⟨hitems, -⟩ | ⟨e, he, other, hkind, hlisting, hitems⟩ := scan_cases hkept ignored
  · cases h.symm.trans hitems
  · obtain rfl := Except.error.inj (h.symm.trans hitems)
    obtain ⟨hroot, hretains⟩ := (mem_retained_iff ht).mp he
    obtain ⟨node, hreaches, hnode⟩ := hretains.reaches ht
    obtain ⟨hlong, hfailure⟩ := listingFailure?_eq_some_iff.mp hlisting
    rw [hkind] at hnode
    cases node with
    | directory => exact ⟨e.root, hroot, e.names, ⟨e.top, hretains.top, hreaches⟩, hlong, hfailure⟩
    | file | link => cases hnode

end Items

/-- A search for source files below existing roots gives each path once. They are the paths of the
scanned regular files with one of the extensions: no others, and all that the system takes unless
the search fails. It fails only at a file or link with one of the extensions, and the scan at a
directory, whose path the system does not take. -/
theorem sourceFiles_agree {texts : List String} (ht : d.tree.WellFormed)
    (hdirs : ∀ text ∈ texts, ∃ place, d.directoryAt? (.parse text) = some place) :
    let search := sourceFiles d extensions ignored (texts.map .ofText)
    let found := scan d ignored (texts.map .ofText)
    search.files.Nodup ∧ (∀ items, found.items = .ok items → search.Agrees extensions items) ∧
      (∀ failure, search.failure? = some failure → ∃ text ∈ texts, ∃ names node, node ≠ .directory ∧
        (∃ name, names.getLast? = some name ∧ extensionOf name ∈ extensions) ∧
          d.Exceeds ignored (.parse text) names node failure) ∧
      ∀ failure, found.items = .error failure → ∃ text ∈ texts, ∃ names,
        d.Exceeds ignored (.parse text) names .directory failure := by
  have hnormal := isNormal_ofText texts
  obtain ⟨kept, hkept⟩ := exists_outermostRoots ht hdirs
  have hgiven : ∀ root ∈ kept, ∃ text ∈ texts, Path.parse text = root := by
    intro path hpath
    obtain ⟨⟨root, hroot, rfl⟩, -⟩ := mem_of_outermostRoots ht hnormal hkept hpath
    obtain ⟨text, htext, rfl⟩ := List.mem_map.mp hroot
    exact ⟨text, htext, rfl⟩
  refine ⟨nodup_sourceFiles ht hnormal hkept, fun items hitems => ?_, fun failure hfails => ?_,
    fun failure hfails => ?_⟩
  · obtain ⟨kept', hkept', rfl⟩ := scan_items hitems
    obtain rfl := Except.ok.inj (hkept.symm.trans hkept')
    exact agrees_sourceFiles ht hkept
  · obtain ⟨root, hroot, names, node, hexceeds⟩ := exceeds_of_sourceFiles ht hkept hfails
    obtain ⟨text, htext, rfl⟩ := hgiven root hroot
    exact ⟨text, htext, names, node, hexceeds⟩
  · obtain ⟨root, hroot, names, hexceeds⟩ := exceeds_of_scan ht hkept hfails
    obtain ⟨text, htext, rfl⟩ := hgiven root hroot
    exact ⟨text, htext, names, hexceeds⟩

end Source

theorem sourceFiles_agree_mixed :
    ∃ items, (scan (World.ofTree .mixed).disk ["dist"] ([".", "srcDir"].map .ofText)).items =
      .ok items ∧ items.length = 2 ∧
      (sourceFiles (World.ofTree .mixed).disk usualExtensions ["dist"]
        ([".", "srcDir"].map .ofText)).Agrees usualExtensions items := by
  obtain ⟨items, hitems, hlength⟩ : ∃ items,
      (scan (World.ofTree .mixed).disk ["dist"] ([".", "srcDir"].map .ofText)).items = .ok items ∧
        items.length = 2 := exists_ok_of_any (by decide +kernel)
  have hdirs : ∀ text ∈ [".", "srcDir"], ∃ place,
      (World.ofTree .mixed).disk.directoryAt? (.parse text) = some place := by
    simp only [List.forall_mem_cons]
    exact ⟨⟨[], by decide⟩, ⟨["srcDir"], by decide⟩, by simp⟩
  obtain ⟨-, hagrees, -⟩ :=
    @Source.sourceFiles_agree (World.ofTree .mixed).disk ["dist"] usualExtensions _
      (by decide : Tree.mixed.WellFormed) hdirs
  exact ⟨items, hitems, hlength, hagrees items hitems⟩

/-- A file, and a directory over which a path leads there and back. -/
def Tree.meandering : Tree := ⟨[(["fooBar.ts"], .file ⟨#[]⟩), (["x"], .directory)]⟩

theorem wellFormed_meandering : Tree.meandering.WellFormed := by decide

theorem directoryAt?_meandering :
    (World.ofTree .meandering).disk.directoryAt? (.winding 818) = some [] :=
  directoryAt?_winding wellFormed_meandering rfl (by decide) (by decide) (by decide)

theorem outermostRoots_meandering :
    outermostRoots (World.ofTree .meandering).disk [.ofText (Path.winding 818).toString] =
        .ok [.winding 818] := by
  rw [ofText_winding (by decide)]
  exact outermostRoots_winding wellFormed_meandering directoryAt?_meandering

/-- The system takes the path of the directory, but not that of the file. -/
theorem isTooLong_meandering :
    ((Path.winding 818).below ["x"]).route.isTooLong = false ∧
      ((Path.winding 818).below ["fooBar.ts"]).route.isTooLong = true := by
  rw [isTooLong_below_winding (by decide), isTooLong_below_winding (by decide)]
  decide

theorem retained_meandering : retained (World.ofTree .meandering).disk ignoredNames [.winding 818] =
    [⟨.winding 818, [], [], "fooBar.ts", .file⟩, ⟨.winding 818, [], [], "x", .directory⟩] := by
  have hentries : Tree.meandering.retainedBelow ignoredNames [] =
      [(["fooBar.ts"], .file ⟨#[]⟩), (["x"], .directory)] := by decide +kernel
  rw [retained_singleton directoryAt?_meandering, World.ofTree, hentries]
  rfl

theorem scan_meandering :
    (scan (World.ofTree .meandering).disk ignoredNames
      [.ofText (Path.winding 818).toString]).items =
      .ok ((retained (World.ofTree .meandering).disk ignoredNames [.winding 818]).map
          (·.item)) := by
  obtain ⟨hitems, -⟩ | ⟨e, he, failure, hkind, hlisting, -⟩ :=
    scan_cases outermostRoots_meandering ignoredNames
  · exact hitems
  · have hlong := (listingFailure?_eq_some_iff.mp hlisting).1
    rw [retained_meandering] at he
    simp only [List.mem_cons, List.not_mem_nil, or_false] at he
    rcases he with rfl | rfl
    · cases hkind
    · exact absurd hlong (by simp [Retained.names, isTooLong_meandering])

theorem sourceFilesBelow_meandering :
    sourceFilesBelow (World.ofTree .meandering).disk usualExtensions ignoredNames (.winding 818) =
      ⟨[], some (.system .nameTooLong ((Path.winding 818).below ["fooBar.ts"]).toString none)⟩ := by
  have hlisted : (Path.winding 818).canList [] = true :=
    Path.canList_of_isTooLong (by decide : "x" ≠ "") isTooLong_meandering.1
  have hbelow : Tree.meandering.below [] =
      [(["fooBar.ts"], .file ⟨#[]⟩), (["x"], .directory)] := by decide
  have htests : isRetained ignoredNames ["fooBar.ts"] = true ∧
      isCandidate usualExtensions ["fooBar.ts"] (.file ⟨#[]⟩) = true ∧
      isCandidate usualExtensions ["x"] .directory = false := by decide
  have hsorted : ∀ e : List String × Node, sortBy (fun a b => filesFirst a.1 b.1) [e] = [e] :=
    fun _ => rfl
  rw [sourceFilesBelow, directoryAt?_meandering]
  simp only [World.ofTree, hbelow, List.filter_cons, List.filter_nil, List.dropLast_singleton,
    htests, hlisted, Bool.and_true, Bool.and_false, if_true, Bool.false_eq_true, if_false, hsorted,
    searchEntries, isTooLong_meandering]

/-- The scan gives the file. The search fails at it, for the path by which it is found is too
long. -/
theorem sourceFiles_meandering :
    ∃ items, ∃ item ∈ items,
      (scan (World.ofTree .meandering).disk ignoredNames
        [.ofText (Path.winding 818).toString]).items = .ok items ∧
      item.IsSource usualExtensions ∧
      sourceFiles (World.ofTree .meandering).disk usualExtensions ignoredNames
          [.ofText (Path.winding 818).toString] =
        ⟨[], some (.system .nameTooLong item.site.toString none)⟩ := by
  have hmem : (⟨.winding 818, [], [], "fooBar.ts", .file⟩ : Retained) ∈
      retained (World.ofTree .meandering).disk ignoredNames [.winding 818] := by
    rw [retained_meandering]
    exact List.mem_cons_self
  have hvisible :=
    ((mem_retained_iff wellFormed_meandering).mp hmem).2.isVisible wellFormed_meandering
  refine ⟨_, _, List.mem_map_of_mem hmem, scan_meandering, ⟨rfl, ?_⟩, ?_⟩
  · rw [hvisible.item_name]
    decide
  · rw [hvisible.item_site, sourceFiles, outermostRoots_meandering]
    dsimp only [Retained.names, List.nil_append]
    rw [List.map_singleton, List.foldr_cons, sourceFilesBelow_meandering]
    rfl

end Recase
