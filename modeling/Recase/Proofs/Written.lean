import Recase.Proofs.Source.Conversion
import Recase.Proofs.Untouched

/-!
# What updating source files writes

* `Disk.Reaches`: a search for source files comes to the file at a place.
* `Source.sourceFiles_pairwise`: no two of the paths that it gives lead to one place.
* `World.Treats`: what becomes of a file by what it holds and by what may be opened.
  `Source.updateFile_treats`: so it is with one file. `Source.updateFiles_treats`: so it is with
  each of several that are at places of their own.
* `SameShape.sourceFiles_eq`: a search finds the same files afterwards, so
  `Source.node?_updateFiles_sourceFiles` says what every file holds by whether the search comes to
  it.
-/

namespace Recase

open Recase.Tree Source

/-- A search for source files comes to the file at a place. -/
def Disk.Reaches (d : Disk) (extensions ignored : List String) (roots : List Root) (place : Place) :
    Prop :=
  ∃ path ∈ (sourceFiles d extensions ignored roots).files, d.find path.route .follow =
    .ok (.entry place)

variable {d d' : Disk} {w : World} {extensions ignored names : List String} {kept files : List Path}
  {root path : Path} {place : Place} {content : ByteArray} {text : String}

/-- The text that bytes encode is encoded by them. -/
theorem Text.toUTF8_of_decodeUtf8 (h : decodeUtf8 content = .ok text) : text.toUTF8 = content := by
  unfold decodeUtf8 String.fromUTF8? at h
  split at h
  · rename_i found hfound
    split at hfound
    · cases hfound
      cases h
      rfl
    · cases hfound
  · cases h

/-! ## The search on disks of one shape -/

theorem Tree.below_emptied (t : Tree) (top : Place) :
    t.emptied.below top = (t.below top).map fun e => (e.1, e.2.emptied) := by
  rw [below_eq_filterMap, below_eq_filterMap, emptied, List.filterMap_map, List.map_filterMap]
  congr 1
  funext e
  rw [Function.comp_apply]
  cases top.isPrefixOf? e.1 with
  | none => rfl
  | some names => by_cases hnames : names = [] <;> simp [hnames]

theorem Source.isCandidate_emptied (extensions names : List String) (node : Node) :
    isCandidate extensions names node.emptied = isCandidate extensions names node := by
  cases node <;> rfl

theorem Source.searchEntries_emptied (root : Path) (entries : List (List String × Node)) :
    searchEntries root (entries.map fun e => (e.1, e.2.emptied)) = searchEntries root entries := by
  induction entries with
  | nil => rfl
  | cons e rest ih =>
    have hkind : e.2.emptied.kind? = e.2.kind? := by cases e.2 <;> rfl
    rw [List.map_cons, searchEntries, searchEntries, hkind, ih]

namespace Disk.SameShape

variable (h : d.SameShape d')
include h

/-- The same source files are found below a root. -/
theorem sourceFilesBelow_eq (extensions ignored : List String) (root : Path) :
    sourceFilesBelow d extensions ignored root = sourceFilesBelow d' extensions ignored root := by
  have htop : d.directoryAt? root = d'.directoryAt? root :=
    Option.ext fun _ => ⟨h.directoryAt?_eq, h.symm.directoryAt?_eq⟩
  -- only the kinds of entries are looked at
  have hemptied :
      ∀ (t : Tree) (top : Place), searchEntries root (sortBy (fun a b => filesFirst a.1 b.1)
      ((t.below top).filter fun e => isRetained ignored e.1 && isCandidate extensions e.1 e.2 &&
        root.canList e.1.dropLast)) =
      searchEntries root (sortBy (fun a b => filesFirst a.1 b.1)
          ((t.emptied.below top).filter fun e =>
        isRetained ignored e.1 && isCandidate extensions e.1 e.2 &&
            root.canList e.1.dropLast)) := by
    intro t top
    rw [below_emptied, List.filter_map, sortBy_map, searchEntries_emptied]
    simp only [Function.comp_def, isCandidate_emptied]
  unfold sourceFilesBelow
  rw [htop]
  cases d'.directoryAt? root with
  | none => rfl
  | some top => exact (hemptied d.tree top).trans (h.tree ▸ (hemptied d'.tree top).symm)

/-- The same source files are found below roots that are kept on both disks. -/
theorem sourceFiles_eq {roots : List Root} (hkept : outermostRoots d roots = .ok kept)
    (hkept' : outermostRoots d' roots = .ok kept) :
    sourceFiles d extensions ignored roots = sourceFiles d' extensions ignored roots := by
  have hbelow : sourceFilesBelow d extensions ignored = sourceFilesBelow d' extensions ignored :=
    funext fun root => h.sourceFilesBelow_eq extensions ignored root
  rw [sourceFiles, sourceFiles, hkept, hkept', hbelow]

/-- A search comes to the same places. -/
theorem reaches_iff {roots : List Root} (hkept : outermostRoots d roots = .ok kept)
    (hkept' : outermostRoots d' roots = .ok kept) :
    d.Reaches extensions ignored roots place ↔ d'.Reaches extensions ignored roots place := by
  unfold Reaches
  simp only [h.sourceFiles_eq hkept hkept', h.find_eq]

end Disk.SameShape

namespace Source

/-! ## The files that are found -/

theorem files_searchEntries_sublist (root : Path) (entries : List (List String × Node)) :
    (searchEntries root entries).files.Sublist (entries.map fun e => root.below e.1) := by
  induction entries with
  | nil => exact .slnil
  | cons e rest ih =>
    rw [searchEntries, List.map_cons]
    split
    · exact List.nil_sublist _
    · split
      · exact ih.cons_cons _
      · exact ih.cons _

theorem files_append_sublist (searches : List Search) :
    (searches.foldr Search.append .empty).files.Sublist (searches.flatMap (·.files)) := by
  induction searches with
  | nil => exact .slnil
  | cons s rest ih =>
    rw [List.foldr_cons, Search.append, List.flatMap_cons]
    split
    · exact List.sublist_append_left _ _
    · exact (List.Sublist.refl _).append ih

/-- The two paths do not lead to one place. -/
def LeadApart (d : Disk) (a b : Path) : Prop :=
  ∀ place, d.find a.route .follow = .ok (.entry place) → d.find b.route .follow ≠ .ok (.entry place)

section

variable (ht : d.tree.WellFormed)
include ht

/-- Source files below roots that lie in no other are told apart by their places. -/
theorem eq_of_find {other : Path} {names' : List String} (h : d.HasRoots kept) (hroot : root ∈ kept)
    (hother : other ∈ kept) (hsource : d.IsSource extensions ignored root names)
    (hsource' : d.IsSource extensions ignored other names')
    (hfind : d.find (root.below names).route .follow = .ok (.entry place))
    (hfind' : d.find (other.below names').route .follow = .ok (.entry place)) :
    root = other ∧ names = names' := by
  obtain ⟨top, htop, rfl⟩ := hsource.eq_of_find ht (h.isNormal _ hroot) hfind
  obtain ⟨top', htop', hplace⟩ := hsource'.eq_of_find ht (h.isNormal _ hother) hfind'
  have hup : d.topAt root <+: top ++ names := Disk.topAt_eq htop ▸ List.prefix_append _ _
  have hup' : d.topAt other <+: top ++ names :=
    Disk.topAt_eq htop' ▸ hplace ▸ List.prefix_append _ _
  obtain rfl := h.areApart.eq_of_prefix_of_prefix hroot hother hup hup'
  obtain rfl := Option.some.inj (htop.symm.trans htop')
  exact ⟨rfl, List.append_cancel_left hplace⟩

/-- A search below one root finds no file twice. -/
theorem nodup_sourceFilesBelow : (sourceFilesBelow d extensions ignored root).files.Nodup := by
  unfold sourceFilesBelow
  split
  · exact .nil
  rename_i top htop
  refine List.Nodup.sublist (files_searchEntries_sublist _ _) ?_
  rw [List.Nodup, List.pairwise_map]
  refine (((below_pairwise ht top).filter _).perm (sortBy_perm _ _).symm fun h => Ne.symm h).imp ?_
  exact fun {a b} hne heq => hne (List.append_cancel_left (Path.mk.inj heq).2)

/-- No two of the files that a search finds below roots are at one place. -/
theorem sourceFiles_pairwise (h : d.HasRoots kept)
    (hkept : outermostRoots d (kept.map .ofPath) = .ok kept) :
    (sourceFiles d extensions ignored (kept.map .ofPath)).files.Pairwise (LeadApart d) := by
  rw [sourceFiles, hkept]
  refine List.Pairwise.sublist (files_append_sublist _) ?_
  rw [List.flatMap_map, List.pairwise_flatMap]
  constructor
  · intro root hroot
    refine (nodup_sourceFilesBelow ht).imp_of_mem fun {a b} ha hb hne place hfind hfind' => hne ?_
    obtain ⟨names, hsource, rfl⟩ := isSource_of_mem_sourceFilesBelow ht ha
    obtain ⟨names', hsource', rfl⟩ := isSource_of_mem_sourceFilesBelow ht hb
    rw [(eq_of_find ht h hroot hroot hsource hsource' hfind hfind').2]
  · refine h.areApart.imp_of_mem
      fun {root other} hroot hother hapart a ha b hb place hfind hfind' => ?_
    obtain ⟨names, hsource, rfl⟩ := isSource_of_mem_sourceFilesBelow ht ha
    obtain ⟨names', hsource', rfl⟩ := isSource_of_mem_sourceFilesBelow ht hb
    obtain ⟨rfl, -⟩ := eq_of_find ht h hroot hother hsource hsource' hfind hfind'
    exact hapart.1 List.prefix_rfl

end

/-! ## The files that are written -/

/-- What none of the paths leads to is left alone. -/
theorem node?_updateFiles_of_ne (ht : w.disk.tree.WellFormed)
    (h : ∀ path ∈ files, w.disk.find path.route .follow ≠ .ok (.entry place)) :
    (updateFiles w files).2.disk.tree.node? place = w.disk.tree.node? place := by
  obtain ⟨made, hmade, hplaces⟩ := updateFiles_becomes ht files
  rw [hmade.tree, node?_of_wrote]
  intro change hchange
  obtain ⟨path, hpath, other, written, hfind, hwrote⟩ := hplaces change hchange
  refine ⟨other, written, ?_, hwrote⟩
  rintro rfl
  exact h path hpath hfind

theorem LeadApart.symm {other : Path} (h : LeadApart d path other) : LeadApart d other path :=
  fun place hfind hother => h place hother hfind

theorem LeadApart.of_sameShape {other : Path} (h : LeadApart d path other)
    (hshape : d.SameShape d') :
    LeadApart d' path other := by
  intro place hfind
  rw [← hshape.find_eq] at hfind ⊢
  exact h place hfind

/-- Files that can be read, and of which no two are at one place, have paths of their own. -/
theorem nodup_of_leadApart (ht : d.tree.WellFormed) (hpair : files.Pairwise (LeadApart d))
    (hread : ∀ path ∈ files, ∃ content, d.read path = .ok content) : files.Nodup := by
  refine hpair.imp_of_mem fun {a b} ha _ hapart heq => ?_
  obtain ⟨content, hcontent⟩ := hread a ha
  obtain ⟨place, hfind, -⟩ := (Disk.read_eq_ok_iff ht).mp hcontent
  exact hapart place hfind (heq ▸ hfind)

/-- A file to which none of the paths leads is left alone. -/
theorem read_updateFiles_of_apart (ht : w.disk.tree.WellFormed)
    (h : ∀ other ∈ files, LeadApart w.disk path other) (hread : w.disk.read path = .ok content) :
    (updateFiles w files).2.disk.read path = .ok content := by
  obtain ⟨place, hfind, hfile⟩ := (Disk.read_eq_ok_iff ht).mp hread
  obtain ⟨hshape, -⟩ := updateFiles_sameShape ht files
  refine Disk.read_of_find ((hshape.find_eq _ _).symm.trans hfind) ?_
  rw [node?_updateFiles_of_ne ht fun other hother => h other hother place hfind, hfile]

theorem read_updateFile_of_apart {first : Path} (ht : w.disk.tree.WellFormed)
    (h : LeadApart w.disk path first) (hread : w.disk.read path = .ok content) :
    (updateFile w first).2.disk.read path = .ok content := by
  have hsingle : (updateFiles w [first]).2.disk.read path = .ok content :=
    read_updateFiles_of_apart ht (List.forall_mem_singleton.mpr h) hread
  exact hsingle

end Source

/-- What becomes of a file with the content, and what it holds afterwards. -/
inductive World.Treats (w : World) (path : Path) (content : ByteArray) : Update → ByteArray → Prop
  | unreadable (hdenied : path.toString ∈ w.unreadable) :
    Treats w path content (cannotRead (refusalText .permissionDenied path)) content
  | undecodable {fault : Text.Utf8Fault} (hreadable : path.toString ∉ w.unreadable)
      (hfault : Text.decodeUtf8 content = .error fault) :
      Treats w path content (cannotRead fault.message) content
  | unchanged {text : String} (hreadable : path.toString ∉ w.unreadable)
      (htext : Text.decodeUtf8 content = .ok text)
      (hsame : (convertText text).1 = text) : Treats w path content .unchanged content
  | unwritable {text : String} (hreadable : path.toString ∉ w.unreadable)
      (htext : Text.decodeUtf8 content = .ok text)
      (hother : (convertText text).1 ≠ text) (hdenied : path.toString ∈ w.unwritable) :
      Treats w path content (cannotWrite (refusalText .permissionDenied path)) content
  | updated {text : String} (hreadable : path.toString ∉ w.unreadable)
      (htext : Text.decodeUtf8 content = .ok text)
      (hother : (convertText text).1 ≠ text) (hwritable : path.toString ∉ w.unwritable) :
      Treats w path content (.updated (convertText text).2) (convertText text).1.toUTF8

namespace World.Treats

variable {update update' : Update} {after after' : ByteArray}

/-- The content, and what may be opened, decide what becomes of a file. -/
theorem unique (h : w.Treats path content update after)
    (h' : w.Treats path content update' after') :
    update = update' ∧ after = after' := by
  -- two ways differ in whether a test holds, or in what the content decodes to
  cases h <;> cases h' <;> grind

/-- Nothing else on the disk has a part in it. -/
theorem of_disk (h : { w with disk := d }.Treats path content update after) :
    w.Treats path content update after := by
  cases h with
  | unreadable hdenied => exact .unreadable hdenied
  | undecodable hreadable hfault => exact .undecodable hreadable hfault
  | unchanged hreadable htext hsame => exact .unchanged hreadable htext hsame
  | unwritable hreadable htext hother hdenied => exact .unwritable hreadable htext hother hdenied
  | updated hreadable htext hother hwritable => exact .updated hreadable htext hother hwritable

/-- A file that may be opened, and holds a text, holds the converted text afterwards. -/
theorem after_eq (h : w.Treats path content update after) (hreadable : w.unreadable = [])
    (hwritable : w.unwritable = []) (htext : Text.decodeUtf8 content = .ok text) :
    after = (convertText text).1.toUTF8 := by
  cases h with
  | unreadable hdenied => simp [hreadable] at hdenied
  | undecodable _ hfault => cases htext.symm.trans hfault
  | unchanged _ htext' hsame =>
    cases htext.symm.trans htext'
    rw [hsame, Text.toUTF8_of_decodeUtf8 htext]
  | unwritable _ _ _ hdenied => simp [hwritable] at hdenied
  | updated _ htext' =>
    cases htext.symm.trans htext'
    rfl

end World.Treats

namespace Source

/-- What becomes of a file that can be read. -/
theorem updateFile_treats (ht : w.disk.tree.WellFormed) (hread : w.disk.read path = .ok content) :
    ∃ after, w.Treats path content (updateFile w path).1 after ∧
        (updateFile w path).2.disk.read path = .ok after := by
  obtain ⟨place, hfind, hfile, hwrite⟩ := Disk.find_of_read ht hread
  unfold updateFile
  split
  · exact ⟨content, .unreadable (List.contains_iff_mem.mp ‹_›), hread⟩
  rename_i hreadable
  rw [List.contains_iff_mem] at hreadable
  rw [hread]
  dsimp only
  split
  · rename_i hfault
    exact ⟨content, .undecodable hreadable hfault, hread⟩
  rename_i text htext
  -- the changes are counted, and none are counted just if the text is its own conversion
  have hnone : (convertText text).2 = 0 ↔ (convertText text).1 = text :=
    (convertText_isConversion text).eq_zero_iff.trans String.toList_inj
  by_cases hsame : (convertText text).1 = text
  · rw [if_pos (hnone.mpr hsame)]
    exact ⟨content, .unchanged hreadable htext hsame, hread⟩
  rw [if_neg (mt hnone.mp hsame)]
  unfold writeBack
  split
  · exact ⟨content, .unwritable hreadable htext hsame (List.contains_iff_mem.mp ‹_›), hread⟩
  rename_i hwritable
  rw [List.contains_iff_mem] at hwritable
  rw [hwrite]
  refine ⟨_, .updated hreadable htext hsame hwritable, Disk.read_of_find ?_ (node?_put_self hfile)⟩
  have hshape : w.disk.SameShape (w.disk.commit (.wrote place (convertText text).1.toUTF8)) :=
    ⟨rfl, sameShape_put ht hfile _⟩
  exact (hshape.find_eq _ _).symm.trans hfind

/-- The same becomes of it when other files have been written before. -/
theorem updateFile_eq_of_read {w' : World} (ht : w.disk.tree.WellFormed)
    (hshape : w.disk.SameShape w'.disk) (hworld : w' = { w with disk := w'.disk })
    (hread : w.disk.read path = .ok content)
    (hread' : w'.disk.read path = .ok content) :
    (updateFile w' path).1 = (updateFile w path).1 := by
  obtain ⟨after, htreats, -⟩ := updateFile_treats ht hread
  obtain ⟨after', htreats', -⟩ := updateFile_treats (hshape.tree.wellFormed ht) hread'
  rw [hworld] at htreats'
  rw [hworld]
  exact (htreats'.of_disk.unique htreats).1

/-- What becomes of one of several files, of which no two are at one place, is what becomes of it
alone. -/
theorem updateFiles_treats (ht : w.disk.tree.WellFormed) (hpair : files.Pairwise (LeadApart w.disk))
    (hpath : path ∈ files) (hread : w.disk.read path = .ok content) :
    ∃ after, w.Treats path content (updateFile w path).1 after ∧
      (updateFiles w files).2.disk.read path = .ok after := by
  induction files generalizing w with
  | nil => cases hpath
  | cons first rest ih =>
    obtain ⟨hapart, hpair'⟩ := List.pairwise_cons.mp hpair
    obtain ⟨hshape, hworld⟩ := updateFile_sameShape ht first
    have ht' := hshape.tree.wellFormed ht
    rw [world_updateFiles_cons]
    rcases List.mem_cons.mp hpath with rfl | hrest
    · -- none of the others leads to it
      obtain ⟨after, htreats, hafter⟩ := updateFile_treats ht hread
      exact ⟨after, htreats, read_updateFiles_of_apart ht'
        (fun other hother => (hapart other hother).of_sameShape hshape) hafter⟩
    · have hread' : (updateFile w first).2.disk.read path = .ok content :=
        read_updateFile_of_apart ht (hapart path hrest).symm hread
      obtain ⟨after, htreats, hafter⟩ :=
        ih ht' (hpair'.imp fun hab => hab.of_sameShape hshape) hrest hread'
      rw [updateFile_eq_of_read ht hshape hworld hread hread', hworld] at htreats
      exact ⟨after, htreats.of_disk, hafter⟩

/-- Once the source files below roots are updated, a file to which a search comes holds its
converted text, and one to which it does not come holds what it held. -/
theorem node?_updateFiles_sourceFiles (ht : w.disk.tree.WellFormed) (hreadable : w.unreadable = [])
    (hwritable : w.unwritable = []) (extensions ignored : List String) (h : w.disk.HasRoots kept)
    (hkept : outermostRoots w.disk (kept.map .ofPath) = .ok kept)
    (hfile : w.disk.tree.node? place = some (.file content))
    (htext : Text.decodeUtf8 content = .ok text) :
    let after :=
      (updateFiles w (sourceFiles w.disk extensions ignored (kept.map .ofPath)).files).2.disk
    (after.Reaches extensions ignored (kept.map .ofPath) place →
        after.tree.node? place = some (.file (convertText text).1.toUTF8)) ∧
      (¬ after.Reaches extensions ignored (kept.map .ofPath) place →
        after.tree.node? place = some (.file content)) := by
  intro after
  obtain ⟨hshape, -⟩ := updateFiles_sameShape ht
    (sourceFiles w.disk extensions ignored (kept.map .ofPath)).files
  rw [← hshape.reaches_iff hkept (hshape.outermostRoots_eq ht h.isNormal hkept)]
  refine ⟨fun ⟨path, hpath, hfind⟩ => ?_, fun hnot => ?_⟩
  · obtain ⟨converted, htreats, hread⟩ :=
      updateFiles_treats ht (sourceFiles_pairwise ht h hkept) hpath (Disk.read_of_find hfind hfile)
    obtain ⟨other, hother, hnode⟩ := (Disk.read_eq_ok_iff (hshape.tree.wellFormed ht)).mp hread
    rw [← hshape.find_eq, hfind] at hother
    cases hother
    rw [hnode, htreats.after_eq hreadable hwritable htext]
  · exact (node?_updateFiles_of_ne ht fun path hpath hfind => hnot ⟨path, hpath, hfind⟩).trans hfile

end Source

end Recase
