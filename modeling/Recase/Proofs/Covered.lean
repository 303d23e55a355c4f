import Recase.Proofs.Course
import Recase.Proofs.Run
import Recase.Proofs.Source.Files

/-!
# The files whose references are converted

Which of the scanned files the stage of the references comes to, once their names are converted.

* `HasRoots.along_names_of_all`: where an entry is once all turns have been had;
  `exists_of_retains`: what is retained then.
* `exists_of_isSource`, `isSource_of_retained`: the source files below a root are then the scanned
  ones that a walk still comes to.
* `Item.IsReached`: no name of the converted path is skipped, and its directory can be listed.
* `visited_of_run`: a run comes to the scanned source files that are reached, and to no others.
-/

namespace Recase

open Name Naming Recase.Tree Source

variable {d₀ d : Disk} {ignored extensions : List String} {kept : List Path} {e : Retained}

/-- The names after all turns. -/
def namesAfterAll (d : Disk) (ignored : List String) (kept : List Path) : Naming :=
  namesAfter (Retained.inOrder (retained d ignored kept))

theorem inOrder_eq_append (entries : List Retained) :
    Retained.inOrder entries = Retained.inOrder entries ++ [] := (List.append_nil _).symm

namespace Disk.HasRoots

variable (h : d₀.HasRoots kept)
include h

theorem relocate_top_of_all {root : Path} {top : Place} (hroot : root ∈ kept)
    (htop : d₀.directoryAt? root = some top) :
    (namesAfterAll d₀ ignored kept).relocate top = top :=
  h.relocate_top (inOrder_eq_append _) hroot htop

/-- Where a retained entry is after all turns. -/
theorem along_names_of_all (he : e ∈ retained d₀ ignored kept) :
    (namesAfterAll d₀ ignored kept).along e.top e.names = e.newAbove ++ [e.newName] := by
  obtain ⟨hroot, hretains⟩ := (mem_retained_iff h.wellFormed).mp he
  obtain ⟨node, hnode, -⟩ := hretains.node
  have hdone : ∀ r ∈ retained d₀ ignored kept, r.changes = true →
      r ∈ Retained.inOrder (retained d₀ ignored kept) :=
    fun r hr hchanges => Retained.mem_inOrder_iff.mpr ⟨hr, hchanges⟩
  have habove : (namesAfterAll d₀ ignored kept).relocate (e.top ++ e.above) = e.top ++ e.newAbove :=
    h.relocate_above (inOrder_eq_append _) hroot hretains.top
      (h.wellFormed.isDirectory_of_concat hnode) (isRetained_concat.mp hretains.visible).1
      fun r hr _ _ => hdone r hr
  have hname : namesAfterAll d₀ ignored kept e.place = e.newName :=
    h.namesAfter_of_done (inOrder_eq_append _) he (hdone e he)
  rw [relocate_append, h.relocate_top_of_all hroot hretains.top] at habove
  rw [Retained.names, along_append, List.append_cancel_left habove, along, along]
  exact congrArg (fun name => e.newAbove ++ [name]) hname

end Disk.HasRoots

/-! ## Retained entries under other names -/

/-- The entry once it and all above it have the names that they are given. -/
def Retained.renamed (e : Retained) (ν : Naming) : Retained :=
  ⟨e.root, e.top, ν.along e.top e.above, ν e.place, e.kind⟩

theorem Retained.names_renamed (e : Retained) (ν : Naming) :
    (e.renamed ν).names = ν.along e.top e.names := by
  rw [names, names, along_append]
  rfl

theorem Retained.place_renamed {ν : Naming} (h : ν.relocate e.top = e.top) :
    (e.renamed ν).place = ν.relocate e.place := by
  rw [place_eq, place_eq, relocate_append, h, e.names_renamed]
  rfl

/-- What is retained in the course of a plan was retained before. -/
theorem Disk.HasRoots.exists_of_retains (h : d₀.HasRoots kept) {front back : List Retained}
    {gone : List Place} {top : Place} {r : Retained}
    (horder : Retained.inOrder (retained d₀ ignored kept) = front ++ back)
    (hs : d₀.Stage (namesAfter front) gone d) (hroot : r.root ∈ kept)
    (htop : d₀.directoryAt? r.root = some top) (hr : d.Retains ignored r) :
    ∃ e ∈ retained d₀ ignored kept, r = e.renamed (namesAfter front) := by
  have hfixed : (namesAfter front).relocate top = top := h.relocate_top horder hroot htop
  have hdir := (Disk.directoryAt?_eq_some_iff.mp htop).2.2.2
  obtain rfl := hs.directoryAt?_eq h.wellFormed (h.isNormal _ hroot) htop hfixed hr.top
  obtain ⟨node, hnode, hkind⟩ := hr.node
  rw [r.place_eq] at hnode
  obtain ⟨sources, hnames, hthere⟩ := hs.exists_of_node?_append h.wellFormed hdir hfixed hnode
  rcases List.eq_nil_or_concat sources with rfl | ⟨above, name, rfl⟩
  · exact absurd hnames (by simp [Retained.names, along])
  rw [List.concat_eq_append] at hnames hthere
  have hvisible := hr.visible
  rw [hnames] at hvisible
  have hretained : ⟨r.root, r.top, above, name, r.kind⟩ ∈ retained d₀ ignored kept := by
    refine (mem_retained_iff h.wellFormed).mpr ⟨hroot, htop, ⟨node, ?_, hkind⟩, ?_⟩
    · rwa [Retained.place_eq]
    · exact h.isRetained_of_along horder hvisible
  refine ⟨_, hretained, ?_⟩
  rw [along_append] at hnames
  obtain ⟨habove, hname⟩ := List.append_inj' hnames rfl
  cases r
  rw [Retained.renamed, Retained.mk.injEq]
  exact ⟨rfl, rfl, habove, (List.cons.inj hname).1, rfl⟩

/-- The entry once it and all above it have their converted names. -/
def Retained.converted (e : Retained) : Retained := ⟨e.root, e.top, e.newAbove, e.newName, e.kind⟩

theorem extensionOf_newName (hfile : e.kind = .file) :
    extensionOf e.newName = extensionOf e.name := by
  have hnew : e.newName.toList = fileName e.name.toList := by
    rw [Retained.newName, EntryKind.toList_convert, hfile]
  rw [extensionOf, hnew, cutExtension_fileName, extensionOf]

section Sources

variable {root : Path} {top : Place} {names : List String} {gone : List Place}
  (h : d₀.HasRoots kept) (hs : d₀.Stage (namesAfterAll d₀ ignored kept) gone d)
include h hs

/-- What is retained once all turns have been had was retained before, and has its converted
names. -/
theorem exists_of_retains {r : Retained} (hroot : r.root ∈ kept)
    (htop : d₀.directoryAt? r.root = some top) (hr : d.Retains ignored r) :
    ∃ e ∈ retained d₀ ignored kept, r = e.converted := by
  obtain ⟨e, he, rfl⟩ := h.exists_of_retains (inOrder_eq_append _) hs hroot htop hr
  refine ⟨e, he, ?_⟩
  have hnames := h.along_names_of_all he
  rw [Retained.names, along_append] at hnames
  obtain ⟨habove, hname⟩ := List.append_inj' hnames rfl
  rw [Retained.renamed, Retained.converted, Retained.mk.injEq]
  exact ⟨rfl, rfl, habove, (List.cons.inj hname).1, rfl⟩

/-- A source file below a root is a scanned one. -/
theorem exists_of_isSource (hroot : root ∈ kept) (htop : d₀.directoryAt? root = some top)
    (hsource : d.IsSource extensions ignored root names) :
    ∃ e ∈ retained d₀ ignored kept, e.root = root ∧ e.kind = .file ∧
      extensionOf e.name ∈ extensions ∧ names = e.newAbove ++ [e.newName] := by
  obtain ⟨top', content, htop', hnode⟩ := hsource.node
  obtain ⟨newName, hlast, hextension⟩ := hsource.extension
  obtain ⟨newAbove, rfl⟩ := List.getLast?_eq_some_iff.mp hlast
  have hr : d.Retains ignored ⟨root, top', newAbove, newName, .file⟩ := by
    refine ⟨htop', ⟨.file content, ?_, rfl⟩, hsource.visible⟩
    rwa [Retained.place_eq]
  obtain ⟨e, he, heq⟩ := exists_of_retains h hs hroot htop hr
  obtain ⟨rfl, -, rfl, rfl, hkind⟩ := Retained.mk.inj heq
  refine ⟨e, he, rfl, hkind.symm, ?_, rfl⟩
  rwa [← extensionOf_newName hkind.symm]

/-- A scanned source file is one below its root, where no new name is skipped and its directory can
be listed. -/
theorem isSource_of_retained (he : e ∈ retained d₀ ignored kept) (hfile : e.kind = .file)
    (hextension : extensionOf e.name ∈ extensions) (htop : d.directoryAt? e.root = some top)
    (hvisible : isRetained ignored (e.newAbove ++ [e.newName]) = true)
    (hlisted : e.root.canList e.newAbove = true) :
    d.IsSource extensions ignored e.root (e.newAbove ++ [e.newName]) := by
  obtain ⟨hroot, hretains⟩ := (mem_retained_iff h.wellFormed).mp he
  have hfixed : (namesAfterAll d₀ ignored kept).relocate e.top = e.top :=
    h.relocate_top_of_all hroot hretains.top
  obtain rfl := hs.directoryAt?_eq h.wellFormed (h.isNormal _ hroot) hretains.top hfixed htop
  obtain ⟨node, hnode, hkind⟩ := hretains.node
  refine ⟨?_, hvisible, ⟨e.newName, by simp, by rwa [extensionOf_newName hfile]⟩,
    by simpa using hlisted⟩
  rw [hfile] at hkind
  cases node with
  | directory | link target => cases hkind
  | file content =>
    have hthere := hs.node?_relocate h.wellFormed hnode
      (hs.arranged.not_gone_of_ne_link h.wellFormed hnode (by simp))
    rw [e.place_eq, relocate_append, hfixed, h.along_names_of_all he] at hthere
    exact ⟨e.top, content, htop, hthere⟩

/-- The roots are still apart, as long as all lead anywhere. -/
theorem outermostRoots_of_stage
    (hall : ∀ root ∈ kept, ∃ top, d₀.directoryAt? root = some top) {found : List Path}
    (hfound : outermostRoots d (kept.map .ofPath) = .ok found) : found = kept := by
  have ht := hs.wellFormed h.wellFormed
  have hnormal : ∀ r ∈ kept.map Root.ofPath, r.path.IsNormal := by
    simpa [Root.ofPath] using h.isNormal
  have hall' := ((outermostRoots_eq_ok_iff ht hnormal).mp hfound).1
  have hplaces : ∀ root ∈ kept, ∃ top, d.directoryAt? root = some top :=
    fun root hroot => hall' (.ofPath root) (List.mem_map_of_mem hroot)
  have htops : ∀ root ∈ kept, d.topAt root = d₀.topAt root := by
    intro root hroot
    obtain ⟨top, htop⟩ := hall root hroot
    obtain ⟨top', htop'⟩ := hplaces root hroot
    have hfixed : (namesAfterAll d₀ ignored kept).relocate top = top :=
      h.relocate_top_of_all hroot htop
    obtain rfl := hs.directoryAt?_eq h.wellFormed (h.isNormal _ hroot) htop hfixed htop'
    rw [Disk.topAt_eq htop, Disk.topAt_eq htop']
  rw [outermostRoots_of_topAt ht h.isNormal hplaces htops h.areApart] at hfound
  exact (Except.ok.inj hfound).symm

end Sources

/-! ## Items -/

namespace Item

/-- The path that the item has once it is converted. -/
def convertedSite (item : Item) : Path := item.root.joinText item.convertedPath

/-- A file with one of the extensions. -/
def IsSource (extensions : List String) (item : Item) : Prop :=
  item.kind = .file ∧ extensionOf item.name ∈ extensions

instance (extensions : List String) (item : Item) : Decidable (item.IsSource extensions) :=
  inferInstanceAs (Decidable (_ ∧ _))

/-- No name of the converted path is skipped, and its directory can be listed. -/
def IsReached (ignored : List String) (item : Item) : Prop :=
  isRetained ignored (PathText.segments item.convertedPath) = true ∧
    item.root.canList (PathText.segments item.convertedPath).dropLast = true

end Item

namespace Retained.IsVisible

variable (h : e.IsVisible)
include h

theorem item_convertedSite : e.item.convertedSite = e.root.below (e.newAbove ++ [e.newName]) :=
  Path.joinText_pathText _ (h.isPlain_newNames h.isPlain_newName)

theorem item_isReached_iff : e.item.IsReached ignored ↔
    isRetained ignored (e.newAbove ++ [e.newName]) = true ∧ e.root.canList e.newAbove = true := by
  rw [Item.IsReached, h.segments_convertedPath, List.dropLast_concat]
  rfl

end Retained.IsVisible

/-- The stage of the references comes to scanned source files that are reached, and to all of them
unless its search ends with a failure. -/
theorem visited_of_run {o : Options} {texts : List String} {w s : World} {plan : Plan}
    (ht : w.disk.tree.WellFormed) (htoken : ∀ n, IsToken (w.token n))
    (hreaches : ReachesUpdate o (texts.map .ofText) w kept plan s) :
    (∃ reports r, run o (texts.map .ofText) w = .after reports (updateStage o kept r s)) ∧
      ∃ items, (scan w.disk o.ignored (kept.map .ofPath)).items = .ok items ∧
        let visited := sourceFiles s.disk o.extensions o.ignored (kept.map .ofPath)
        (∀ path ∈ visited.files, ∃ item ∈ items, item.IsSource o.extensions ∧
          item.IsReached o.ignored ∧ path = item.convertedSite) ∧
        (visited.failure? = none → ∀ item ∈ items, item.IsSource o.extensions →
          item.IsReached o.ignored → item.convertedSite ∈ visited.files) := by
  refine ⟨run_of_reachesUpdate hreaches, ?_⟩
  have hnormal := isNormal_ofText texts
  obtain ⟨standing, hadmitted, -⟩ := hreaches.admitted
  have hroots := outermostRoots_of_admission hadmitted
  have h := hasRoots_of_outermostRoots ht hnormal hroots
  have hall : ∀ root ∈ kept, ∃ top, w.disk.directoryAt? root = some top :=
    fun root hroot => ⟨_, directoryAt?_of_mem_outermostRoots ht hnormal hroots hroot⟩
  have hagain := outermostRoots_ofPath ht h.isNormal hall h.areApart
  obtain ⟨items, hitems⟩ := exists_items_of_preview hreaches.planned
  obtain ⟨kept', hkept', rfl⟩ := scan_items hitems
  obtain rfl : kept' = kept := Except.ok.inj (hkept'.symm.trans hagain)
  obtain ⟨kept'', hkept'', hplanned⟩ := isPlanOf_of_preview ht hreaches.planned
  obtain rfl : kept'' = kept' := Except.ok.inj (hkept''.symm.trans hagain)
  have hperformed := (execute_of_none hreaches.done).disk.1
  rw [← hreaches.world] at hperformed
  obtain ⟨gone, hs⟩ := hplanned.moves.stage_end h htoken hperformed
  have hvisible : ∀ e ∈ retained w.disk o.ignored kept'', e.IsVisible :=
    fun e he => ((mem_retained_iff ht).mp he).2.isVisible ht
  have ht' := hs.wellFormed ht
  obtain ⟨found, hfound⟩ | ⟨hnil, hfails⟩ :=
    outermostRoots_cases s.disk o.extensions o.ignored (kept''.map .ofPath)
  · obtain rfl := outermostRoots_of_stage h hs hall hfound
    refine ⟨_, hitems, fun path hpath => ?_, fun hnone item hitem hsource hreached => ?_⟩
    · obtain ⟨root, hroot, names, hsource, rfl⟩ := isSource_of_mem_sourceFiles ht' hfound hpath
      obtain ⟨top, htop⟩ := hall root hroot
      obtain ⟨e, he, rfl, hfile, hextension, rfl⟩ := exists_of_isSource h hs hroot htop hsource
      refine ⟨e.item, List.mem_map_of_mem he, ⟨hfile, by rwa [(hvisible e he).item_name]⟩, ?_,
        (hvisible e he).item_convertedSite.symm⟩
      exact (hvisible e he).item_isReached_iff.mpr ⟨hsource.visible, by simpa using hsource.listed⟩
    · obtain ⟨e, he, rfl⟩ := List.mem_map.mp hitem
      obtain ⟨hfile, hextension⟩ := hsource
      obtain ⟨hretained, hlisted⟩ := (hvisible e he).item_isReached_iff.mp hreached
      have hroot := ((mem_retained_iff ht).mp he).1
      have hnormal' : ∀ r ∈ found.map Root.ofPath, r.path.IsNormal := by
        simpa [Root.ofPath] using h.isNormal
      obtain ⟨top, htop⟩ := ((outermostRoots_eq_ok_iff ht' hnormal').mp hfound).1 (.ofPath e.root)
        (List.mem_map_of_mem hroot)
      rw [(hvisible e he).item_name] at hextension
      rw [(hvisible e he).item_convertedSite]
      exact mem_sourceFiles ht' hfound hnone hroot
        (isSource_of_retained h hs he hfile hextension htop hretained hlisted)
  · refine ⟨_, hitems, fun path hpath => ?_, fun hnone => absurd hnone hfails⟩
    rw [hnil] at hpath
    cases hpath

/-- A directory whose converted name is skipped, with a source file in it, and another source
file. -/
def Tree.hiding : Tree :=
  ⟨[(["Dist"], .directory), (["Dist", "FooBar.ts"], .file "import App from '../MainApp'".toUTF8),
    (["MainApp.ts"], .file "".toUTF8)]⟩

def Options.hiding : Options := .default (World.ofTree .hiding).disk

/-- The item of the source file in the directory. -/
def Item.hidden : Item := ⟨"Dist/FooBar.ts", "dist/foo-bar.ts", .file, true, ⟨.relative, []⟩⟩

theorem reachesUpdate_hiding :
    ∃ plan s, ReachesUpdate .hiding (["."].map .ofText) (.ofTree .hiding) [⟨.relative, []⟩] plan s ∧
      sourceFiles s.disk Options.hiding.extensions Options.hiding.ignored
        ([⟨.relative, []⟩].map .ofPath) = ⟨[⟨.relative, ["main-app.ts"]⟩], none⟩ := by
  obtain ⟨plan, hplan, hconflicts, hitems, hdone, hsources⟩ : ∃ plan,
      (preview (.ofTree .hiding) Options.hiding.ignored ([⟨.relative, []⟩].map .ofPath)).plan =
        .ok plan ∧ plan.conflicts = [] ∧ plan.items ≠ [] ∧
        (execute (World.mover false) none plan.moves (.ofTree .hiding)).failure? = none ∧
        sourceFiles (execute (World.mover false) none plan.moves (.ofTree .hiding)).state.disk
          Options.hiding.extensions Options.hiding.ignored ([⟨.relative, []⟩].map .ofPath) =
            ⟨[⟨.relative, ["main-app.ts"]⟩], none⟩ :=
    exists_ok_of_any (by decide +kernel)
  have hdrawn : { World.ofTree .hiding with drawn := (preview (.ofTree .hiding)
      Options.hiding.ignored ([⟨.relative, []⟩].map .ofPath)).drawn } = World.ofTree .hiding := by
    have hnone : (preview (.ofTree .hiding) Options.hiding.ignored
      ([⟨.relative, []⟩].map .ofPath)).drawn = 0 := by decide +kernel
    rw [hnone]
    rfl
  refine ⟨plan, _, ⟨⟨.unversioned, by decide, rfl⟩, hplan, hconflicts, hitems, rfl, ?_, rfl⟩,
    ?_⟩
  · rwa [hdrawn]
  · rwa [hdrawn]

/-- The run does not come to a source file that it has renamed. -/
theorem run_hiding :
    ∃ plan s items,
      ReachesUpdate .hiding (["."].map .ofText) (.ofTree .hiding) [⟨.relative, []⟩] plan s ∧
      (scan (World.ofTree .hiding).disk Options.hiding.ignored
        ([⟨.relative, []⟩].map .ofPath)).items = .ok items ∧ Item.hidden ∈ items ∧
      Item.hidden.IsSource Options.hiding.extensions ∧
      Item.hidden.convertedSite ∉ (sourceFiles s.disk Options.hiding.extensions
        Options.hiding.ignored ([⟨.relative, []⟩].map .ofPath)).files := by
  obtain ⟨plan, s, hreaches, hsources⟩ := reachesUpdate_hiding
  obtain ⟨items, hitems, hmem⟩ : ∃ items, (scan (World.ofTree .hiding).disk Options.hiding.ignored
      ([⟨.relative, []⟩].map .ofPath)).items = .ok items ∧ Item.hidden ∈ items :=
    exists_ok_of_any (by decide +kernel)
  refine ⟨plan, s, items, hreaches, hitems, hmem, by decide, ?_⟩
  rw [hsources]
  decide

theorem visited_of_run_hiding :
    ∃ s items, (scan (World.ofTree .hiding).disk Options.hiding.ignored
        ([⟨.relative, []⟩].map .ofPath)).items = .ok items ∧
      ∀ item ∈ items, item.IsSource Options.hiding.extensions →
        item.IsReached Options.hiding.ignored →
        item.convertedSite ∈ (sourceFiles s Options.hiding.extensions Options.hiding.ignored
          ([⟨.relative, []⟩].map .ofPath)).files := by
  obtain ⟨plan, s, hreaches, hsources⟩ := reachesUpdate_hiding
  obtain ⟨-, items, hitems, -, hall⟩ :=
    visited_of_run (w := .ofTree .hiding) (by decide) isToken_tokenText hreaches
  exact ⟨s.disk, items, hitems, hall (congrArg (·.failure?) hsources)⟩

end Recase
