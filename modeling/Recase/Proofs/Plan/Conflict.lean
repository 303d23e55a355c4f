import Recase.Proofs.Plan.Mistaken
import Recase.Proofs.Text.CaseFold

/-!
# Where conflicts come from

Conflicts are found by comparing whole paths. There are some if and only if, in some directory that
is scanned, two entries get the same name without regard to case.

* `Disk.IsScanned`: a directory of the trees that are scanned. `Disk.NamesDiffer`: the converted
  names of what is retained in a directory differ without regard to case.
* `eq_of_map_casefold`: where names differ in all directories, ways with the same foldings are one.
* `conflictsOf_eq_nil_iff`: so there are no conflicts if and only if they do.
* `Disk.IsPlanless`: why there is no plan; where there is one, there is no such reason
  (`not_isPlanless_of_preview`). `preview_conflicts`: all of it for a preview.
-/

namespace Recase

open Name Text Recase.Tree

/-- The converted name of an entry without regard to case. -/
def EntryKind.foldedName (kind : EntryKind) (name : String) : String := casefold (kind.convert name)

/-- A directory of the trees that are scanned, the roots among them. -/
def Disk.IsScanned (d : Disk) (ignored : List String) (kept : List Path) (directory : Place) :
    Prop :=
  ∃ root ∈ kept, ∃ above, directory = d.topAt root ++ above ∧ isRetained ignored above = true ∧
    d.tree.isDirectory directory = true

/-- The entry of a directory is retained, and of a kind. -/
structure Disk.RetainsIn (d : Disk) (ignored : List String) (directory : Place) (name : String)
    (kind : EntryKind) : Prop where
  node : ∃ node, d.tree.node? (directory ++ [name]) = some node ∧ node.kind? = some kind
  visible : isSkipped ignored name = false

/-- Without regard to case, the converted names of what is retained in the directory differ. -/
def Disk.NamesDiffer (d : Disk) (ignored : List String) (directory : Place) : Prop :=
  ∀ x y kind kind', d.RetainsIn ignored directory x kind → d.RetainsIn ignored directory y kind' →
    kind.foldedName x = kind'.foldedName y → x = y

variable {d : Disk} {ignored : List String} {kept : List Path} {e r : Retained} {root : Path}

/-! ## Retained entries of a directory -/

theorem Disk.Retains.directory_eq (h : d.Retains ignored e) :
    e.directory = d.topAt e.root ++ e.above := by
  rw [Disk.topAt_eq h.top]
  rfl

/-- The directory of a retained entry is one of those that are scanned. -/
theorem Disk.Retains.isScanned (h : d.Retains ignored e) (ht : d.tree.WellFormed)
    (hroot : e.root ∈ kept) :
    d.IsScanned ignored kept e.directory := by
  obtain ⟨node, hnode, -⟩ := h.node
  exact ⟨e.root, hroot, e.above, h.directory_eq, (isRetained_concat.mp h.visible).1,
    ht.isDirectory_of_concat hnode⟩

theorem Disk.Retains.retainsIn (h : d.Retains ignored e) :
    d.RetainsIn ignored e.directory e.name e.kind :=
  ⟨h.node, (isRetained_concat.mp h.visible).2⟩

/-- What is retained in a scanned directory is retained below the root. -/
theorem Disk.RetainsIn.mem_retained {above : List String} {name : String} {kind : EntryKind}
    (h : d.RetainsIn ignored (d.topAt root ++ above) name kind) (ht : d.tree.WellFormed)
    (hroot : root ∈ kept)
    (hdir : d.directoryAt? root = some (d.topAt root)) (habove : isRetained ignored above = true) :
    ⟨root, d.topAt root, above, name, kind⟩ ∈ retained d ignored kept :=
  (mem_retained_iff ht).mpr ⟨hroot, hdir, h.node, isRetained_concat.mpr ⟨habove, h.visible⟩⟩

/-- Retained entries whose converted paths are equal without regard to case have names that are. -/
theorem Disk.Retains.foldedNames_eq (h : d.Retains ignored e) (h' : d.Retains ignored r)
    (ht : d.tree.WellFormed)
    (hpath : casefold e.item.convertedPath = casefold r.item.convertedPath) :
    e.above.map EntryKind.directory.foldedName = r.above.map EntryKind.directory.foldedName ∧
      e.kind.foldedName e.name = r.kind.foldedName r.name := by
  have hslash :
      ∀ {e : Retained}, d.Retains ignored e → ∀ n ∈ e.newAbove ++ [e.newName], '/' ∉ n.toList :=
    fun hretains n hn =>
      ((hretains.isVisible ht).isPlain_newNames (hretains.isVisible ht).isPlain_newName n hn).slash
  have hfolded := map_casefold_eq_of_pathText (by simp) (by simp) (hslash h) (hslash h') hpath
  have hmap : ∀ e : Retained, (e.newAbove ++ [e.newName]).map casefold =
      e.above.map EntryKind.directory.foldedName ++ [e.kind.foldedName e.name] := by
    intro e
    rw [List.map_append, Retained.newAbove, List.map_map]
    rfl
  rw [hmap, hmap] at hfolded
  obtain ⟨habove, hname⟩ := List.append_inj' hfolded (by simp)
  exact ⟨habove, List.singleton_inj.mp hname⟩

/-! ## Paths and names -/

section Names

variable (h : d.HasRoots kept)
  (hdiffer : ∀ directory, d.IsScanned ignored kept directory → d.NamesDiffer ignored directory)
include h hdiffer

/-- Where names differ in all directories, ways to directories with the same foldings are one. -/
theorem eq_of_map_casefold (hroot : root ∈ kept) {above other : List String}
    (habove : isRetained ignored above = true) (hother : isRetained ignored other = true)
    (hdir : d.tree.isDirectory (d.topAt root ++ above) = true)
    (hdir' : d.tree.isDirectory (d.topAt root ++ other) = true)
    (heq : above.map EntryKind.directory.foldedName = other.map EntryKind.directory.foldedName) :
    above = other := by
  induction above using List.reverseRecOn generalizing other with
  | nil => exact (List.map_eq_nil_iff.mp heq.symm).symm
  | append_singleton above x ih =>
    rcases List.eq_nil_or_concat other with rfl | ⟨other, y, rfl⟩
    · exact absurd (List.map_eq_nil_iff.mp heq) (by simp)
    rw [List.concat_eq_append] at hother hdir' heq ⊢
    rw [List.map_append, List.map_append] at heq
    obtain ⟨hfront, hlast⟩ := List.append_inj' heq (by simp)
    obtain ⟨hvisible, hx⟩ := isRetained_concat.mp habove
    obtain ⟨hvisible', hy⟩ := isRetained_concat.mp hother
    rw [← List.append_assoc] at hdir hdir'
    -- the ways above are one, so that the last names are those of siblings
    have hparent := h.wellFormed.isDirectory_of_isDirectory_append hdir
    obtain rfl :=
      ih hvisible hvisible' hparent (h.wellFormed.isDirectory_of_isDirectory_append hdir') hfront
    have hsame := hdiffer _ ⟨root, hroot, above, rfl, hvisible, hparent⟩ x y .directory .directory
      ⟨⟨_, isDirectory_iff.mp hdir, rfl⟩, hx⟩ ⟨⟨_, isDirectory_iff.mp hdir', rfl⟩, hy⟩
      (List.singleton_inj.mp hlast)
    rw [hsame]

/-- Where names differ in all directories, retained entries with one destination are one. -/
theorem eq_of_destinationKey_of_namesDiffer (he : e ∈ retained d ignored kept)
    (hr : r ∈ retained d ignored kept) (hkey : e.item.destinationKey = r.item.destinationKey) :
    e = r := by
  have ht := h.wellFormed
  obtain ⟨hroot, hretains⟩ := (mem_retained_iff ht).mp he
  obtain ⟨hroot', hretains'⟩ := (mem_retained_iff ht).mp hr
  obtain ⟨htext, hpath⟩ := Prod.mk.inj hkey
  have hsame : e.root = r.root :=
    Path.toString_injective (h.isNormal _ hroot) (h.isNormal _ hroot') htext
  obtain ⟨habove, hname⟩ := hretains.foldedNames_eq hretains' ht hpath
  have hdirectory' : r.directory = d.topAt e.root ++ r.above := hsame ▸ hretains'.directory_eq
  obtain ⟨-, -, -, -, -, hdir⟩ := hretains.isScanned ht hroot
  obtain ⟨-, -, -, -, -, hdir'⟩ := hretains'.isScanned ht hroot'
  have hways : e.above = r.above := eq_of_map_casefold h hdiffer hroot
    (isRetained_concat.mp hretains.visible).1 (isRetained_concat.mp hretains'.visible).1
    (hretains.directory_eq ▸ hdir) (hdirectory' ▸ hdir') habove
  have hplaces : e.directory = r.directory := by rw [hretains.directory_eq, hdirectory', hways]
  have hnames : e.name = r.name :=
    hdiffer _ (hretains.isScanned ht hroot) _ _ _ _ hretains.retainsIn
      (hplaces ▸ hretains'.retainsIn) hname
  refine h.place_inj he hr ?_
  rw [Retained.place, Retained.place, hplaces, hnames]

/-- Where names differ in all directories there are no conflicts. -/
theorem conflictsOf_of_namesDiffer : conflictsOf ((retained d ignored kept).map (·.item)) = [] := by
  refine conflictsOf_of_pairwise (List.pairwise_map.mpr ?_)
  refine (retained_pairwise h.wellFormed h.areApart).imp_of_mem fun {a b} ha hb hab hkey => hab ?_
  rw [eq_of_destinationKey_of_namesDiffer h hdiffer ha hb hkey]

end Names

/-- There are no conflicts if and only if names differ in all directories. -/
theorem conflictsOf_eq_nil_iff (h : d.HasRoots kept)
    (hdirs : ∀ root ∈ kept, d.directoryAt? root = some (d.topAt root)) :
    conflictsOf ((retained d ignored kept).map (·.item)) = [] ↔
      ∀ directory, d.IsScanned ignored kept directory → d.NamesDiffer ignored directory := by
  refine ⟨fun hnone => ?_, conflictsOf_of_namesDiffer h⟩
  rintro _ ⟨root, hroot, above, rfl, habove, -⟩ x y kind kind' hx hy hfolded
  have hkey := eq_of_destinationKey hnone
    (hx.mem_retained h.wellFormed hroot (hdirs root hroot) habove)
    (hy.mem_retained h.wellFormed hroot (hdirs root hroot) habove) ?_
  · exact congrArg Retained.name hkey
  · have hpath : ∀ above name, casefold (pathText (above ++ [name])) =
        pathText (above.map casefold ++ [casefold name]) := by
      intro above name
      rw [casefold_pathText, List.map_append, List.map_singleton]
    refine Prod.ext rfl ((hpath _ _).trans (Eq.trans ?_ (hpath _ _).symm))
    exact congrArg (fun folded => pathText (_ ++ [folded])) hfolded

/-! ## Plans -/

/-- Why there is no plan of roots that exist. -/
inductive Disk.IsPlanless (d : Disk) (ignored : List String) (kept : List Path) : Failure → Prop
  /-- A directory that is retained cannot be listed. -/
  | unlisted {e : Retained} {failure : Failure} (he : e ∈ retained d ignored kept)
      (hkind : e.kind = .directory) (h : listingFailure? e.root e.names = some failure) :
      IsPlanless d ignored kept failure
  /-- An entry changes letter case alone, there is a line feed in its converted name, and the suffix
  of temporary names is not in its converted path. -/
  | mistaken {e : Retained} (he : e ∈ retained d ignored kept) (h : e.item.IsMistaken) :
      IsPlanless d ignored kept .missingSuffix

section Preview

variable {w : World} {roots : List Root} {failure : Failure} (ht : w.disk.tree.WellFormed)
  (htoken : ∀ n, IsToken (w.token n)) (hkept : outermostRoots w.disk roots = .ok kept)
include ht htoken hkept

/-- A preview that gives no plan says why there is none. -/
theorem isPlanless_of_preview (hplan : (preview w ignored roots).plan = .error failure) :
    w.disk.IsPlanless ignored kept failure := by
  obtain ⟨⟨items, hitems, item, hitem, hmistaken⟩, hmissing⟩ |
      ⟨-, ⟨plan, hok⟩ | ⟨listing, hscan, herror⟩⟩ := preview_cases ht htoken ignored roots
  · cases hplan.symm.trans hmissing
    obtain ⟨kept', hkept', rfl⟩ := scan_items hitems
    cases hkept.symm.trans hkept'
    obtain ⟨e, he, rfl⟩ := List.mem_map.mp hitem
    exact .mistaken he hmistaken
  · cases hplan.symm.trans hok
  · cases hplan.symm.trans herror
    obtain ⟨hitems, -⟩ | ⟨e, he, listing, hkind, hlisting, hitems⟩ := scan_cases hkept ignored
    · cases hscan.symm.trans hitems
    · cases hscan.symm.trans hitems
      exact .unlisted he hkind hlisting

/-- Where a preview gives a plan, nothing speaks against one. -/
theorem not_isPlanless_of_preview {plan : Plan}
    (hplan : (preview w ignored roots).plan = .ok plan) :
    ¬ w.disk.IsPlanless ignored kept failure := by
  obtain ⟨items, hitems⟩ := exists_items_of_preview hplan
  intro hplanless
  cases hplanless with
  | unlisted he hkind hlisting =>
    obtain ⟨-, hall⟩ | ⟨-, -, listing, -, -, herror⟩ := scan_cases hkept ignored
    · cases (hall _ he hkind).symm.trans hlisting
    · cases hitems.symm.trans herror
  | @mistaken e he hmistaken =>
    obtain ⟨-, hmissing⟩ | ⟨hnone, -⟩ := preview_cases ht htoken ignored roots
    · cases hplan.symm.trans hmissing
    · obtain ⟨kept', hkept', rfl⟩ := scan_items hitems
      cases hkept.symm.trans hkept'
      exact hnone ⟨_, hitems, e.item, List.mem_map_of_mem he, hmistaken⟩

end Preview

/-- The plan of existing roots has no conflicts if and only if, in every directory that is scanned,
the converted names of what is retained differ without regard to case. There is a plan unless a
directory cannot be listed or the second move of an entry is taken for the first. -/
theorem preview_conflicts {w : World} {texts : List String} (ht : w.disk.tree.WellFormed)
    (htoken : ∀ n, IsToken (w.token n))
    (hdirs : ∀ text ∈ texts, ∃ place, w.disk.directoryAt? (.parse text) = some place) :
    ∃ kept, outermostRoots w.disk (texts.map .ofText) = .ok kept ∧
      ((∃ plan, (preview w ignored (texts.map .ofText)).plan = .ok plan ∧
          (∀ failure, ¬ w.disk.IsPlanless ignored kept failure) ∧
          (plan.conflicts = [] ↔ ∀ directory, w.disk.IsScanned ignored kept directory →
            w.disk.NamesDiffer ignored directory)) ∨
        ∃ failure, (preview w ignored (texts.map .ofText)).plan = .error failure ∧
          w.disk.IsPlanless ignored kept failure) := by
  have hnormal := isNormal_ofText texts
  obtain ⟨kept, hkept⟩ := exists_outermostRoots ht hdirs
  have h := hasRoots_of_outermostRoots ht hnormal hkept
  refine ⟨kept, hkept, ?_⟩
  cases hplan : (preview w ignored (texts.map .ofText)).plan with
  | ok plan =>
    refine .inl ⟨plan, rfl, fun _ => not_isPlanless_of_preview ht htoken hkept hplan, ?_⟩
    obtain ⟨kept', hkept', hplanned⟩ := isPlanOf_of_preview ht hplan
    obtain rfl := Except.ok.inj (hkept'.symm.trans hkept)
    rw [hplanned.conflicts]
    exact conflictsOf_eq_nil_iff h fun root => directoryAt?_of_mem_outermostRoots ht hnormal hkept
  | error failure => exact .inr ⟨failure, rfl, isPlanless_of_preview ht htoken hkept hplan⟩

/-- Two directories that get one name, each with a file that gets the same name in it. -/
def Tree.clashing : Tree :=
  ⟨[(["lib"], .directory), (["lib", "FooBar"], .directory),
    (["lib", "FooBar", "X.ts"], .file .empty),
    (["lib", "fooBar"], .directory), (["lib", "fooBar", "x.ts"], .file .empty)]⟩

/-- Their conflicts, the files' one among them, show a directory in which two names clash. -/
theorem preview_conflicts_clashing :
    ∃ kept, outermostRoots (World.ofTree .clashing).disk (["."].map .ofText) = .ok kept ∧
      ∃ directory, (World.ofTree .clashing).disk.IsScanned [] kept directory ∧
        ¬ (World.ofTree .clashing).disk.NamesDiffer [] directory := by
  have hdirs : ∀ text ∈ ["."],
      ∃ place, (World.ofTree .clashing).disk.directoryAt? (.parse text) = some place := by
    intro text htext
    obtain rfl := List.mem_singleton.mp htext
    exact ⟨[], by decide⟩
  obtain ⟨plan, hplan, hconflicts⟩ : ∃ plan,
      (preview (.ofTree .clashing) [] (["."].map .ofText)).plan = .ok plan ∧
        plan.conflicts.length = 2 :=
    exists_ok_of_any (by decide +kernel)
  obtain ⟨kept, hkept, ⟨plan', hplan', -, hiff⟩ | ⟨failure, hfailure, -⟩⟩ :=
    @preview_conflicts [] (.ofTree .clashing) _ (by decide) isToken_tokenText hdirs
  · obtain rfl := Except.ok.inj (hplan.symm.trans hplan')
    have hsome : plan.conflicts ≠ [] := by
      intro hnone
      simp [hnone] at hconflicts
    obtain ⟨directory, hdirectory⟩ := not_forall.mp (mt hiff.mpr hsome)
    exact ⟨kept, hkept, directory, Classical.not_imp.mp hdirectory⟩
  · cases hplan.symm.trans hfailure

end Recase
