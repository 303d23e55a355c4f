import Mathlib.Data.List.Nodup
import Recase.Proofs.Course

/-!
# Roots within roots

A scan passes over a root that lies in another one. What it finds below the outer root is what a
scan of the inner root alone finds, as long as the walk from the outer root comes to the inner one.

* `Item.placeOn`: where the entry of an item is. `Item.seenFrom`: the item of the same entry below a
  root further out.
* `Disk.IsWay`: the names that lead from the outermost of some roots to one of them.
* `filter_retained_eq`: what is retained at the place of an entry, once the roots are put together.
* `scan_texts`: a scan of several roots gives the entries of each of them once if no name on the way
  to it is skipped, and not at all otherwise. `scan_nesting`: the second case.
-/

namespace Recase

open Name Recase.Tree

/-- The place of the entry of an item. -/
def Item.placeOn (item : Item) (d : Disk) : Place :=
  d.topAt item.root ++ PathText.segments item.path

/-- The item of the same entry below a root from which the names lead to that of the item. -/
def Item.seenFrom (item : Item) (outer : Path) (way : List String) : Item :=
  { item with
    path := pathText (way ++ PathText.segments item.path)
    convertedPath :=
      pathText (way.map EntryKind.directory.convert ++ PathText.segments item.convertedPath)
    root := outer }

/-- The names lead from the outermost of the roots that texts name to the one that a text names. -/
structure Disk.IsWay (d : Disk) (texts : List String) (outer text : String) (way : List String) :
    Prop where
  mem : outer ∈ texts
  outermost : ∀ other ∈ texts, d.topAt (.parse other) <+: d.topAt (.parse outer) →
    d.topAt (.parse other) = d.topAt (.parse outer)
  leads : d.topAt (.parse text) = d.topAt (.parse outer) ++ way

namespace Retained

/-- The entry as it is retained below a root further out. -/
def seenFrom (e : Retained) (outer : Path) (top : Place) (way : List String) : Retained :=
  ⟨outer, top, way ++ e.above, e.name, e.kind⟩

variable {d : Disk} {ignored : List String} {kept : List Path} {e : Retained}
  {outer : Path} {top : Place} {way : List String}

theorem names_seenFrom : (e.seenFrom outer top way).names = way ++ e.names := by
  simp [names, seenFrom]

theorem place_seenFrom (h : e.top = top ++ way) : (e.seenFrom outer top way).place = e.place := by
  rw [place_eq, place_eq, names_seenFrom, h, List.append_assoc]
  rfl

theorem IsVisible.item_seenFrom (h : e.IsVisible) :
    (e.seenFrom outer top way).item = e.item.seenFrom outer way := by
  rw [Item.seenFrom, h.segments_path, h.segments_convertedPath, item, names_seenFrom]
  simp [item, newAbove, newName, seenFrom]

end Retained

section Retains

variable {d : Disk} {ignored : List String} {kept : List Path} {e : Retained} {outer : Path}
  {way : List String}

theorem Disk.Retains.placeOn_item (h : d.Retains ignored e) (ht : d.tree.WellFormed) :
    e.item.placeOn d = e.place := by
  rw [Item.placeOn, (h.isVisible ht).segments_path, e.place_eq, ← Disk.topAt_eq h.top]
  rfl

/-- An entry is retained below a root further out if no name on the way between the roots is
skipped. -/
theorem Disk.Retains.seenFrom_iff (h : d.Retains ignored e)
    (houter : d.directoryAt? outer = some (d.topAt outer)) (hway : e.top = d.topAt outer ++ way) :
    d.Retains ignored (e.seenFrom outer (d.topAt outer) way) ↔ isRetained ignored way = true := by
  have hvisible := h.visible
  constructor
  · intro hseen
    have hall := hseen.visible
    rw [Retained.names_seenFrom, isRetained, List.all_append, Bool.and_eq_true] at hall
    exact hall.1
  · intro hretained
    refine ⟨houter, ?_, ?_⟩
    · rw [Retained.place_seenFrom hway]
      exact h.node
    · rw [isRetained] at hretained hvisible
      rw [Retained.names_seenFrom, isRetained, List.all_append, hretained, hvisible, Bool.and_self]

/-- What is retained at the place of an entry that is retained below a root within a kept one. -/
theorem filter_retained_eq (h : d.Retains ignored e) (hroots : d.HasRoots kept)
    (hmem : outer ∈ kept) (houter : d.directoryAt? outer = some (d.topAt outer))
    (hway : e.top = d.topAt outer ++ way) :
    ((retained d ignored kept).filter fun r => decide (r.place = e.place)) =
      if isRetained ignored way then [e.seenFrom outer (d.topAt outer) way] else [] := by
  have ht := hroots.wellFormed
  split
  · rename_i hretained
    have hseen : e.seenFrom outer (d.topAt outer) way ∈ retained d ignored kept :=
      (mem_retained_iff ht).mpr ⟨hmem, (h.seenFrom_iff houter hway).mpr hretained⟩
    have hsame : ∀ r ∈ retained d ignored kept,
        decide (r.place = e.place) = (r == e.seenFrom outer (d.topAt outer) way) := by
      intro r hr
      have hplace : (e.seenFrom outer (d.topAt outer) way).place = e.place :=
        Retained.place_seenFrom hway
      rw [← hplace, Bool.eq_iff_iff, decide_eq_true_iff, beq_iff_eq]
      exact ⟨hroots.place_inj hr hseen, congrArg Retained.place⟩
    have hnodup : (retained d ignored kept).Nodup :=
      (retained_pairwise ht hroots.areApart).imp fun hab heq => hab (congrArg Retained.place heq)
    rw [List.filter_congr hsame, List.filter_beq, List.count_eq_one_of_mem hnodup hseen]
    rfl
  · rename_i hskipped
    refine List.filter_eq_nil_iff.mpr fun r hr hplace => hskipped ?_
    obtain ⟨hroot, hretains⟩ := (mem_retained_iff ht).mp hr
    have hplace : r.place = e.place := of_decide_eq_true hplace
    rw [r.place_eq, e.place_eq, hway, List.append_assoc, ← Disk.topAt_eq hretains.top] at hplace
    -- The places of both roots are on the way to the entry, so it is the same root.
    have hsame : r.root = outer := hroots.areApart.eq_of_prefix_of_prefix hroot hmem
      (List.prefix_append _ _) (hplace.symm ▸ List.prefix_append _ _)
    rw [hsame, List.append_cancel_left_eq] at hplace
    have hall := hretains.visible
    rw [hplace, isRetained, List.all_append, Bool.and_eq_true] at hall
    exact hall.1

end Retains

/-! ## Scans of several roots -/

section Scans

variable {d : Disk} {ignored texts : List String} {kept : List Path} {text : String}
  {failure : Failure} {items : List Item}

theorem scan_singleton (ht : d.tree.WellFormed) {place : Place}
    (hdir : d.directoryAt? (.parse text) = some place) :
    (scan d ignored [.ofText text]).items = (scanRoot d ignored (.parse text)).items := by
  have hkept : outermostRoots d [.ofText text] = .ok [.parse text] :=
    (outermostRoots_singleton ht (Path.isNormal_parse text)).mpr ⟨rfl, place, hdir⟩
  rw [scan, hkept]
  change ((scanRoot d ignored (.parse text)).append .empty).items = _
  unfold Scan.append
  split
  · rfl
  · rename_i hitems
    simp [hitems, Scan.empty, Except.map]

/-- A scan of roots one after the other fails as that of one of them. -/
theorem exists_scanRoot_of_error
    (h : ((kept.map (scanRoot d ignored)).foldr Scan.append .empty).items = .error failure) :
    ∃ root ∈ kept, (scanRoot d ignored root).items = .error failure := by
  induction kept with
  | nil => cases h
  | cons root rest ih =>
    rw [List.map_cons, List.foldr_cons, Scan.append] at h
    split at h
    · exact ⟨root, List.mem_cons_self, h⟩
    · cases hrest : ((rest.map (scanRoot d ignored)).foldr Scan.append .empty).items with
      | error other =>
        rw [hrest] at h
        cases h
        obtain ⟨root', hroot', hitems⟩ := ih hrest
        exact ⟨root', List.mem_cons_of_mem _ hroot', hitems⟩
      | ok more =>
        rw [hrest] at h
        cases h

/-- A scan of existing roots fails only as the scan of one of them alone. If it does not, it gives
each entry that the scan of one of them alone gives once if no name on the way to that root is
skipped, and not at all otherwise. -/
theorem scan_texts (ht : d.tree.WellFormed)
    (hdirs : ∀ text ∈ texts, ∃ place, d.directoryAt? (.parse text) = some place) :
    (∃ text ∈ texts, ∃ failure, (scan d ignored [.ofText text]).items = .error failure ∧
        (scan d ignored (texts.map .ofText)).items = .error failure) ∨
      ∃ items, (scan d ignored (texts.map .ofText)).items = .ok items ∧
        ∀ text ∈ texts, ∃ outer way, d.IsWay texts outer text way ∧
          ∀ alone, (scan d ignored [.ofText text]).items = .ok alone → ∀ item ∈ alone,
            (items.filter fun other => decide (other.placeOn d = item.placeOn d)) =
              if isRetained ignored way then [item.seenFrom (.parse outer) way] else [] := by
  have hnormal := isNormal_ofText texts
  obtain ⟨kept, hkept⟩ := exists_outermostRoots ht hdirs
  have hmem : ∀ path ∈ kept, ∃ text ∈ texts, Path.parse text = path ∧
      ∀ other ∈ texts, d.topAt (.parse other) <+: d.topAt path →
          d.topAt (.parse other) = d.topAt path := by
    intro path hpath
    obtain ⟨⟨root, hroot, rfl⟩, houtermost⟩ := mem_of_outermostRoots ht hnormal hkept hpath
    obtain ⟨text, htext, rfl⟩ := List.mem_map.mp hroot
    exact ⟨text, htext, rfl, fun other hother => houtermost (.ofText other)
      (List.mem_map_of_mem hother)⟩
  cases hscan : (scan d ignored (texts.map .ofText)).items with
  | error failure =>
    left
    rw [scan, hkept] at hscan
    obtain ⟨root, hroot, hfails⟩ := exists_scanRoot_of_error hscan
    obtain ⟨text, htext, rfl, -⟩ := hmem root hroot
    obtain ⟨place, hplace⟩ := hdirs text htext
    exact ⟨text, htext, failure, (scan_singleton ht hplace).trans hfails, rfl⟩
  | ok items =>
    refine .inr ⟨items, rfl, fun text htext => ?_⟩
    obtain ⟨path, hpath, way, hway⟩ :=
      exists_of_outermostRoots ht hnormal hkept (List.mem_map_of_mem htext)
    obtain ⟨outer, houter, rfl, houtermost⟩ := hmem path hpath
    refine ⟨outer, way, ⟨houter, houtermost, hway.symm⟩, fun alone halone item hitem => ?_⟩
    obtain ⟨kept', hkept', rfl⟩ := scan_items hscan
    obtain rfl : kept' = kept := Except.ok.inj (hkept'.symm.trans hkept)
    obtain ⟨place, hplace⟩ := hdirs text htext
    rw [scan_singleton ht hplace] at halone
    obtain ⟨e, he, rfl⟩ := List.mem_map.mp (scanRoot_items halone ▸ hitem)
    obtain ⟨hroot, hretains⟩ := (mem_retainedBelow_iff ht).mp he
    have hplaces : ∀ r ∈ retained d ignored kept',
        decide (r.item.placeOn d = e.item.placeOn d) = decide (r.place = e.place) := by
      intro r hr
      rw [((mem_retained_iff ht).mp hr).2.placeOn_item ht, hretains.placeOn_item ht]
    have htop : e.top = d.topAt (.parse outer) ++ way := by
      rw [← Disk.topAt_eq hretains.top, hroot]
      exact hway.symm
    rw [List.filter_map, Function.comp_def, List.filter_congr hplaces,
      filter_retained_eq hretains (hasRoots_of_outermostRoots ht hnormal hkept) hpath
        (directoryAt?_of_mem_outermostRoots ht hnormal hkept hpath) htop]
    split
    · rw [List.map_singleton, (hretains.isVisible ht).item_seenFrom]
    · rfl

end Scans

/-- A directory whose name is skipped, with a file in it, beside one that is not. -/
def Tree.nesting : Tree :=
  ⟨[(["dist"], .directory), (["dist", "fooBar.ts"], .file ⟨#[]⟩), (["src"], .directory),
    (["src", "mainApp.ts"], .file ⟨#[]⟩)]⟩

/-- The file in it, found below the directory. -/
def Item.nested : Item := ⟨"fooBar.ts", "foo-bar.ts", .file, true, ⟨.relative, ["dist"]⟩⟩

/-- The other file, found below its directory. -/
def Item.nestedApp : Item := ⟨"mainApp.ts", "main-app.ts", .file, true, ⟨.relative, ["src"]⟩⟩

/-- A scan of a directory alone gives what is in it. One of it and of the directory above does
not. -/
theorem scan_nesting :
    (scan (World.ofTree .nesting).disk ["dist"] [.ofText "dist"]).items = .ok [.nested] ∧
      ∃ items, (scan (World.ofTree .nesting).disk ["dist"] ([".", "dist"].map .ofText)).items =
        .ok items ∧ ∀ other ∈ items, other.placeOn (World.ofTree .nesting).disk ≠
          Item.nested.placeOn (World.ofTree .nesting).disk := by
  exact ⟨by decide, exists_ok_of_any (by decide +kernel)⟩

theorem eq_of_isWay_nesting {text outer : String} {way : List String}
    (h : (World.ofTree .nesting).disk.IsWay ["src", ".", "dist"] outer text way) :
    outer = "." ∧ way = (World.ofTree .nesting).disk.topAt (.parse text) := by
  have htop : (World.ofTree .nesting).disk.topAt (.parse ".") = [] := by decide
  have houter := h.outermost "." (by simp) (htop ▸ List.nil_prefix)
  have hleads := h.leads
  rw [← houter, htop, List.nil_append] at hleads
  refine ⟨?_, hleads.symm⟩
  have hmem := h.mem
  simp only [List.mem_cons, List.not_mem_nil, or_false] at hmem
  rcases hmem with rfl | rfl | rfl
  · exact absurd houter (by decide)
  · rfl
  · exact absurd houter (by decide)

theorem scan_texts_nesting :
    ∃ items, (scan (World.ofTree .nesting).disk ["dist"] (["src", ".", "dist"].map .ofText)).items =
        .ok items ∧
      (items.filter fun other => decide (other.placeOn (World.ofTree .nesting).disk =
        Item.nestedApp.placeOn (World.ofTree .nesting).disk)) =
          [Item.nestedApp.seenFrom (.parse ".") ["src"]] ∧
      (items.filter fun other => decide (other.placeOn (World.ofTree .nesting).disk =
        Item.nested.placeOn (World.ofTree .nesting).disk)) = [] := by
  have hdirs : ∀ text ∈ ["src", ".", "dist"],
      ∃ place, (World.ofTree .nesting).disk.directoryAt? (.parse text) = some place := by
    intro text htext
    simp only [List.mem_cons, List.not_mem_nil, or_false] at htext
    rcases htext with rfl | rfl | rfl
    · exact ⟨["src"], by decide⟩
    · exact ⟨[], by decide⟩
    · exact ⟨["dist"], by decide⟩
  have hsrc :
      (scan (World.ofTree .nesting).disk ["dist"] [.ofText "src"]).items = .ok [.nestedApp] := by
    decide
  have hdist :
      (scan (World.ofTree .nesting).disk ["dist"] [.ofText "dist"]).items = .ok [.nested] := by
    decide
  obtain ⟨all, hall, -⟩ : ∃ items,
      (scan (World.ofTree .nesting).disk ["dist"] (["src", ".", "dist"].map .ofText)).items =
        .ok items ∧ items.length = 2 := exists_ok_of_any (by decide +kernel)
  obtain ⟨text, -, failure, -, hfails⟩ | ⟨items, hitems, hgiven⟩ :=
    @scan_texts (World.ofTree .nesting).disk ["dist"] _ (by decide : Tree.nesting.WellFormed) hdirs
  · cases hall.symm.trans hfails
  · refine ⟨items, hitems, ?_, ?_⟩
    · obtain ⟨outer, way, hway, hfound⟩ := hgiven "src" (by simp)
      obtain ⟨rfl, rfl⟩ := eq_of_isWay_nesting hway
      rw [hfound _ hsrc _ (by simp)]
      decide
    · obtain ⟨outer, way, hway, hfound⟩ := hgiven "dist" (by simp)
      obtain ⟨rfl, rfl⟩ := eq_of_isWay_nesting hway
      rw [hfound _ hdist _ (by simp)]
      decide

end Recase
