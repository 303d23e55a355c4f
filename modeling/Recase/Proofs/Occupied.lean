import Recase.Proofs.Course

/-!
# What is in the way of a move

What has the name that an entry is to get, when its turn comes.

* `Retained.IsSiblingOf`: entries of one directory. `isLeftOut_or_exists_sibling`: what else is in
  the directory of a retained entry is left out by the scan, or is a retained sibling.
* `eq_newName_of_occupied`: in a plan without conflicts, only what is left out can have the
  converted name of an entry when its turn comes, and it had that name all along.
* `eq_or_exists_of_occupied`: what can have some other name. `isTooLong_temporarySite`: why
  something that had the temporary name of an entry all along was not found.
* `occupied_destination`: at the destination of a move that is the converted path of an item, there
  is only what is left out, unless the move takes another item to its temporary name.
-/

namespace Recase

open Name Naming Recase.Tree

/-- Entries of one directory below one root. -/
structure Retained.IsSiblingOf (r e : Retained) : Prop where
  root : r.root = e.root
  top : r.top = e.top
  above : r.above = e.above

theorem Retained.IsSiblingOf.directory {r e : Retained} (h : r.IsSiblingOf e) :
    r.directory = e.directory := by
  rw [Retained.directory, h.top, h.above, Retained.directory]

/-- Whether a scan leaves out what has a name: a link, or what has a skipped name. -/
def Node.IsLeftOut (ignored : List String) (name : String) (node : Node) : Prop :=
  node.kind? = none ∨ isSkipped ignored name = true

variable {d₀ d : Disk} {ignored : List String} {kept : List Path} {front back : List Retained}
  {e r : Retained} {source : String} {found : Node}

section Siblings

variable (h : d₀.HasRoots kept) (hfound : d₀.tree.node? (e.directory ++ [source]) = some found)
include h hfound

/-- What is in the directory of a retained entry is left out by the scan, or is a retained
sibling. -/
theorem isLeftOut_or_exists_sibling (he : e ∈ retained d₀ ignored kept) :
    found.IsLeftOut ignored source ∨
      ∃ r ∈ retained d₀ ignored kept, r.IsSiblingOf e ∧ r.name = source := by
  by_cases hleft : found.IsLeftOut ignored source
  · exact .inl hleft
  right
  simp only [Node.IsLeftOut, not_or, Bool.not_eq_true] at hleft
  obtain ⟨kind, hkind⟩ := Option.ne_none_iff_exists'.mp hleft.1
  obtain ⟨hroot, hretains⟩ := (mem_retained_iff h.wellFormed).mp he
  refine ⟨⟨e.root, e.top, e.above, source, kind⟩, ?_, ⟨rfl, rfl, rfl⟩, rfl⟩
  refine (mem_retained_iff h.wellFormed).mpr ⟨hroot, hretains.top, ⟨found, hfound, hkind⟩, ?_⟩
  exact isRetained_concat.mpr ⟨(isRetained_concat.mp hretains.visible).1, hleft.2⟩

/-- What is left out has its own name. -/
theorem namesAfter_of_isLeftOut (hleft : found.IsLeftOut ignored source)
    (hfront : ∀ r ∈ front, r ∈ retained d₀ ignored kept) :
    namesAfter front (e.directory ++ [source]) = source := by
  rw [namesAfter_of_forall_ne, own_concat]
  intro r hr heq
  obtain ⟨-, hretains⟩ := (mem_retained_iff h.wellFormed).mp (hfront r hr)
  obtain ⟨node, hnode, hkind⟩ := hretains.node
  have hname : r.name = source := by simpa using (List.append_inj' heq rfl).2
  rw [heq, hfound] at hnode
  cases hnode
  rcases hleft with hnone | hskip
  · rw [hnone] at hkind
    cases hkind
  · rw [← hname, (isRetained_concat.mp hretains.visible).2] at hskip
    cases hskip

end Siblings

section Occupied

variable (h : d₀.HasRoots kept)
  (horder : Retained.inOrder (retained d₀ ignored kept) = front ++ e :: back)
include h horder

omit h in
/-- The converted name of an entry whose turn it is is not the name of a retained entry that still
needs another. -/
theorem name_ne_of_waiting (hr : r ∈ retained d₀ ignored kept) (hchanges : r.changes = true)
    (hfront : r ∉ front) : r.name ≠ e.newName := by
  intro hname
  refine Retained.changes_iff.mp hchanges ?_
  rw [Retained.newName, hname]
  cases hkind : e.kind with
  | directory =>
    rw [Retained.newName, hkind, EntryKind.convert_convert_directory]
  | file =>
    cases hkind' : r.kind with
    | directory => exact absurd (mem_front_of_file horder hkind hr hkind' hchanges) hfront
    | file =>
      rw [Retained.newName, hkind]
      exact EntryKind.convert_convert _ _

variable (hfound : d₀.tree.node? (e.directory ++ [source]) = some found)
include hfound

/-- What else is in the directory of an entry whose turn it is: what is left out, with its own name;
a retained entry that has its converted name; or one that has its own name yet and needs another. -/
theorem sibling_cases :
    (found.IsLeftOut ignored source ∧ namesAfter front (e.directory ++ [source]) = source) ∨
      ∃ r ∈ retained d₀ ignored kept, r.IsSiblingOf e ∧ r.name = source ∧
        (namesAfter front (e.directory ++ [source]) = r.newName ∨
          namesAfter front (e.directory ++ [source]) = source ∧ r.changes = true ∧ r ∉ front) := by
  obtain hleft | ⟨r, hr, hsibling, rfl⟩ :=
    isLeftOut_or_exists_sibling h hfound (mem_of_inOrder horder).1
  · exact .inl ⟨hleft, namesAfter_of_isLeftOut h hfound hleft fun r hr =>
      (Disk.HasRoots.mem_retained_of_front horder hr).1⟩
  · refine .inr ⟨r, hr, hsibling, rfl, ?_⟩
    rw [← hsibling.directory]
    by_cases hdone : r.changes = true → r ∈ front
    · exact .inl (h.namesAfter_of_done horder hr hdone)
    · simp only [Classical.not_imp] at hdone
      exact .inr ⟨h.namesAfter_of_not_mem horder hr hdone.2, hdone⟩

/-- What has the converted name of an entry when its turn comes is left out, and had that name. -/
theorem eq_newName_of_occupied
    (hconflicts : conflictsOf ((retained d₀ ignored kept).map (·.item)) = [])
    (hne : source ≠ e.name)
    (hname : namesAfter front (e.directory ++ [source]) = e.newName) :
    source = e.newName ∧ found.IsLeftOut ignored source := by
  obtain ⟨hleft, hown⟩ | ⟨r, hr, hsibling, rfl, hnew | ⟨hown, hchanges, hfront⟩⟩ :=
    sibling_cases h horder hfound
  · exact ⟨hown.symm.trans hname, hleft⟩
  · have hsame := newName_inj_of_conflictsOf hconflicts hr (mem_of_inOrder horder).1 hsibling.root
      hsibling.above (hnew.symm.trans hname)
    exact absurd (congrArg Retained.name hsame) hne
  · exact absurd (hown.symm.trans hname) (name_ne_of_waiting horder hr hchanges hfront)

/-- What has some other name when the turn of an entry comes had that name, or has it as its
converted name. -/
theorem eq_or_exists_of_occupied {name : String}
    (hname : namesAfter front (e.directory ++ [source]) = name) :
    source = name ∨ ∃ r ∈ retained d₀ ignored kept, r.IsSiblingOf e ∧ r.newName = name := by
  obtain ⟨-, hown⟩ | ⟨r, hr, hsibling, rfl, hnew | ⟨hown, -⟩⟩ := sibling_cases h horder hfound
  · exact .inl (hown.symm.trans hname)
  · exact .inr ⟨r, hr, hsibling, hnew.symm.trans hname⟩
  · exact .inl (hown.symm.trans hname)

end Occupied

/-- What has another name than the entry whose turn it is has got it there. -/
theorem exists_of_occupied {x y : String} {gone : List Place}
    (hs : d₀.Stage (Function.update (namesAfter front) e.place x) gone d)
    (hdue : e.IsDue d₀ (Function.update (namesAfter front) e.place x)) (ht : d₀.tree.WellFormed)
    (hxy : x ≠ y) (hthere : d.tree.node? (e.top ++ e.newAbove ++ [y]) ≠ none) :
    ∃ source found, source ≠ e.name ∧ d₀.tree.node? (e.directory ++ [source]) = some found ∧
      namesAfter front (e.directory ++ [source]) = y := by
  obtain ⟨found, hthere⟩ := Option.ne_none_iff_exists'.mp hthere
  rw [← hdue.directory] at hthere
  obtain ⟨source, hname, hfound, -⟩ := hdue.exists_of_node? hs ht hthere
  have hne : source ≠ e.name := by
    rintro rfl
    exact hxy (hname.trans (Function.update_self _ _ _)).symm
  refine ⟨source, found, hne, hfound, ?_⟩
  rw [hname, Function.update_of_ne]
  simpa [Retained.place] using hne

/-- What has a temporary name that was found free was not found because the text of its path is too
long. -/
theorem isTooLong_temporarySite (ht : d₀.tree.WellFormed) (hroot : e.root.IsNormal)
    (htop : d₀.directoryAt? e.root = some e.top) (hvisible : e.IsVisible)
    (hthere : d₀.tree.node? (e.directory ++ [e.newName ++ temporarySuffix]) = some found)
    (hfree : d₀.hasEntry e.item.temporarySite.route = false) :
    e.item.temporarySite.route.isTooLong = true := by
  rw [hvisible.item_temporarySite] at hfree ⊢
  have hplain := hvisible.isPlain_temporary
  have henters : d₀.Enters e.root e.above e.directory :=
    Disk.enters_below ht hroot htop (ht.isDirectory_of_concat hthere)
  have hnul : (e.root.below (e.above ++ [e.newName ++ temporarySuffix])).route.hasNul = false := by
    refine Path.hasNul_below (Disk.directoryAt?_eq_some_iff.mp htop).1 (by simp) fun n hn => ?_
    rcases List.mem_append.mp hn with hn | hn
    · exact hvisible.isPlain_above n hn
    · rwa [List.mem_singleton.mp hn]
  by_contra hshort
  rw [Bool.not_eq_true] at hshort
  have hsize := ht.size_le hthere (List.mem_append_right _ List.mem_cons_self)
  rw [(henters.hasEntry_eq ht hplain.isName hnul hshort).mpr ⟨hsize, by simp [hthere]⟩] at hfree
  cases hfree

/-- Where no name has a hyphen in it, nothing has a name with one. -/
theorem Tree.node?_eq_none_of_hyphen {t : Tree} (ht : t.WellFormed)
    (hnames : ∀ e ∈ t.entries, ∀ name ∈ e.1, '-' ∉ name.toList) (above : List String)
    {name : String}
    (hname : '-' ∈ name.toList) : t.node? (above ++ [name]) = none := by
  by_contra hthere
  obtain ⟨node, hnode⟩ := Option.ne_none_iff_exists'.mp hthere
  have hmem := (ht.node?_eq_some_iff (by simp)).mp hnode
  exact hnames _ hmem _ (List.mem_append_right _ List.mem_cons_self) hname

/-! ## Destinations of a plan -/

/-- In the directory of the item, the scan leaves out an entry that has the converted name. -/
def Disk.LeavesOut (d : Disk) (ignored : List String) (item : Item) : Prop :=
  ∃ e found, d.Retains ignored e ∧ e.item = item ∧
    d.tree.node? (e.directory ++ [e.newName]) = some found ∧ found.IsLeftOut ignored e.newName

/-- The move takes one of the items to a temporary name. -/
def Move.IsToTemporary (token : Nat → String) (items : List Item) (m : Move) : Prop :=
  ∃ item ∈ items, m.root = item.root ∧ m.source = item.currentPath ∧
    (m.target = item.temporaryPath ∨ ∃ n, m.target = item.temporaryPath ++ "-" ++ token n)

theorem Retained.item_temporaryPath_cases {token : Nat → String} {temporary : String}
    (h : IsTemporaryOf token e.newName temporary) :
    pathText (e.newAbove ++ [temporary]) = e.item.temporaryPath ∨
      ∃ n, pathText (e.newAbove ++ [temporary]) = e.item.temporaryPath ++ "-" ++ token n := by
  rw [e.item_temporaryPath]
  cases h with
  | untokened => exact .inl rfl
  | tokened n => exact .inr ⟨n, by rw [pathText_concat_append, pathText_concat_append]⟩

section Plan

variable {w w' : World} {texts : List String} {plan : Plan} {m : Move} {item : Item}
  (ht : w.disk.tree.WellFormed) (htoken : ∀ n, IsToken (w.token n))
  (hplan : (preview w ignored (texts.map .ofText)).plan = .ok plan) (hnone : plan.conflicts = [])
  (hitem : item ∈ plan.items) (hroot : m.root = item.root) (htarget : m.target = item.convertedPath)
include ht htoken hplan hnone hitem hroot htarget

/-- What is at the converted path of an item when a move goes there. -/
theorem leavesOut_or_isToTemporary {before after : List Move}
    (hmoves : plan.moves = before ++ m :: after)
    (hperformed : Performed (World.mover false) before w w')
    (hentry : w'.disk.hasEntry (m.root.joinText m.target).route = true) :
    w.disk.LeavesOut ignored item ∨ m.IsToTemporary w.token plan.items := by
  obtain ⟨kept, hkept, hplanned⟩ := isPlanOf_of_preview ht hplan
  have h := hasRoots_of_outermostRoots ht (isNormal_ofText texts) hkept
  have hturns := hplanned.moves
  rw [hmoves] at hturns
  obtain ⟨front, e, back, x, y, isPaired, gone, horder, rfl, -, htakes, hdue, hs⟩ :=
    exists_moment h htoken hturns hperformed.disk.1
  obtain ⟨hretained, hchanges⟩ := mem_of_inOrder horder
  have hitems : e.item ∈ plan.items := by
    rw [hplanned.items]
    exact List.mem_map_of_mem (List.mem_filter.mpr ⟨hretained, hchanges⟩)
  obtain rfl | ⟨rfl, htemporary, -⟩ := htakes.target
  · -- the entry is that of the item, for no other has its destination
    left
    rw [hplanned.items] at hitem
    obtain ⟨e', he', rfl⟩ := List.mem_map.mp hitem
    have hconflicts := hplanned.conflicts.symm.trans hnone
    obtain rfl : e = e' := by
      refine eq_of_destinationKey hconflicts hretained (List.mem_filter.mp he').1 ?_
      exact Prod.ext (congrArg Path.toString hroot) (congrArg Text.casefold htarget)
    rw [show (e.leg x e.newName isPaired).root.joinText (e.leg x e.newName isPaired).target =
      e.root.below (e.newAbove ++ [e.newName]) from hdue.joinText_eq htakes.isPlain'] at hentry
    obtain ⟨parent, henters, hthere⟩ :=
      Disk.exists_of_hasEntry (hs.wellFormed ht) htakes.isPlain'.isName hentry
    rw [hdue.enters_eq hs ht henters, hdue.directory] at hthere
    obtain ⟨source, found, hne, hfound, hname⟩ := exists_of_occupied hs hdue ht htakes.ne hthere
    obtain ⟨rfl, hleft⟩ := eq_newName_of_occupied h horder hfound hconflicts hne hname
    exact ⟨e, found, (retains_of_inOrder h horder).2, rfl, hfound, hleft⟩
  · right
    exact ⟨e.item, hitems, rfl, hdue.isVisible.item_currentPath.symm,
      Retained.item_temporaryPath_cases htemporary⟩

/-- When a move of a plan without conflicts goes to the converted path of an item, there is nothing
but what the scan leaves out, unless the move takes another item to a temporary name. Only then does
it find its destination in the way. -/
theorem occupied_destination :
    (∀ before after w', plan.moves = before ++ m :: after →
        Performed (World.mover false) before w w' →
        w'.disk.hasEntry (m.root.joinText m.target).route = true →
        w.disk.LeavesOut ignored item ∨ m.IsToTemporary w.token plan.items) ∧
      ∀ text, (execute (World.mover false) none plan.moves w).failure? =
          some (directFailure m text none) →
        w.disk.LeavesOut ignored item ∨ m.IsToTemporary w.token plan.items := by
  refine ⟨fun before after w' => leavesOut_or_isToTemporary ht htoken hplan
    hnone hitem hroot htarget, fun text hfailure => ?_⟩
  obtain ⟨before, m', after, w', hmoves, hperformed, hfails⟩ := execute_of_some hfailure
  have hdisk : directMove m' m'.root w'.disk =
      ((directMove m' m'.root w'.disk).1, some (directFailure m text none)) :=
    Prod.ext rfl (congrArg Prod.snd hfails : (World.mover false m' m'.root w').2 = _)
  obtain ⟨rfl, hentry⟩ := hasEntry_of_directMove hdisk
  exact leavesOut_or_isToTemporary ht htoken hplan hnone hitem hroot htarget
    hmoves hperformed hentry

end Plan

/-- A directory, and one that has its converted name. -/
def Tree.crowded : Tree := ⟨[(["Dist"], .directory), (["dist"], .directory)]⟩

/-- The item of the first of them. -/
def Item.crowded : Item := ⟨"Dist", "dist", .directory, true, ⟨.relative, []⟩⟩

/-- The second of its moves. -/
def Move.crowded : Move := ⟨"dist.temp-rename", "dist", ⟨.relative, []⟩, true⟩

/-- Where the name of the other is skipped, the plan has no conflict, and its second move finds the
destination in the way. -/
theorem execute_crowded :
    ∃ plan, (preview (.ofTree .crowded) ["dist"] (["."].map .ofText)).plan = .ok plan ∧
      plan.conflicts = [] ∧ plan.items = [.crowded] ∧
      (execute (World.mover false) none plan.moves (.ofTree .crowded)).failure? =
        some (directFailure .crowded "Destination already exists: dist" none) ∧
      (execute (World.mover false) none plan.moves (.ofTree .crowded)).state.disk.tree =
        ⟨[(["dist.temp-rename"], .directory), (["dist"], .directory)]⟩ :=
  exists_ok_of_any (by decide)

theorem occupied_destination_crowded :
    (World.ofTree .crowded).disk.LeavesOut ["dist"] .crowded ∨
      Move.crowded.IsToTemporary tokenText [.crowded] := by
  obtain ⟨plan, hplan, hnone, hitems, hfailure⟩ : ∃ plan,
      (preview (.ofTree .crowded) ["dist"] (["."].map .ofText)).plan = .ok plan ∧
        plan.conflicts = [] ∧ plan.items = [.crowded] ∧
        (execute (World.mover false) none plan.moves (.ofTree .crowded)).failure? =
          some (directFailure .crowded "Destination already exists: dist" none) :=
    exists_ok_of_any (by decide)
  have hcrowded : Item.crowded ∈ plan.items := by simp [hitems]
  have hcases := (occupied_destination (w := .ofTree .crowded) (m := .crowded) (by decide)
    isToken_tokenText hplan hnone hcrowded rfl rfl).2 _ hfailure
  rwa [hitems] at hcases

end Recase
