import Recase.Proofs.Course

/-!
# What a plan makes of a tree

* `namesBelow?`: the names that lead to a place from the outermost of some directories that it lies
  in.
* `Tree.convertedName`: the names that a conversion is to give: every entry that no skipped name
  leads to from the outermost directory has the converted name of its kind, and every other its own.
* `namesBelow?_roots`, `exists_retained`: among the roots, these are the names from the one that is
  kept, and what they lead to is retained if none of them is skipped.
* `namesAfter_eq_convertedName`: once all turns have been had, entries have their converted names.
* `execute_tree`: the moves of a plan that all succeed give a tree of directories and regular files
  those names, and change nothing else.
-/

namespace Recase

open Name Naming Recase.Tree

/-- The names that lead to a place from the outermost of some directories that it lies in, searched
from `above` on down. -/
def namesBelow? (tops : List Place) (above : Place) : List String → Option (List String)
  | [] => if tops.contains above then some [] else none
  | name :: rest =>
    if tops.contains above then some (name :: rest) else namesBelow? tops (above ++ [name]) rest

/-- The name that an entry is to have when all that is retained below some directories is
converted. -/
def Tree.convertedName (t : Tree) (ignored : List String) (tops : List Place) : Naming :=
  fun place =>
  match (t.node? place).bind Node.kind?, namesBelow? tops [] place with
  | some kind, some names =>
    if names ≠ [] ∧ isRetained ignored names = true then kind.convert (own place) else own place
  | _, _ => own place

section

variable {t : Tree} {ignored : List String} {tops : List Place} {place : Place} {kind : EntryKind}

theorem Tree.convertedName_of_namesBelow? {names : List String}
    (hkind : (t.node? place).bind Node.kind? = some kind)
    (hbelow : namesBelow? tops [] place = some names) :
    t.convertedName ignored tops place =
      if names ≠ [] ∧ isRetained ignored names = true then kind.convert (own place)
      else own place := by
  rw [convertedName, hkind, hbelow]

theorem Tree.convertedName_of_not_below
    (hkind : (t.node? place).bind Node.kind? = some kind)
    (hbelow : namesBelow? tops [] place = none) :
    t.convertedName ignored tops place = own place := by
  rw [convertedName, hkind, hbelow]

end

theorem namesBelow?_eq_some_iff {tops : List Place} {above : Place} {place names : List String} :
    namesBelow? tops above place = some names ↔
      ∃ front, place = front ++ names ∧ above ++ front ∈ tops ∧
        ∀ shorter, shorter <+: front → above ++ shorter ∈ tops → shorter = front := by
  induction place generalizing above with
  | nil =>
    rw [namesBelow?]
    constructor
    · intro h
      split at h
      · rename_i habove
        cases h
        exact ⟨[], rfl, by simpa using habove,
          fun shorter hshorter _ => List.prefix_nil.mp hshorter⟩
      · cases h
    · rintro ⟨front, hfront, hmem, -⟩
      obtain ⟨rfl, rfl⟩ := List.append_eq_nil_iff.mp hfront.symm
      rw [if_pos (by simpa using hmem)]
  | cons name rest ih =>
    rw [namesBelow?]
    by_cases habove : above ∈ tops
    · rw [if_pos (by simpa using habove)]
      constructor
      · intro h
        cases h
        exact ⟨[], rfl, by simpa using habove,
          fun shorter hshorter _ => List.prefix_nil.mp hshorter⟩
      · rintro ⟨front, hfront, -, hfirst⟩
        obtain rfl := hfirst [] List.nil_prefix (by simpa using habove)
        simpa using hfront
    · rw [if_neg (by simpa using habove), ih]
      constructor
      · rintro ⟨front, rfl, hmem, hfirst⟩
        refine ⟨name :: front, rfl, by simpa using hmem, fun shorter hshorter hmem' => ?_⟩
        cases shorter with
        | nil => exact absurd (by simpa using hmem') habove
        | cons name' shorter =>
          obtain ⟨rfl, hrest⟩ := List.cons_prefix_cons.mp hshorter
          rw [hfirst shorter hrest (by simpa using hmem')]
      · rintro ⟨front, hfront, hmem, hfirst⟩
        rcases List.append_eq_cons_iff.mp hfront.symm with ⟨rfl, -⟩ | ⟨front, rfl, rfl⟩
        · exact absurd (by simpa using hmem) habove
        · refine ⟨front, rfl, by simpa using hmem, fun shorter hshorter hmem' => ?_⟩
          have := hfirst (name :: shorter) (List.cons_prefix_cons.mpr ⟨rfl, hshorter⟩)
            (by simpa using hmem')
          exact (List.cons.inj this).2

variable {d : Disk} {ignored : List String} {roots : List Root} {kept : List Path} {place : Place}
  {names : List String}

section Names

variable (ht : d.tree.WellFormed) (hroots : ∀ r ∈ roots, r.path.IsNormal)
  (hkept : outermostRoots d roots = .ok kept)
include ht hroots hkept

/-- The outermost of the directories at the roots that a place lies in is that of a root that is
kept. -/
theorem namesBelow?_roots :
    namesBelow? (roots.filterMap fun r => d.directoryAt? r.path) [] place = some names ↔
      ∃ root ∈ kept, place = d.topAt root ++ names := by
  have hmem : ∀ top, top ∈ roots.filterMap (fun r => d.directoryAt? r.path) ↔
      ∃ r ∈ roots, d.topAt r.path = top := by
    intro top
    rw [List.mem_filterMap]
    constructor
    · rintro ⟨r, hr, htop⟩
      exact ⟨r, hr, Disk.topAt_eq htop⟩
    · rintro ⟨r, hr, rfl⟩
      exact ⟨r, hr, directoryAt?_of_outermostRoots ht hroots hkept hr⟩
  rw [namesBelow?_eq_some_iff]
  simp only [List.nil_append, hmem]
  constructor
  · rintro ⟨top, rfl, ⟨r, hr, rfl⟩, hfirst⟩
    obtain ⟨root, hroot, hpre⟩ := exists_of_outermostRoots ht hroots hkept hr
    obtain ⟨⟨r', hr', rfl⟩, -⟩ := mem_of_outermostRoots ht hroots hkept hroot
    exact ⟨r'.path, hroot, by rw [hfirst _ hpre ⟨r', hr', rfl⟩]⟩
  · rintro ⟨root, hroot, rfl⟩
    obtain ⟨⟨r, hr, rfl⟩, houter⟩ := mem_of_outermostRoots ht hroots hkept hroot
    refine ⟨_, rfl, ⟨r, hr, rfl⟩, ?_⟩
    rintro _ hshorter ⟨r', hr', rfl⟩
    exact houter r' hr' hshorter

/-- What names that are not skipped lead to from a root that is kept is retained. -/
theorem exists_retained {root : Path} {node : Node} {kind : EntryKind} (hroot : root ∈ kept)
    (hnames : names ≠ []) (hvisible : isRetained ignored names = true)
    (hnode : d.tree.node? (d.topAt root ++ names) = some node) (hkind : node.kind? = some kind) :
    ∃ e ∈ retained d ignored kept, e.place = d.topAt root ++ names := by
  obtain ⟨above, name, rfl⟩ : ∃ above name, names = above ++ [name] :=
    ⟨names.dropLast, names.getLast hnames, (List.dropLast_append_getLast hnames).symm⟩
  refine ⟨⟨root, d.topAt root, above, name, kind⟩,
    (mem_retained_iff ht).mpr ⟨hroot, ?_, ⟨node, ?_, hkind⟩, hvisible⟩, Retained.place_eq _⟩
  · exact directoryAt?_of_mem_outermostRoots ht hroots hkept hroot
  · rw [← hnode, Retained.place_eq]
    rfl

/-- Once all turns have been had, entries have the names that the conversion is to give. -/
theorem namesAfter_eq_convertedName (hlinks : d.tree.LinkFree) (hplace : d.tree.node? place ≠ none)
    (hne : place ≠ []) :
    namesAfter (Retained.inOrder (retained d ignored kept)) place =
      d.tree.convertedName ignored (roots.filterMap fun r => d.directoryAt? r.path) place := by
  have h := hasRoots_of_outermostRoots ht hroots hkept
  have horder : Retained.inOrder (retained d ignored kept) =
      Retained.inOrder (retained d ignored kept) ++ [] := by simp
  obtain ⟨node, hnode⟩ := Option.ne_none_iff_exists'.mp hplace
  obtain ⟨kind, hkind⟩ : ∃ kind, node.kind? = some kind := by
    cases node with
    | directory => exact ⟨_, rfl⟩
    | file content => exact ⟨_, rfl⟩
    | link target => exact absurd hnode (hlinks place target)
  have hbind : (d.tree.node? place).bind Node.kind? = some kind := by
    rw [hnode, Option.bind_some, hkind]
  by_cases hretained : ∃ r ∈ retained d ignored kept, r.place = place
  · obtain ⟨r, hr, rfl⟩ := hretained
    obtain ⟨hroot, hretains⟩ := (mem_retained_iff ht).mp hr
    have hbelow : namesBelow? (roots.filterMap fun r => d.directoryAt? r.path) [] r.place =
        some r.names := by
      rw [namesBelow?_roots ht hroots hkept]
      exact ⟨r.root, hroot, by rw [r.place_eq, Disk.topAt_eq hretains.top]⟩
    have hsame : r.kind = kind := by
      obtain ⟨node', hnode', hkind'⟩ := hretains.node
      rw [hnode] at hnode'
      cases hnode'
      exact Option.some.inj (hkind'.symm.trans hkind)
    have hown : own r.place = r.name := own_concat _ _
    have hnames : r.names ≠ [] ∧ isRetained ignored r.names = true :=
      ⟨by simp [Retained.names], hretains.visible⟩
    rw [h.namesAfter_of_done horder hr fun hchanges => Retained.mem_inOrder_iff.mpr ⟨hr, hchanges⟩,
      convertedName_of_namesBelow? hbind hbelow, if_pos hnames, hown, ← hsame]
    rfl
  · have hnone : ∀ r ∈ retained d ignored kept, r.place ≠ place :=
      fun r hr heq => hretained ⟨r, hr, heq⟩
    rw [Disk.HasRoots.namesAfter_of_not_retained horder hnone]
    cases hbelow : namesBelow? (roots.filterMap fun r => d.directoryAt? r.path) [] place with
    | none => rw [convertedName_of_not_below hbind hbelow]
    | some names =>
      rw [convertedName_of_namesBelow? hbind hbelow, if_neg]
      rintro ⟨hnames, hvisible⟩
      obtain ⟨root, hroot, rfl⟩ := (namesBelow?_roots ht hroots hkept).mp hbelow
      obtain ⟨r, hr, hat⟩ := exists_retained ht hroots hkept hroot hnames hvisible hnode hkind
      exact hnone r hr hat

end Names

/-- The moves of a plan that all succeed make of a tree of directories and regular files the tree in
which every retained entry below the roots has its converted name, and every other its own. -/
theorem execute_tree {w : World} {texts : List String} {plan : Plan}
    (ht : w.disk.tree.WellFormed) (hlinks : w.disk.tree.LinkFree)
    (htoken : ∀ n, IsToken (w.token n))
    (hplan : (preview w ignored (texts.map .ofText)).plan = .ok plan)
    (hdone : (execute (World.mover false) none plan.moves w).failure? = none) :
    (execute (World.mover false) none plan.moves w).state.disk.tree =
      w.disk.tree.renamed (w.disk.tree.convertedName ignored
        ((texts.map Root.ofText).filterMap fun r => w.disk.directoryAt? r.path)) := by
  obtain ⟨kept, hkept, hturns⟩ := isPlanOf_of_preview ht hplan
  have hnormal := isNormal_ofText texts
  have h := hasRoots_of_outermostRoots ht hnormal hkept
  obtain ⟨hperformed, -⟩ := (execute_of_none hdone).disk
  obtain ⟨gone, hs⟩ := hturns.moves.stage_end h htoken hperformed
  obtain rfl : gone = [] := by
    refine List.eq_nil_iff_forall_not_mem.mpr fun place hplace => ?_
    obtain ⟨target, htarget⟩ := hs.arranged.isLink place hplace
    exact hlinks place target htarget
  rw [hs.tree, Tree.arranged, without_nil]
  refine renamed_congr fun e he => relocate_congr fun front hne hfront => ?_
  refine namesAfter_eq_convertedName ht hnormal hkept hlinks ?_ hne
  have hnode := ht.node?_of_mem he
  obtain ⟨rest, hrest⟩ := hfront
  rcases eq_or_ne rest [] with rfl | hrest'
  · rw [List.append_nil] at hrest
    simp [hrest, hnode]
  · rw [← hrest] at hnode
    simp [isDirectory_iff.mp (ht.isDirectory_of_append hrest' hnode)]

/-- A directory whose name changes over a temporary one, and one that is left alone below
another. -/
def Tree.sample : Tree :=
  ⟨[(["Docs"], .directory), (["srcFiles"], .directory), (["srcFiles", "FooBar.ts"], .file ⟨#[1]⟩),
    (["srcFiles", "dist"], .directory), (["srcFiles", "dist", "OutFile.js"], .file ⟨#[]⟩)]⟩

theorem execute_tree_sample :
    ∃ plan, (preview (.ofTree .sample) ["dist"] (["."].map .ofText)).plan = .ok plan ∧
      (execute (World.mover false) none plan.moves (.ofTree .sample)).failure? = none ∧
      (execute (World.mover false) none plan.moves (.ofTree .sample)).state.disk.tree =
        Tree.sample.renamed (Tree.sample.convertedName ["dist"]
          ((["."].map Root.ofText).filterMap fun r =>
            (World.ofTree .sample).disk.directoryAt? r.path)) := by
  obtain ⟨plan, hplan, hdone⟩ : ∃ plan,
      (preview (.ofTree .sample) ["dist"] (["."].map .ofText)).plan = .ok plan ∧
        (execute (World.mover false) none plan.moves (.ofTree .sample)).failure? = none :=
    exists_ok_of_any (by decide +kernel)
  exact ⟨plan, hplan, hdone, execute_tree (w := .ofTree .sample) (by decide)
    (linkFree_of_entries (by simp [World.ofTree, Tree.sample])) isToken_tokenText hplan hdone⟩

end Recase
