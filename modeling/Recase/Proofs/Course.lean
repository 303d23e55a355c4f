import Recase.Proofs.Execute
import Recase.Proofs.Preview
import Recase.Proofs.Stage

/-!
# The course of a plan

* `Disk.HasRoots`: roots of a well-formed tree that lie in no other.
* `namesAfter`: the names once some entries have had their turn. Those retained entries have their
  converted names that have had it or need none (`namesAfter_of_done`), and all others their own
  (`namesAfter_of_not_mem`, `namesAfter_of_forall_ne`).
* `relocate_above`: the directories on the way to an entry have their new names when all those have
  had their turn that are less deep; so an entry is due when its turn comes (`isDue_of_inOrder`).
* `Retained.Takes`: the steps of the turn of an entry, from one name to another.
* `Turns.stage`: the disk after turns. `exists_moment`: the disk when a move of a plan is made.
-/

namespace Recase

open Name Naming Recase.Tree

/-- Roots of a well-formed tree that lie in no other. -/
structure Disk.HasRoots (d : Disk) (kept : List Path) : Prop where
  wellFormed : d.tree.WellFormed
  isNormal : ∀ root ∈ kept, root.IsNormal
  areApart : d.AreApart kept

theorem hasRoots_of_outermostRoots {d : Disk} {roots : List Root} {kept : List Path}
    (ht : d.tree.WellFormed) (hroots : ∀ r ∈ roots, r.path.IsNormal)
    (h : outermostRoots d roots = .ok kept) : d.HasRoots kept where
  wellFormed := ht
  isNormal _ := isNormal_of_mem_outermostRoots ht hroots h
  areApart := areApart_of_outermostRoots ht hroots h

/-! ## Names after turns -/

/-- The names once the entries have had their turn. -/
def namesAfter (front : List Retained) : Naming :=
  front.foldl (fun ν e => Function.update ν e.place e.newName) own

@[simp] theorem namesAfter_nil : namesAfter [] = own := rfl

theorem namesAfter_concat (front : List Retained) (e : Retained) :
    namesAfter (front ++ [e]) = Function.update (namesAfter front) e.place e.newName := by
  simp [namesAfter]

/-- What has had no turn has its own name. -/
theorem namesAfter_of_forall_ne {front : List Retained} {place : Place}
    (h : ∀ e ∈ front, e.place ≠ place) : namesAfter front place = own place := by
  induction front using List.reverseRecOn with
  | nil => rfl
  | append_singleton front e ih =>
    rw [namesAfter_concat, Function.update_of_ne (h e (by simp)).symm]
    exact ih fun e he => h e (by simp [he])

theorem namesAfter_of_mem {front : List Retained} {e : Retained}
    (hpair : front.Pairwise fun a b => a.place ≠ b.place) (h : e ∈ front) :
    namesAfter front e.place = e.newName := by
  induction front using List.reverseRecOn with
  | nil => cases h
  | append_singleton front last ih =>
    rw [namesAfter_concat]
    obtain ⟨hfront, -, hlast⟩ := List.pairwise_append.mp hpair
    rcases List.mem_append.mp h with h | h
    · rw [Function.update_of_ne (hlast e h last (by simp))]
      exact ih hfront h
    · rw [List.mem_singleton.mp h, Function.update_self]

variable {d₀ d d' : Disk} {ignored : List String} {kept : List Path} {front back : List Retained}
  {e r : Retained}

namespace Disk.HasRoots

variable (h : d₀.HasRoots kept)
include h

theorem place_inj (he : e ∈ retained d₀ ignored kept) (hr : r ∈ retained d₀ ignored kept)
    (heq : e.place = r.place) : e = r :=
  List.inj_on_of_nodup_map
    (List.pairwise_map.mpr (retained_pairwise h.wellFormed h.areApart)) he hr heq

theorem inOrder_places :
    (Retained.inOrder (retained d₀ ignored kept)).Pairwise fun a b => a.place ≠ b.place :=
  ((retained_pairwise h.wellFormed h.areApart).filter _).perm (sortBy_perm _ _).symm
    fun hne => Ne.symm hne

variable (horder : Retained.inOrder (retained d₀ ignored kept) = front ++ back)
include horder

omit h in
theorem mem_retained_of_front (hr : r ∈ front) :
    r ∈ retained d₀ ignored kept ∧ r.changes = true :=
  Retained.mem_inOrder_iff.mp (horder ▸ List.mem_append_left _ hr)

/-- A retained entry that has had no turn has its own name. -/
theorem namesAfter_of_not_mem (hr : r ∈ retained d₀ ignored kept) (hfront : r ∉ front) :
    namesAfter front r.place = r.name := by
  rw [namesAfter_of_forall_ne, Retained.place, own_concat]
  intro e he heq
  exact hfront (h.place_inj (mem_retained_of_front horder he).1 hr heq ▸ he)

/-- A retained entry that has had its turn or needs none has its converted name. -/
theorem namesAfter_of_done (hr : r ∈ retained d₀ ignored kept)
    (hdone : r.changes = true → r ∈ front) : namesAfter front r.place = r.newName := by
  by_cases hfront : r ∈ front
  · have hpair : (Retained.inOrder (retained d₀ ignored kept)).Pairwise
        fun a b => a.place ≠ b.place := h.inOrder_places
    rw [horder] at hpair
    exact namesAfter_of_mem (List.pairwise_append.mp hpair).1 hfront
  · rw [h.namesAfter_of_not_mem horder hr hfront]
    by_contra hne
    exact hfront (hdone (Retained.changes_iff.mpr (Ne.symm hne)))

omit h in
/-- What is no retained entry has its own name. -/
theorem namesAfter_of_not_retained {place : Place}
    (hplace : ∀ r ∈ retained d₀ ignored kept, r.place ≠ place) :
    namesAfter front place = own place :=
  namesAfter_of_forall_ne fun e he => hplace e (mem_retained_of_front horder he).1

/-- What leads to a root keeps its names. -/
theorem relocate_top {root : Path} {top : Place} (hroot : root ∈ kept)
    (htop : d₀.directoryAt? root = some top) : (namesAfter front).relocate top = top := by
  refine relocate_eq_self fun above _ habove => namesAfter_of_not_retained horder fun r hr heq => ?_
  obtain ⟨hroot', hretains⟩ := (mem_retained_iff h.wellFormed).mp hr
  have hbelow : r.top ++ r.names <+: top := by
    rw [← r.place_eq, heq]
    exact habove
  by_cases hsame : r.root = root
  · have htop' := hretains.top
    rw [hsame, htop] at htop'
    obtain rfl := Option.some.inj htop'
    have hlen := hbelow.length_le
    simp only [Retained.names, List.length_append, List.length_singleton] at hlen
    omega
  · refine hsame (h.areApart.eq_of_prefix hroot' hroot ?_)
    rw [Disk.topAt_eq hretains.top, Disk.topAt_eq htop]
    exact (List.prefix_append _ _).trans hbelow

/-- The directories on the way to an entry have their new names when all those have had their turn
that are no deeper. -/
theorem relocate_above {root : Path} {top : Place} {above : List String} (hroot : root ∈ kept)
    (htop : d₀.directoryAt? root = some top) (hdir : d₀.tree.isDirectory (top ++ above) = true)
    (hvisible : isRetained ignored above = true)
    (hdone : ∀ r ∈ retained d₀ ignored kept, r.kind = .directory →
      r.names.length ≤ above.length → r.changes = true → r ∈ front) :
    (namesAfter front).relocate (top ++ above) =
      top ++ above.map EntryKind.directory.convert := by
  induction above using List.reverseRecOn with
  | nil => simpa using h.relocate_top horder hroot htop
  | append_singleton above name ih =>
    rw [← List.append_assoc] at hdir ⊢
    have hnode := isDirectory_iff.mp hdir
    have habove := (isRetained_concat.mp hvisible).1
    have hr : ⟨root, top, above, name, .directory⟩ ∈ retained d₀ ignored kept :=
      (mem_retained_iff h.wellFormed).mpr ⟨hroot, htop, ⟨_, hnode, rfl⟩, hvisible⟩
    have hname := h.namesAfter_of_done horder hr (hdone _ hr rfl (by simp [Retained.names]))
    have hup := ih (h.wellFormed.isDirectory_of_concat hnode) habove fun r hr hkind hlen =>
      hdone r hr hkind (by simp only [List.length_append, List.length_singleton]; omega)
    rw [relocate_concat, hup, List.map_append, List.append_assoc]
    exact congrArg _ (congrArg _ (congrArg (fun n => [n]) hname))

/-- Where a name is not skipped in the end, it was not skipped before. -/
theorem isRetained_of_along {top : Place} {names : List String}
    (hvisible : isRetained ignored ((namesAfter front).along top names) = true) :
    isRetained ignored names = true := by
  induction names generalizing top with
  | nil => rfl
  | cons name rest ih =>
    rw [along, isRetained, List.all_cons, Bool.and_eq_true] at hvisible
    rw [isRetained, List.all_cons, Bool.and_eq_true]
    refine ⟨?_, ih hvisible.2⟩
    by_contra hskip
    have hown : namesAfter front (top ++ [name]) = own (top ++ [name]) := by
      refine namesAfter_of_not_retained horder fun r hr heq => hskip ?_
      obtain ⟨-, hretains⟩ := (mem_retained_iff h.wellFormed).mp hr
      have hname : r.name = name := by simpa using (List.append_inj' heq rfl).2
      rw [← hname, (isRetained_concat.mp hretains.visible).2]
      rfl
    rw [hown, own_concat] at hvisible
    exact hskip hvisible.1

end Disk.HasRoots

/-! ## The order of turns -/

section Order

variable (h : d₀.HasRoots kept)
  (horder : Retained.inOrder (retained d₀ ignored kept) = front ++ e :: back)
include h horder

omit h in
theorem mem_of_inOrder : e ∈ retained d₀ ignored kept ∧ e.changes = true :=
  Retained.mem_inOrder_iff.mp (horder ▸ List.mem_append_right _ List.mem_cons_self)

theorem retains_of_inOrder : e.root ∈ kept ∧ d₀.Retains ignored e :=
  (mem_retained_iff h.wellFormed).mp (mem_of_inOrder horder).1

theorem isVisible_of_inOrder : e.IsVisible := (retains_of_inOrder h horder).2.isVisible h.wellFormed

theorem not_mem_front : e ∉ front := by
  intro he
  have hpair : (Retained.inOrder (retained d₀ ignored kept)).Pairwise
      fun a b => a.place ≠ b.place := h.inOrder_places
  rw [horder] at hpair
  exact (List.pairwise_append.mp hpair).2.2 e he e List.mem_cons_self rfl

omit h in
/-- What comes before an entry in the order of items has had its turn when that of the entry
comes. -/
theorem mem_front_of_gt (hr : r ∈ retained d₀ ignored kept) (hchanges : r.changes = true)
    (hgt : e.item.executionOrder r.item = .gt) : r ∈ front := by
  have hsorted := Retained.inOrder_pairwise (retained d₀ ignored kept)
  have hmem := Retained.mem_inOrder_iff.mpr ⟨hr, hchanges⟩
  rw [horder] at hsorted hmem
  refine mem_front hsorted ?_ hmem (by rw [hgt]; rfl)
  simpa using Item.executionOrder_total e.item e.item

omit h in
/-- Directories have had their turn before files. -/
theorem mem_front_of_file (he : e.kind = .file) (hr : r ∈ retained d₀ ignored kept)
    (hkind : r.kind = .directory) (hchanges : r.changes = true) : r ∈ front := by
  refine mem_front_of_gt horder hr hchanges ?_
  simp [Item.executionOrder, Retained.item, he, hkind]

/-- Directories have had their turn before entries that are deeper. -/
theorem mem_front_of_length_lt (hr : r ∈ retained d₀ ignored kept) (hkind : r.kind = .directory)
    (hlen : r.names.length < e.names.length) (hchanges : r.changes = true) : r ∈ front := by
  cases he : e.kind with
  | file => exact mem_front_of_file horder he hr hkind hchanges
  | directory =>
    refine mem_front_of_gt horder hr hchanges ?_
    have hdepth := (isVisible_of_inOrder h horder).item_depth
    have hdepth' := (((mem_retained_iff h.wellFormed).mp hr).2.isVisible h.wellFormed).item_depth
    have hcompare : compare e.item.depth r.item.depth = .gt := by
      rw [hdepth, hdepth', Nat.compare_eq_gt]
      exact hlen
    have hkinds : e.item.kind = .directory ∧ r.item.kind = .directory := ⟨he, hkind⟩
    simp [Item.executionOrder, hkinds, hcompare]

omit h in
/-- No file has had its turn before that of a directory comes. -/
theorem kind_of_mem_front (he : e.kind = .directory) (hr : r ∈ front) : r.kind = .directory := by
  have hsorted := Retained.inOrder_pairwise (retained d₀ ignored kept)
  rw [horder] at hsorted
  have hle := (List.pairwise_append.mp hsorted).2.2 r hr e List.mem_cons_self
  cases hkind : r.kind with
  | directory => rfl
  | file => simp [Item.executionOrder, Retained.item, he, hkind] at hle

theorem namesAfter_of_inOrder : namesAfter front e.place = e.name :=
  h.namesAfter_of_not_mem horder (mem_of_inOrder horder).1 (not_mem_front h horder)

/-- An entry is due when its turn comes. -/
theorem isDue_of_inOrder : e.IsDue d₀ (namesAfter front) := by
  obtain ⟨hroot, hretains⟩ := retains_of_inOrder h horder
  obtain ⟨node, hnode, hkind⟩ := hretains.node
  refine ⟨h.isNormal _ hroot, hretains.top, isVisible_of_inOrder h horder, hretains.node, ?_⟩
  refine h.relocate_above horder hroot hretains.top (h.wellFormed.isDirectory_of_concat hnode)
    (isRetained_concat.mp hretains.visible).1 fun r hr hkind hlen => ?_
  refine mem_front_of_length_lt h horder hr hkind ?_
  have hdeeper : e.names.length = e.above.length + 1 := by simp [Retained.names]
  omega

end Order

/-! ## The disk at a move -/

variable {isTaken : Path → Bool} {token : Nat → String} {ν : Naming} {gone : List Place}
  {moves before after : List Move} {m : Move}

/-- A step of the turn of an entry, from the name `x` to the name `y`: to the converted name, or
from the entry's own name to a temporary one. -/
structure Retained.Takes (isTaken : Path → Bool) (token : Nat → String) (e : Retained)
    (x y : String) : Prop where
  isPlain : IsPlain x
  isPlain' : IsPlain y
  ne : x ≠ y
  /-- The rule leaves the names that a directory gets alone. -/
  fixed : e.kind = .directory → EntryKind.directory.convert y = y
  target : y = e.newName ∨ x = e.name ∧ IsTemporaryOf token e.newName y ∧
    (y = e.newName ++ temporarySuffix → isTaken e.item.temporarySite = false)

theorem Retained.fixed_newName (e : Retained) (hkind : e.kind = .directory) :
    EntryKind.directory.convert e.newName = e.newName := by
  rw [Retained.newName, hkind, EntryKind.convert_convert_directory]

/-- The two steps over a temporary name. -/
theorem Retained.takes_of_temporary {x : String} (htemporary : IsTemporaryOf token e.newName x)
    (hfree : x = e.newName ++ temporarySuffix → isTaken e.item.temporarySite = false)
    (htoken : ∀ n, IsToken (token n)) (hvisible : e.IsVisible) :
    e.Takes isTaken token e.name x ∧ e.Takes isTaken token x e.newName := by
  have hplain := htemporary.isPlain htoken hvisible.isPlain_newName hvisible.head_newName
  have hne := htemporary.ne_source htoken hvisible.isVisible_name hvisible.isPlain_name.ne_empty
  have hfixed : e.kind = .directory → EntryKind.directory.convert x = x := by
    intro hkind
    rw [Retained.newName, hkind] at htemporary
    exact htemporary.convert_eq _ htoken
  exact ⟨⟨hvisible.isPlain_name, hplain, hne.symm, hfixed, .inr ⟨rfl, htemporary, hfree⟩⟩,
    ⟨hplain, hvisible.isPlain_newName, htemporary.ne, e.fixed_newName, .inl rfl⟩⟩

/-- The steps of a turn. -/
theorem Legs.cases {legs : List Move} (h : Legs isTaken token e legs)
    (htoken : ∀ n, IsToken (token n)) (hvisible : e.IsVisible) (hchanges : e.changes = true) :
    (legs = [e.leg e.name e.newName false] ∧ e.Takes isTaken token e.name e.newName) ∨
      ∃ x, legs = [e.leg e.name x true, e.leg x e.newName true] ∧
        e.Takes isTaken token e.name x ∧ e.Takes isTaken token x e.newName := by
  cases h with
  | single =>
    exact .inl ⟨rfl, hvisible.isPlain_name, hvisible.isPlain_newName,
      Ne.symm (Retained.changes_iff.mp hchanges), e.fixed_newName, .inl rfl⟩
  | @paired x htemporary hfree =>
    exact .inr ⟨x, rfl, Retained.takes_of_temporary htemporary hfree htoken hvisible⟩

/-- A step that is made. -/
theorem Retained.Takes.step {x y : String} {isPaired : Bool} (h : e.Takes isTaken token x y)
    (hdue : e.IsDue d₀ ν) (hs : d₀.Stage ν gone d) (ht : d₀.tree.WellFormed)
    (hchanges : e.changes = true) (hname : ν e.place = x)
    (hgone : e.kind = .directory → gone = [])
    (hmove : directMove (e.leg x y isPaired) e.root d = (d', none)) :
    ∃ gone', d₀.Stage (Function.update ν e.place y) gone' d' ∧ (gone' = gone ∨ e.kind = .file) := by
  refine hdue.step hs ht hname h.isPlain h.isPlain' h.ne (fun hkind => ?_) hmove
  refine ⟨hgone hkind, ?_, h.fixed hkind⟩
  have hne := Retained.changes_iff.mp hchanges
  rwa [Retained.newName, hkind] at hne

section Course

variable (h : d₀.HasRoots kept) (htoken : ∀ n, IsToken (token n))
include h htoken

/-- The disk after turns. No link is gone before files have had theirs. -/
theorem Turns.stage {middle : List Retained} (hturns : Turns isTaken token middle moves)
    (horder : Retained.inOrder (retained d₀ ignored kept) = front ++ (middle ++ back))
    (hs : d₀.Stage (namesAfter front) gone d)
    (hgone : (∀ r ∈ front, r.kind = .directory) → gone = [])
    (hperformed : Performed directMove moves d d') :
    ∃ gone', d₀.Stage (namesAfter (front ++ middle)) gone' d' ∧
      ((∀ r ∈ front ++ middle, r.kind = .directory) → gone' = []) := by
  induction hturns generalizing front gone d with
  | nil =>
    cases hperformed
    exact ⟨gone, by simpa using hs, by simpa using hgone⟩
  | @cons e rest legs moves hlegs _ ih =>
    obtain ⟨between, hfirst, hrest⟩ := performed_append_iff.mp hperformed
    have hdue := isDue_of_inOrder h horder
    have hname := namesAfter_of_inOrder h horder
    have hchanges := (mem_of_inOrder horder).2
    have hgone' : e.kind = .directory → gone = [] :=
      fun hkind => hgone fun r hr => kind_of_mem_front horder hkind hr
    -- after the turn the entry has its new name
    obtain ⟨gone', hs', hfile⟩ : ∃ gone', d₀.Stage (namesAfter (front ++ [e])) gone' between ∧
        (gone' = gone ∨ e.kind = .file) := by
      rw [namesAfter_concat]
      obtain ⟨rfl, htakes⟩ | ⟨x, rfl, htakes, htakes'⟩ :=
        hlegs.cases htoken hdue.isVisible hchanges
      · cases hfirst with
        | cons hmove hnil =>
          cases hnil
          exact htakes.step hdue hs h.wellFormed hchanges hname hgone' hmove
      · cases hfirst with
        | cons hmove hlast =>
          cases hlast with
          | cons hmove' hnil =>
            cases hnil
            obtain ⟨gone₁, hs₁, hfile₁⟩ :=
              htakes.step hdue hs h.wellFormed hchanges hname hgone' hmove
            have hgone₁ : e.kind = .directory → gone₁ = [] := by
              intro hkind
              rw [hfile₁.resolve_right (by simp [hkind]), hgone' hkind]
            obtain ⟨gone₂, hs₂, hfile₂⟩ := htakes'.step (hdue.update x) hs₁ h.wellFormed hchanges
              (Function.update_self _ _ _) hgone₁ hmove'
            rw [Function.update_idem] at hs₂
            refine ⟨gone₂, hs₂, ?_⟩
            rcases hfile₂ with rfl | hfile₂
            · exact hfile₁
            · exact .inr hfile₂
    have hgone'' : (∀ r ∈ front ++ [e], r.kind = .directory) → gone' = [] := by
      intro hall
      have hkind := hall e (by simp)
      rw [hfile.resolve_right (by simp [hkind])]
      exact hgone' hkind
    have horder' :
        Retained.inOrder (retained d₀ ignored kept) = (front ++ [e]) ++ (rest ++ back) := by
      rw [horder]
      simp
    obtain ⟨gone₃, hs₃, hgone₃⟩ := ih horder' hs' hgone'' hrest
    rw [List.append_assoc] at hs₃ hgone₃
    exact ⟨gone₃, hs₃, hgone₃⟩

/-- The disk after all turns. -/
theorem Turns.stage_end
    (hturns : Turns isTaken token (Retained.inOrder (retained d₀ ignored kept)) moves)
    (hperformed : Performed directMove moves d₀ d) :
    ∃ gone, d₀.Stage (namesAfter (Retained.inOrder (retained d₀ ignored kept))) gone d := by
  have horder : Retained.inOrder (retained d₀ ignored kept) =
      [] ++ (Retained.inOrder (retained d₀ ignored kept) ++ []) := by simp
  obtain ⟨gone, hs, -⟩ := hturns.stage h htoken horder (stage_own h.wellFormed) (fun _ => rfl)
    hperformed
  exact ⟨gone, hs⟩

/-- The disk when a move of a plan is made: an entry is due, and takes a step of its turn. -/
theorem exists_moment
    (hturns : Turns isTaken token (Retained.inOrder (retained d₀ ignored kept))
      (before ++ m :: after))
    (hperformed : Performed directMove before d₀ d) :
    ∃ front e back x y isPaired gone,
      Retained.inOrder (retained d₀ ignored kept) = front ++ e :: back ∧
      m = e.leg x y isPaired ∧ (∃ legs, Legs isTaken token e legs ∧ m ∈ legs) ∧
      e.Takes isTaken token x y ∧
      e.IsDue d₀ (Function.update (namesAfter front) e.place x) ∧
      d₀.Stage (Function.update (namesAfter front) e.place x) gone d := by
  obtain ⟨front, e, back, done, first, second, horder, hdone, hlegs, rfl⟩ := hturns.split
  obtain ⟨between, hfront, hfirst⟩ := performed_append_iff.mp hperformed
  have horder' : Retained.inOrder (retained d₀ ignored kept) = [] ++ (front ++ e :: back) := horder
  obtain ⟨gone, hs, hgone⟩ := hdone.stage h htoken horder' (stage_own h.wellFormed)
    (fun _ => rfl) hfront
  have hdue := isDue_of_inOrder h horder
  have hname := namesAfter_of_inOrder h horder
  have hchanges := (mem_of_inOrder horder).2
  have hown : Function.update (namesAfter front) e.place e.name = namesAfter front := by
    rw [← hname, Function.update_eq_self]
  have hdue' : e.IsDue d₀ (Function.update (namesAfter front) e.place e.name) := by rwa [hown]
  have hs' : d₀.Stage (Function.update (namesAfter front) e.place e.name) gone between := by
    rwa [hown]
  have hgone' : e.kind = .directory → gone = [] :=
    fun hkind => hgone fun r hr => kind_of_mem_front horder hkind hr
  have hmember : ∃ legs, Legs isTaken token e legs ∧ m ∈ legs := ⟨_, hlegs, by simp⟩
  obtain ⟨hlegs, htakes⟩ | ⟨x, hlegs, htakes, htakes'⟩ := hlegs.cases htoken hdue.isVisible hchanges
  · obtain ⟨rfl, hm⟩ : first = [] ∧ m = e.leg e.name e.newName false := by
      cases first with
      | nil => simpa using (List.cons.inj hlegs).1
      | cons m' rest => simp at hlegs
    cases hfirst
    exact ⟨front, e, back, _, _, _, gone, horder, hm, hmember, htakes, hdue', hs'⟩
  · rcases first with _ | ⟨m', _ | ⟨m'', rest⟩⟩
    · cases hfirst
      exact ⟨front, e, back, _, _, _, gone, horder, (List.cons.inj hlegs).1, hmember, htakes,
        hdue', hs'⟩
    · obtain ⟨rfl, hrest⟩ := List.cons.inj hlegs
      cases hfirst with
      | cons hmove hnil =>
        cases hnil
        obtain ⟨gone', hnext, -⟩ := htakes.step hdue hs h.wellFormed hchanges hname hgone' hmove
        exact ⟨front, e, back, _, _, _, gone', horder, (List.cons.inj hrest).1, hmember, htakes',
          hdue.update x, hnext⟩
    · simp at hlegs

end Course

end Recase
