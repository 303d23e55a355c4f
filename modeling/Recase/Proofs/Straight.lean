import Recase.Proofs.Tree.Lexical
import Recase.Proofs.Walked

/-!
# Paths that lead straight down

A path without two dots and without links on it is one of names that lead down from where it starts.
What it leads to can be told from it, and stays while entries elsewhere get other names.

* `Path.IsStraight`: no name in the path leads up, and none on the way is that of a link. The
  directory at it is where the path tells (`IsStraight.placeFrom_eq`).
* `Disk.Holds`: there is something where a path of names tells, as below a straight path
  (`IsStraight.holds_below`). The path leads there (`Holds.enters`, `Holds.hasEntry`).
* `Path.IsKept`: it leads to the same on another disk, as after an entry that it is not in has got a
  free name (`RenamesWithin.isKept`).
-/

namespace Recase

open Name Recase.Tree

/-- Steps that are names, none of which is that of a link, lead down. -/
theorem Tree.Leads.eq_append_of_names {t : Tree} {n : Nat} {here place : Place}
    {steps : List String} (h : t.Leads n here steps place) (hnames : ∀ s ∈ steps, IsName s)
    (hlinks : ∀ front, front <+: steps → ∀ target, t.node? (here ++ front) ≠ some (.link target)) :
    place = here ++ steps := by
  induction h with
  | done => simp
  | skip hstep => exact absurd hstep (hnames _ List.mem_cons_self).not_skip
  | up => exact absurd rfl (hnames _ List.mem_cons_self).ne_dots
  | down _ _ _ ih =>
    rw [ih (fun s hs => hnames s (List.mem_cons_of_mem _ hs)) fun front hfront target => ?_]
    · simp
    · rw [List.append_assoc]
      exact hlinks _ (List.cons_prefix_cons.mpr ⟨rfl, hfront⟩) target
  | link _ hnode => exact absurd hnode (hlinks _ ⟨_, rfl⟩ _)

/-- No name in the path leads up, and none on the way is that of a link. -/
structure Path.IsStraight (p : Path) (d : Disk) : Prop where
  dots : ".." ∉ p.segments
  links : ∀ front, front <+: p.segments → ∀ target,
    d.tree.node? (p.route.startAt d.here ++ front) ≠ some (.link target)

/-- The path of the working directory. -/
theorem Path.isStraight_dot {d : Disk} (h : d.tree.isDirectory d.here = true) :
    Path.IsStraight ⟨.relative, []⟩ d where
  dots := by simp
  links front hfront target := by
    obtain rfl := List.prefix_nil.mp hfront
    have hplace : (Path.route ⟨.relative, []⟩).startAt d.here = d.here := rfl
    rw [hplace, List.append_nil, isDirectory_iff.mp h]
    simp

/-- There is something at the place that is told by a path of names. -/
structure Disk.Holds (d : Disk) (p : Path) : Prop where
  isName : ∀ n ∈ p.segments, IsName n
  hasNul : p.route.hasNul = false
  there : d.tree.node? (p.placeFrom d.here) ≠ none

variable {d d' d'' : Disk} {p dir : Path} {top : Place} {names : List String} {x y : String}

namespace Path

/-- The path tells the same place on both disks, and the same is there. -/
structure IsKept (p : Path) (d d' : Disk) : Prop where
  place : p.placeFrom d'.here = p.placeFrom d.here
  node : d'.tree.node? (p.placeFrom d'.here) = d.tree.node? (p.placeFrom d.here)

protected theorem IsKept.refl (p : Path) (d : Disk) : p.IsKept d d := ⟨rfl, rfl⟩

protected theorem IsKept.trans (h : p.IsKept d d') (h' : p.IsKept d' d'') : p.IsKept d d'' :=
  ⟨h'.place.trans h.place, h'.node.trans h.node⟩

/-- The place of a path of names. -/
theorem placeFrom_eq_append (h : ∀ n ∈ p.segments, IsName n) (here : Place) :
    p.placeFrom here = p.route.startAt here ++ p.segments := by
  rw [startAt_route]
  exact Place.lexically_eq_append h

theorem exists_eq_child (h : p.segments ≠ []) : ∃ (dir : Path) (x : String), p = dir.child x := by
  obtain ⟨anchor, segments⟩ := p
  obtain ⟨above, x, rfl⟩ := (List.eq_nil_or_concat segments).resolve_left h
  exact ⟨⟨anchor, above⟩, x, by rw [child, List.concat_eq_append]⟩

/-- The directory at a straight path is where the path tells. -/
theorem IsStraight.placeFrom_eq (h : p.IsStraight d) (ht : d.tree.WellFormed) (hp : p.IsNormal)
    (hdir : d.directoryAt? p = some top) : p.placeFrom d.here = top := by
  obtain ⟨-, n, -, hleads⟩ := Disk.leads_of_directoryAt? ht hdir
  have hnames := hp.isName h.dots
  rw [placeFrom_eq_append hnames]
  exact ((leads_segments hp hleads).eq_append_of_names hnames h.links).symm

/-- A path below a straight one leads to what is below its directory. -/
theorem IsStraight.holds_below (h : p.IsStraight d) (ht : d.tree.WellFormed) (hp : p.IsNormal)
    (hdir : d.directoryAt? p = some top) (hnames : ∀ n ∈ names, IsPlain n) (hne : names ≠ [])
    (hthere : d.tree.node? (top ++ names) ≠ none) :
    d.Holds (p.below names) ∧ (p.below names).placeFrom d.here = top ++ names := by
  have hplace : (p.below names).placeFrom d.here = top ++ names := by
    rw [placeFrom_below fun n hn => (hnames n hn).isName, h.placeFrom_eq ht hp hdir]
  refine ⟨⟨fun n hn => ?_, ?_, hplace.symm ▸ hthere⟩, hplace⟩
  · rcases List.mem_append.mp hn with hn | hn
    · exact hp.isName h.dots n hn
    · exact (hnames n hn).isName
  · exact hasNul_below (Disk.directoryAt?_eq_some_iff.mp hdir).1 hne hnames

end Path

namespace Disk

/-- The names of directories are a way to the last of them. -/
theorem enters_placeFrom (ht : d.tree.WellFormed) (hnames : ∀ n ∈ dir.segments, IsName n)
    (hdir : d.tree.isDirectory (dir.placeFrom d.here) = true) :
    d.Enters dir [] (dir.placeFrom d.here) := by
  rw [Path.placeFrom_eq_append hnames] at hdir ⊢
  refine ⟨ht.isDirectory_of_isDirectory_append hdir, 0, Nat.zero_le _, ?_⟩
  rw [List.append_nil]
  exact leads_below ht hdir

namespace Holds

theorem of_isKept (h : d.Holds p) (hkept : p.IsKept d d') : d'.Holds p :=
  ⟨h.isName, h.hasNul, hkept.node ▸ h.there⟩

theorem name (h : d.Holds (dir.child x)) : IsName x := h.isName x (by simp [Path.child])

variable (h : d.Holds (dir.child x)) (ht : d.tree.WellFormed)
include h

theorem placeFrom_eq : (dir.child x).placeFrom d.here = dir.placeFrom d.here ++ [x] :=
  Path.placeFrom_child h.name

include ht

/-- The path leads to the directory that the entry is in. -/
theorem enters : d.Enters dir [] (dir.placeFrom d.here) := by
  obtain ⟨node, hnode⟩ := Option.ne_none_iff_exists'.mp h.there
  rw [h.placeFrom_eq] at hnode
  exact enters_placeFrom ht (fun n hn => h.isName n (List.mem_append_left _ hn))
    (ht.isDirectory_of_concat hnode)

/-- The path leads to the entry, unless its text is too long. -/
theorem hasEntry (hshort : (dir.child x).route.isTooLong = false) :
    d.hasEntry (dir.child x).route = true := by
  obtain ⟨node, hnode⟩ := Option.ne_none_iff_exists'.mp h.there
  rw [h.placeFrom_eq] at hnode
  have hsize := ht.size_le hnode (List.mem_append_right _ List.mem_cons_self)
  exact ((h.enters ht).hasEntry_eq ht h.name h.hasNul hshort).mpr ⟨hsize, by simp [hnode]⟩

end Holds

/-- What an entry becomes that gets a free name. -/
theorem RenamesWithin.eq_commit (h : d.RenamesWithin dir [] x y d') (ht : d.tree.WellFormed)
    (hfirst : d.Holds (dir.child x)) :
    ∃ node, d.tree.node? (dir.placeFrom d.here ++ [x]) = some node ∧
      d.tree.node? (dir.placeFrom d.here ++ [y]) = none ∧
      d' = d.commit (.moved (dir.placeFrom d.here ++ [x]) (dir.placeFrom d.here ++ [y])) := by
  obtain ⟨henters, hnode, hfree, -⟩ := h
  obtain rfl := henters.unique (hfirst.enters ht)
  exact ⟨_, hnode, hfree, rfl⟩

/-- What a path leads to is there still after another entry has got a free name, unless it is below
that entry. -/
theorem RenamesWithin.isKept (h : d.RenamesWithin dir [] x y d') (ht : d.tree.WellFormed)
    (hfirst : d.Holds (dir.child x)) (hp : d.Holds p)
    (hpre : ¬ (dir.child x).placeFrom d.here <+: p.placeFrom d.here) : p.IsKept d d' := by
  obtain ⟨node, hnode, hfree, rfl⟩ := h.eq_commit ht hfirst
  rw [hfirst.placeFrom_eq] at hpre
  have hplace : p.placeFrom (d.commit (.moved (dir.placeFrom d.here ++ [x])
      (dir.placeFrom d.here ++ [y]))).here = p.placeFrom d.here := Path.placeFrom_carried hpre
  refine ⟨hplace, ?_⟩
  rw [hplace]
  exact (ht.carries_within hnode hfree).kept _ hpre (ht.not_prefix_of_free hfree hp.there)

end Disk

end Recase
