import Recase.Proofs.Course
import Recase.Proofs.Tree.Lexical
import Recase.Proofs.Walked

/-!
# Roots while moves are made

What a run keeps that makes moves below roots, itself or by the version-control tool, whatever the
tool answers.

* `Disk.Keeps`: a disk without links on which the directories of roots are where they were.
  `Disk.keeps_of_directoryAt?` is the disk before any move.
* `Keeps.renamesWithin`: an entry that gets another name leaves the roots where they are;
  `Keeps.performed`: so do moves, by way of `World.renamesWithin_of_mover`.
* `Keeps.directoryAt?_eq`: a root without two dots leads to its directory still.
-/

namespace Recase

open Name Recase.Tree

variable {d₀ d d' : Disk} {kept : List Path} {root : Path} {front : List String} {parent : Place}
  {x y : String} {w w' : World} {e : Retained} {m : Move}

/-- What is kept of roots of the disk `d₀` while what is below them gets other names. There are no
links, so the place that a path names can be told from it. -/
structure Disk.Keeps (d₀ : Disk) (kept : List Path) (d : Disk) : Prop where
  wellFormed : d.tree.WellFormed
  linkFree : d.tree.LinkFree
  placeFrom : ∀ root ∈ kept, root.placeFrom d.here = d₀.topAt root
  isDirectory : ∀ root ∈ kept, d.tree.isDirectory (d₀.topAt root) = true

/-- Without links, names below a root lead down from its place. -/
theorem Disk.Enters.eq_placeFrom (h : d.Enters root front parent) (hlinks : d.tree.LinkFree)
    (hroot : root.IsNormal) (hfront : ∀ n ∈ front, IsName n) :
    parent = root.placeFrom d.here ++ front := by
  obtain ⟨n, -, hleads⟩ := h.leads
  obtain ⟨-, hplace⟩ := hleads.eq_lexically hlinks
  have hfilter : (root.segments ++ front).filter isTaken = root.segments ++ front := by
    rw [List.filter_append, hroot.filter_segments,
      List.filter_eq_self.mpr fun n hn => (hfront n hn).isTaken]
  rw [hplace, hfilter, startAt_route, ← Path.placeFrom_below hfront]
  rfl

namespace Disk.Keeps

/-- An entry below a root that gets another name leaves all roots where they are. -/
theorem renamesWithin (h : d₀.Keeps kept d) (hapart : d₀.AreApart kept) (hroot : root ∈ kept)
    (hnormal : root.IsNormal) (hnames : ∀ n ∈ front ++ [y], IsPlain n)
    (hd : d.RenamesWithin root front x y d') : d₀.Keeps kept d' := by
  have ht' := hd.wellFormed h.wellFormed (hnames y (by simp))
  obtain ⟨henters, hnode, hfree, -⟩ := hd
  have hfront : ∀ n ∈ front, IsName n := fun n hn => (hnames n (by simp [hn])).isName
  obtain rfl := henters.eq_placeFrom h.linkFree hnormal hfront
  rw [h.placeFrom root hroot] at hnode hfree ht' ⊢
  -- the entry is below a root, so no root is in it
  have hsrc : ∀ other ∈ kept, ¬ d₀.topAt root ++ front ++ [x] <+: d₀.topAt other := by
    intro other hother hpre
    have htop : d₀.topAt root <+: d₀.topAt root ++ front ++ [x] := ⟨front ++ [x], by simp⟩
    obtain rfl := hapart.eq_of_prefix hroot hother (htop.trans hpre)
    have hlen := hpre.length_le
    simp only [List.length_append, List.length_singleton] at hlen
    omega
  refine ⟨ht', h.linkFree.move h.wellFormed,
    fun other hother => ?_, fun other hother => ?_⟩
  · have hplace := h.placeFrom other hother
    rw [← hplace]
    exact Path.placeFrom_carried (hplace ▸ hsrc other hother)
  · have hdir := isDirectory_iff.mp (h.isDirectory other hother)
    have hthere : d.tree.node? (d₀.topAt other) ≠ none := by simp [hdir]
    have hdst := h.wellFormed.not_prefix_of_free hfree hthere
    rw [isDirectory_iff]
    exact ((h.wellFormed.carries_within hnode hfree).kept _ (hsrc other hother) hdst).trans hdir

/-- A root without two dots leads to its directory still. -/
theorem directoryAt?_eq (h : d₀.Keeps kept d) (hroot : root ∈ kept) (hnormal : root.IsNormal)
    (htop : d₀.directoryAt? root = some (d₀.topAt root)) (hdots : ".." ∉ root.segments) :
    d.directoryAt? root = some (d₀.topAt root) := by
  obtain ⟨hnul, hlong, -, -⟩ := Disk.directoryAt?_eq_some_iff.mp htop
  have hdir := h.isDirectory root hroot
  have hplace : d₀.topAt root = root.route.startAt d.here ++ root.segments := by
    rw [← h.placeFrom root hroot, startAt_route]
    exact Place.lexically_eq_append (hnormal.isName hdots)
  rw [hplace] at hdir
  have hsteps : root.segments.filter isTaken = root.route.names.filter isTaken := by
    rw [Path.filter_names_route hnormal, hnormal.filter_segments]
  have hleads := (leads_below h.wellFormed hdir).of_filter hsteps
  refine Disk.directoryAt?_eq_some_iff.mpr ⟨hnul, hlong, ?_, h.isDirectory root hroot⟩
  rw [Disk.steps_route, hplace]
  exact hleads.walk_eq h.wellFormed (h.wellFormed.isDirectory_of_isDirectory_append hdir)
    (Nat.zero_le _)

end Disk.Keeps

/-! ## Moves -/

/-- A move of an entry below one of the roots to another name in its directory. -/
inductive Move.IsWithin (kept : List Path) : Move → Prop
  | within {root : Path} {front : List String} {x y : String} {isPaired : Bool}
      (hroot : root ∈ kept) (hx : ∀ n ∈ front ++ [x], IsPlain n)
      (hy : ∀ n ∈ front ++ [y], IsPlain n) (hxy : x ≠ y) :
      IsWithin kept ⟨pathText (front ++ [x]), pathText (front ++ [y]), root, isPaired⟩

/-- The moves of the turns of entries below roots. -/
theorem Turns.isWithin {isTaken : Path → Bool} {token : Nat → String} {entries : List Retained}
    {moves : List Move} (h : Turns isTaken token entries moves) (htoken : ∀ n, IsToken (token n))
    (hall : ∀ e ∈ entries, e.root ∈ kept ∧ e.IsVisible ∧ e.changes = true) :
    ∀ m ∈ moves, m.IsWithin kept := by
  intro m hm
  obtain ⟨before, after, rfl⟩ := List.append_of_mem hm
  obtain ⟨front, e, back, _, first, second, rfl, -, hlegs, -⟩ := h.split
  obtain ⟨hroot, hvisible, hchanges⟩ := hall e (by simp)
  have htakes : ∀ {x y : String} {isPaired : Bool}, e.Takes isTaken token x y →
      (e.leg x y isPaired).IsWithin kept := fun htakes =>
    .within hroot (hvisible.isPlain_newNames htakes.isPlain)
      (hvisible.isPlain_newNames htakes.isPlain') htakes.ne
  have hmem : m ∈ first ++ m :: second := by simp
  obtain ⟨heq, hsingle⟩ | ⟨x, heq, hfirst, hsecond⟩ := hlegs.cases htoken hvisible hchanges
  · rw [heq, List.mem_singleton] at hmem
    exact hmem ▸ htakes hsingle
  · rw [heq, List.mem_pair] at hmem
    rcases hmem with rfl | rfl
    · exact htakes hfirst
    · exact htakes hsecond

/-- The moves of a plan. -/
theorem IsPlanOf.isWithin {ignored : List String} {plan : Plan} (h : IsPlanOf w ignored kept plan)
    (ht : w.disk.tree.WellFormed) (htoken : ∀ n, IsToken (w.token n)) :
    ∀ m ∈ plan.moves, m.IsWithin kept := by
  refine h.moves.isWithin htoken fun e he => ?_
  obtain ⟨he, hchanges⟩ := Retained.mem_inOrder_iff.mp he
  obtain ⟨hroot, hretains⟩ := (mem_retained_iff ht).mp he
  exact ⟨hroot, hretains.isVisible ht, hchanges⟩

/-- What a move of a run within a directory has done that succeeds, if it has done anything. -/
theorem World.renamesWithin_of_mover {useVersionControl : Bool} (ht : w.disk.tree.WellFormed)
    (hlinks : w.disk.tree.LinkFree) (hroot : root.IsNormal) (hx : ∀ n ∈ front ++ [x], IsPlain n)
    (hy : ∀ n ∈ front ++ [y], IsPlain n) (hxy : x ≠ y)
    (hsource : m.source = pathText (front ++ [x]))
    (htarget : m.target = pathText (front ++ [y]))
    (h : World.mover useVersionControl m root w = (w', none)) :
    w'.disk = w.disk ∨ w.disk.RenamesWithin root front x y w'.disk := by
  cases useVersionControl with
  | false =>
    rw [World.mover_false] at h
    obtain ⟨hw, hnone⟩ := Prod.mk.inj h
    have hmove : Recase.directMove m root w.disk = (w'.disk, none) :=
      Prod.ext (congrArg World.disk hw) hnone
    have hsrc : root.joinText m.source = root.below (front ++ [x]) :=
      hsource ▸ Path.joinText_pathText root hx
    have hdst : root.joinText m.target = root.below (front ++ [y]) :=
      htarget ▸ Path.joinText_pathText root hy
    obtain ⟨parent, node, henters, hnode, hsize, hd, hway⟩ :=
      directMove_eq_ok ht (hx x (by simp)).isName (hy y (by simp)).isName hxy hsrc hdst hmove
    rw [hd]
    refine .inr (.moved henters hnode ?_ hsize)
    obtain hfree | ⟨target, rfl⟩ | ⟨_, target, -, hlink⟩ := hway
    · exact hfree
    · exact absurd hnode (hlinks _ target)
    · exact absurd hlink (hlinks _ target)
  | true =>
    rw [World.mover_true, hsource, htarget] at h
    rw [← (Prod.mk.inj h).1]
    obtain hsame | htool := World.disk_callTool _ w
    · exact .inl hsame
    · rw [htool]
      exact Disk.renamesWithin_of_toolMove ht hlinks hroot hx hy

/-- Moves that succeed leave the roots where they are. -/
theorem Disk.Keeps.performed {useVersionControl : Bool} {moves : List Move}
    (h : d₀.Keeps kept w.disk) (hkept : ∀ root ∈ kept, root.IsNormal) (hapart : d₀.AreApart kept)
    (hmoves : ∀ m ∈ moves, m.IsWithin kept)
    (hperformed : Performed (World.mover useVersionControl) moves w w') :
    d₀.Keeps kept w'.disk := by
  induction hperformed with
  | nil => exact h
  | cons hmove _ ih =>
    rw [List.forall_mem_cons] at hmoves
    refine ih ?_ hmoves.2
    obtain ⟨hroot, hx, hy, hxy⟩ := hmoves.1
    have hnormal := hkept _ hroot
    obtain hsame | hd :=
      World.renamesWithin_of_mover h.wellFormed h.linkFree hnormal hx hy hxy rfl rfl hmove
    · rwa [hsame]
    · exact h.renamesWithin hapart hroot hnormal hy hd

end Recase
