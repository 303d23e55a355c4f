import Recase.Proofs.Recovery.Turn

/-!
# Recovery that returns

* `Disk.HasLeftoverAt`: the places of the leftovers that are found below roots.
* `Path.IsClear`: the way to a root goes over none of certain places. `IsStraight.isClear`: the way
  to a straight root goes over no leftover.
* `Disk.Finds`: a leftover as it is found below a root, over what the way to the root and the names
  below it go. `exists_finds`: every leftover is found so.
* `exists_locatesInTurn`: from the bottom up, no leftover goes over one that has its turn before.
* `recover_returns`: whether recovery below existing directories returns, and how it fails if not.
-/

namespace Recase

open Name Recase.Tree

variable {d : Disk} {ignored texts : List String} {kept : List Path} {root path : Path}
  {names front : List String} {x : String} {l other : Leftover}

/-- A leftover below one of the roots is at the place. -/
def Disk.HasLeftoverAt (d : Disk) (ignored : List String) (kept : List Path) (place : Place) :
    Prop :=
  ∃ root ∈ kept, ∃ names, root.below names ∈ leftoversBelow d ignored root ∧
    place = d.topAt root ++ names

/-- The way to the root goes over none of the places. -/
def Path.IsClear (root : Path) (d : Disk) (avoided : Place → Prop) : Prop :=
  ∃ n ≤ linkLimit, ∃ trail,
    d.tree.GoesOver n (root.route.startAt d.here) root.segments trail (d.topAt root) ∧
      ∀ place ∈ trail, ¬ avoided place

/-! ## What is found -/

theorem below_injective (h : root.below names = root.below front) : names = front := by
  simpa [Path.below] using h

/-- A leftover is found by its temporary name. -/
theorem isTemporary_of_mem_leftoversBelow
    (h : root.below (front ++ [x]) ∈ leftoversBelow d ignored root) :
    isTemporary x = true := by
  unfold leftoversBelow at h
  split at h
  · cases h
  obtain ⟨names, hnames, heq⟩ := List.mem_map.mp h
  obtain rfl := below_injective heq
  obtain ⟨⟨names, node⟩, hentry, rfl⟩ := List.mem_map.mp ((sortBy_perm _ _).mem_iff.mp hnames)
  have hleftover := (List.mem_filter.mp hentry).2
  simp only [isLeftover, List.getLast?_append, List.getLast?_singleton, Option.some_or,
    Bool.and_eq_true] at hleftover
  exact hleftover.1.2

/-- A leftover below one of the roots, with a way to it that goes over leftovers only below that
root. -/
structure Disk.Finds (d : Disk) (ignored : List String) (kept : List Path) (l : Leftover) :
    Prop where
  located : d.Locates l
  root : l.root ∈ kept
  found : l.path ∈ leftoversBelow d ignored l.root
  parent : l.parent = d.topAt l.root ++ l.front
  trail : ∀ place ∈ l.trail, d.HasLeftoverAt ignored kept place →
    ∃ names, names <+: l.front ∧ place = d.topAt l.root ++ names

namespace Disk.Finds

variable (h : d.Finds ignored kept l)
include h

theorem place_eq : l.place = d.topAt l.root ++ (l.front ++ [l.name]) := by
  rw [Leftover.place, h.parent, List.append_assoc]

theorem hasLeftoverAt : d.HasLeftoverAt ignored kept l.place :=
  ⟨l.root, h.root, _, h.found, h.place_eq⟩

theorem topAt_prefix : d.topAt l.root <+: l.place := h.place_eq ▸ List.prefix_append _ _

end Disk.Finds

/-- A leftover is found over what the way to its root goes, and the directories below that. -/
theorem exists_finds (ht : d.tree.WellFormed) (hroot : root ∈ kept)
    (hclear : root.IsClear d (d.HasLeftoverAt ignored kept))
    (h : path ∈ leftoversBelow d ignored root) :
    ∃ l, d.Finds ignored kept l ∧ l.root = root ∧ l.path = path := by
  obtain ⟨names, rfl, hne, htop, hthere, hplain⟩ := exists_of_mem_leftoversBelow ht h
  obtain ⟨front, x, rfl⟩ := (List.eq_nil_or_concat names).resolve_left hne
  rw [List.concat_eq_append] at h hthere hplain ⊢
  obtain ⟨node, hnode⟩ := Option.ne_none_iff_exists'.mp hthere
  rw [← List.append_assoc] at hnode
  obtain ⟨n, hn, trail, hway, hnot⟩ := hclear
  obtain ⟨below, hbelow, hprefix⟩ := exists_goesOver_below ht (ht.isDirectory_of_concat hnode)
  refine ⟨⟨root, front, x, d.topAt root ++ front, trail ++ below⟩, ?_, rfl, rfl⟩
  refine ⟨⟨(Disk.leads_of_directoryAt? ht htop).1, ⟨n, hn, hway.append hbelow⟩, ?_, ?_,
    isTemporary_of_mem_leftoversBelow h⟩, hroot, h, rfl, fun place hplace hleftover => ?_⟩
  · simpa [Leftover.place] using hthere
  · exact Path.hasNul_below (Disk.directoryAt?_eq_some_iff.mp htop).1 (by simp) hplain
  · rcases List.mem_append.mp hplace with hover | hover
    · exact absurd hleftover (hnot place hover)
    · obtain ⟨names, -, hnames, rfl⟩ := hprefix place hover
      exact ⟨names, hnames, rfl⟩

/-- The way to a straight root goes over no leftover below one of the roots. -/
theorem Path.IsStraight.isClear (h : root.IsStraight d) (hroots : d.HasRoots kept)
    (hroot : root ∈ kept) (htop : d.directoryAt? root = some (d.topAt root)) :
    root.IsClear d (d.HasLeftoverAt ignored kept) := by
  have ht := hroots.wellFormed
  have hnormal := hroots.isNormal root hroot
  have hplace : root.route.startAt d.here ++ root.segments = d.topAt root := by
    rw [← placeFrom_eq_append (hnormal.isName h.dots)]
    exact h.placeFrom_eq ht hnormal htop
  have hdir : d.tree.isDirectory (root.route.startAt d.here ++ root.segments) = true := by
    rw [hplace]
    exact (Disk.directoryAt?_eq_some_iff.mp htop).2.2.2
  obtain ⟨trail, hway, hprefix⟩ := exists_goesOver_below ht hdir
  refine ⟨0, Nat.zero_le _, trail, hplace ▸ hway, ?_⟩
  rintro place hover ⟨other, hother, names, hfound, rfl⟩
  -- it would be on the way to the root that it is below
  obtain ⟨front, -, hfront, heq⟩ := hprefix _ hover
  have hpre : d.topAt other ++ names <+: d.topAt root := by
    rw [heq, ← hplace]
    exact (List.prefix_append_right_inj _).mpr hfront
  obtain rfl := hroots.areApart.eq_of_prefix hother hroot ((List.prefix_append _ _).trans hpre)
  obtain ⟨found, hnames, hne, -⟩ := exists_of_mem_leftoversBelow ht hfound
  obtain rfl := below_injective hnames
  have hlength := hpre.length_le
  rw [List.length_append] at hlength
  exact hne (List.length_eq_zero_iff.mp (by omega))

/-! ## The order of leftovers -/

/-- Leftovers with one path are at one place. -/
theorem Disk.Locates.place_eq (h : d.Locates l) (h' : d.Locates other) (heq : l.path = other.path) :
    l.place = other.place := by
  obtain ⟨n, -, hway⟩ := h.way
  obtain ⟨m, -, hway'⟩ := h'.way
  have hanchor : l.root.anchor = other.root.anchor := by
    simpa [Leftover.path, Path.below] using congrArg Path.anchor heq
  have hsegments : l.root.segments ++ l.front ++ [l.name] = other.root.segments ++
      other.front ++ [other.name] := by
    simpa [Leftover.path, Path.below] using congrArg Path.segments heq
  obtain ⟨hsteps, hname⟩ := List.append_inj' hsegments rfl
  have hstart : l.root.route.startAt d.here = other.root.route.startAt d.here := by
    simp [Route.startAt, Path.route, Path.isRelative, hanchor]
  rw [hstart, hsteps] at hway
  rw [Leftover.place, Leftover.place, (hway.leads.unique hway'.leads).2,
    List.singleton_inj.mp hname]

section Found

variable (hroots : d.HasRoots kept)
include hroots

/-- No path is found twice. -/
theorem nodup_of_finds (hclear : ∀ root ∈ kept, root.IsClear d (d.HasLeftoverAt ignored kept)) :
    (kept.flatMap (leftoversBelow d ignored)).Nodup := by
  refine leftovers_nodup_of_places hroots (fun p place => ∃ l, d.Locates l ∧
    l.path = p ∧ l.place = place) (fun root hroot p hp => ?_) ?_
  · obtain ⟨l, hl, rfl, hpath⟩ := exists_finds hroots.wellFormed hroot (hclear root hroot) hp
    exact ⟨l.place, ⟨l, hl.located, hpath, rfl⟩, hl.topAt_prefix⟩
  · rintro p _ _ ⟨l, hl, hpath, rfl⟩ ⟨l', hl', hpath', rfl⟩
    exact hl.place_eq hl' (hpath.trans hpath'.symm)

/-- A leftover whose path is not shorter, and another one, is not on the way to a leftover. -/
theorem not_mem_trail_of_finds (hl : d.Finds ignored kept l) (hother : d.Finds ignored kept other)
    (hsize : other.path.size ≤ l.path.size) (hne : l.path ≠ other.path) :
    l.place ∉ other.trail ∧ l.place ≠ other.place := by
  refine ⟨fun hmem => ?_, fun hsame => ?_⟩
  · obtain ⟨names, hnames, heq⟩ := hother.trail _ hmem hl.hasLeftoverAt
    have hroot : l.root = other.root := hroots.areApart.eq_of_prefix_of_prefix hl.root hother.root
      hl.topAt_prefix (heq ▸ List.prefix_append _ _)
    rw [hl.place_eq, hroot] at heq
    obtain rfl := List.append_cancel_left heq
    have hfront : other.front.length ≤ l.front.length := by
      simpa [Leftover.path, Path.size, Path.below, Path.isRelative, hroot] using hsize
    have hlength := hnames.length_le
    rw [List.length_append, List.length_singleton] at hlength
    omega
  · have hroot : l.root = other.root := hroots.areApart.eq_of_prefix_of_prefix hl.root hother.root
      hl.topAt_prefix (hsame ▸ hother.topAt_prefix)
    rw [hl.place_eq, hother.place_eq, hroot] at hsame
    rw [Leftover.path, Leftover.path, hroot, List.append_cancel_left hsame] at hne
    exact hne rfl

omit hroots in
/-- Leftovers that are found at paths. -/
theorem exists_finds_map {paths : List Path}
    (h : ∀ p ∈ paths, ∃ l, d.Finds ignored kept l ∧ l.path = p) :
    ∃ ls : List Leftover, (∀ l ∈ ls, d.Finds ignored kept l) ∧ ls.map (·.path) = paths := by
  induction paths with
  | nil => exact ⟨[], by simp, rfl⟩
  | cons p rest ih =>
    rw [List.forall_mem_cons] at h
    obtain ⟨⟨l, hl, rfl⟩, hrest⟩ := h
    obtain ⟨ls, hls, rfl⟩ := ih hrest
    exact ⟨l :: ls, List.forall_mem_cons.mpr ⟨hl, hls⟩, rfl⟩

/-- From the bottom up, no leftover goes over one that has its turn before. -/
theorem exists_locatesInTurn
    (hclear : ∀ root ∈ kept, root.IsClear d (d.HasLeftoverAt ignored kept)) :
    ∃ ls, d.LocatesInTurn ls ∧
      ls.map (·.path) = recoveryOrder (kept.flatMap (leftoversBelow d ignored)) := by
  obtain ⟨ls, hls, hpaths⟩ : ∃ ls : List Leftover, (∀ l ∈ ls, d.Finds ignored kept l) ∧
      ls.map (·.path) = recoveryOrder (kept.flatMap (leftoversBelow d ignored)) := by
    refine exists_finds_map fun p hp => ?_
    obtain ⟨root, hroot, hfound⟩ := List.mem_flatMap.mp (mem_recoveryOrder.mp hp)
    obtain ⟨l, hl, -, hpath⟩ := exists_finds hroots.wellFormed hroot (hclear root hroot) hfound
    exact ⟨l, hl, hpath⟩
  have hordered := recoveryOrder_pairwise (nodup_of_finds hroots hclear)
  rw [← hpaths, List.pairwise_map] at hordered
  refine ⟨ls, ⟨fun l hl => (hls l hl).located, ?_⟩, hpaths⟩
  exact hordered.imp_of_mem fun {a b} ha hb hab =>
    not_mem_trail_of_finds hroots (hls a ha) (hls b hb) hab.1 hab.2

end Found

/-! ## The whole recovery -/

/-- Recovery below existing directories finds its leftovers. If no way to one of the roots that are
kept goes over a leftover, as none does that is straight, it returns, unless the intended name of a
leftover is a dot or its path is too long. It fails for these two reasons only, and always for the
first. -/
theorem recover_returns (ht : d.tree.WellFormed)
    (hdirs : ∀ text ∈ texts, ∃ top, d.directoryAt? (Path.parse text) = some top)
    (ignored : List String) :
    ∃ kept found, outermostRoots d (texts.map .ofText) = .ok kept ∧
      leftovers d ignored (texts.map .ofText) = .ok found ∧
      (∀ root ∈ kept, root.IsStraight d → root.IsClear d (d.HasLeftoverAt ignored kept)) ∧
      ((∀ root ∈ kept, root.IsClear d (d.HasLeftoverAt ignored kept)) →
        ((∀ p ∈ found, intendedPath p ≠ .error (.invalidName ".") ∧ p.route.isTooLong = false) →
          ∃ pairs d', recover d ignored (texts.map .ofText) = (.ok pairs, d')) ∧
        (∀ failure d', recover d ignored (texts.map .ofText) = (.error failure, d') →
          ∃ p ∈ found, p.FailsWith failure) ∧
        ((∃ p ∈ found, intendedPath p = .error (.invalidName ".")) →
          ∃ failure d', recover d ignored (texts.map .ofText) = (.error failure, d'))) := by
  have hnormal := isNormal_ofText texts
  obtain ⟨kept, hkept⟩ := exists_outermostRoots ht hdirs
  have hroots := hasRoots_of_outermostRoots ht hnormal hkept
  have hfound :
      leftovers d ignored (texts.map .ofText) = .ok (kept.flatMap (leftoversBelow d ignored)) := by
    rw [leftovers, hkept]
    rfl
  have hrecover : recover d ignored (texts.map .ofText) =
      recoverFrom d (recoveryOrder (kept.flatMap (leftoversBelow d ignored))) := by
    rw [recover, hfound]
    rfl
  refine ⟨kept, _, hkept, hfound, fun root hroot hstraight => ?_, fun hclear => ?_⟩
  · exact hstraight.isClear hroots hroot (directoryAt?_of_mem_outermostRoots ht hnormal hkept hroot)
  obtain ⟨ls, hls, hpaths⟩ := exists_locatesInTurn hroots hclear
  have hreturns := recoverFrom_of_locatesInTurn ht hls
  rw [hpaths, ← hrecover] at hreturns
  refine ⟨fun hsound => ?_, fun failure d' hfailed => ?_, ?_⟩
  · refine hreturns.resolve_right ?_
    rintro ⟨failure, d', -, p, hp, hfails⟩
    obtain ⟨hname, hshort⟩ := hsound p (mem_recoveryOrder.mp hp)
    cases hfails with
    | dotted hdot => exact hname hdot
    | tooLong hlong => exact absurd hlong (by simp [hshort])
  · obtain ⟨pairs, d'', hdone⟩ | ⟨other, d'', hother, p, hp, hfails⟩ := hreturns
    · cases hdone.symm.trans hfailed
    · cases hother.symm.trans hfailed
      exact ⟨p, mem_recoveryOrder.mp hp, hfails⟩
  · rintro ⟨p, hp, hdot⟩
    rw [hrecover]
    exact recoverFrom_of_intendedPath_error (mem_recoveryOrder.mpr hp) hdot

theorem recover_returns_stranded :
    ∃ pairs d', recover ⟨.stranded, [], []⟩ ["dist"] (["."].map .ofText) = (.ok pairs, d') := by
  have hfound : leftovers ⟨.stranded, [], []⟩ ["dist"] (["."].map .ofText) =
      .ok [⟨.relative, ["a.temp-rename"]⟩, ⟨.relative, ["x.temp-rename"]⟩,
        ⟨.relative, ["a.temp-rename", "x.temp-rename"]⟩] := by decide +kernel
  have hkept : outermostRoots ⟨.stranded, [], []⟩ (["."].map .ofText) = .ok [⟨.relative, []⟩] := by
    decide +kernel
  have hdirs : ∀ text ∈ ["."],
      ∃ top, (⟨.stranded, [], []⟩ : Disk).directoryAt? (Path.parse text) = some top := by
    intro text htext
    obtain rfl := List.mem_singleton.mp htext
    exact ⟨[], by decide +kernel⟩
  obtain ⟨kept, found, hkept', hfound', hclear, hreturns⟩ :=
    recover_returns (d := ⟨.stranded, [], []⟩) (by decide) hdirs ["dist"]
  obtain rfl := Except.ok.inj (hkept'.symm.trans hkept)
  obtain rfl := Except.ok.inj (hfound'.symm.trans hfound)
  refine (hreturns fun root hroot => hclear root hroot ?_).1 (by decide +kernel)
  obtain rfl := List.mem_singleton.mp hroot
  exact Path.isStraight_dot rfl

/-- A leftover with nothing but the suffix after its first dot, and one further down. -/
def Tree.dotNamed : Tree :=
  ⟨[(["sub"], .directory), (["sub", "x.temp-rename"], .file ⟨#[]⟩),
    (["..temp-rename"], .file ⟨#[]⟩)]⟩

/-- Recovery below an existing directory fails, after a move that it does not return. -/
theorem recover_dotNamed :
    Tree.dotNamed.WellFormed ∧
      (⟨.dotNamed, [], []⟩ : Disk).directoryAt? (Path.parse ".") = some [] ∧
      ∃ d', recover ⟨.dotNamed, [], []⟩ [] (["."].map .ofText) = (.error (.invalidName "."), d') ∧
        d'.tree.node? ["sub", "x.temp-rename"] = none ∧
        d'.tree.node? ["sub", "x"] = some (.file ⟨#[]⟩) := by
  refine ⟨by decide, by decide +kernel, (recover ⟨.dotNamed, [], []⟩ [] (["."].map .ofText)).2,
    Prod.ext ?_ rfl, ?_, ?_⟩ <;> decide +kernel

end Recase
