import Recase.Proofs.Frame
import Recase.Proofs.Interrupted
import Recase.Proofs.Straight

/-!
# Recovery

What recovery does with the leftovers that it has found, one after the other.

* `recoverOne_cases`: a leftover is passed over where something has its intended path, and has
  otherwise got its intended name, under which there was nothing.
* `Disk.Restores`, `Disk.Replays`: one move of a recovery, and all of them. `Disk.CarriesAll`: every
  entry is where changes have left it, and there is nothing else.
* `holdsInOrder_recoveryOrder`: no leftover is in one that has its turn before, so that the paths of
  the others stay (`replays_of_recoverFrom`).
* `recover_replays`: a recovery that returns has made the moves that it returns, each to a free
  name. What it has passed over had its intended path taken, and its own path was valid still.
-/

namespace Recase

open Name Recase.Tree

variable {d d' d'' : Disk} {ignored texts : List String} {kept : List Path} {roots : List Root}
  {path intended : Path} {paths found : List Path} {intended? : Option Path}

/-! ## One leftover -/

/-- A renaming to a free path of the same directory that succeeds has given an entry a free name. -/
theorem Disk.exists_renamesWithin_of_rename (ht : d.tree.WellFormed) {src dst : Path}
    (hsrc : src.IsNormal) (hdst : dst.IsNormal) (hparent : dst.parent = src.parent)
    (h : d.rename src.route dst.route = .ok d')
    (hfree : d.hasEntry dst.route = false) :
    ∃ x y, IsPlain y ∧ src = src.parent.child x ∧ dst = src.parent.child y ∧
      d.RenamesWithin src.parent [] x y d' := by
  obtain ⟨-, hnul, places, hplaces, rfl⟩ := renamePlaces_of_rename h
  obtain ⟨above, above', x, y, node, habove, habove', hlast, hlast', hnode, hsize, -, -, hcases⟩ :=
    exists_of_renamePlaces hplaces
  obtain ⟨hx, hsrcBelow⟩ := Path.eq_below_of_lastName? hsrc hlast
  obtain ⟨hy, hdstBelow⟩ := Path.eq_below_of_lastName? hdst hlast'
  rw [hparent] at hdstBelow
  rw [hsrcBelow] at habove
  rw [hdstBelow] at habove' hnul hfree hdst
  obtain ⟨-, henters⟩ := (parentOf_eq_ok_iff ht).mp habove
  obtain ⟨hshort, henters'⟩ := (parentOf_eq_ok_iff ht).mp habove'
  obtain rfl := henters.unique henters'
  have hvacant : d.tree.node? (above ++ [y]) = none := by
    by_contra hthere
    have hentry := (henters.hasEntry_eq ht hy hnul hshort).mpr ⟨hsize, hthere⟩
    rw [hfree] at hentry
    cases hentry
  obtain ⟨hsame, -⟩ | ⟨-, -, rfl⟩ := hcases
  · rw [hsame, hvacant] at hnode
    cases hnode
  have hmem : y ∈ (src.parent.below ([] ++ [y])).segments := by simp [Path.below]
  refine ⟨x, y, ⟨hy.ne_empty, hy.ne_dot, hy.ne_dots, (hdst y hmem).2, ?_⟩, hsrcBelow, hdstBelow,
    .moved henters hnode hvacant hsize⟩
  rw [Path.route_below (by simp)] at hnul
  simp only [Route.hasNul, List.any_append, Bool.or_eq_false_iff] at hnul
  simpa using hnul.2

/-- The intended path is one of the same directory. -/
theorem intendedPath_facts (hpath : path.IsNormal) (h : intendedPath path = .ok intended) :
    intended.IsNormal ∧ intended.parent = path.parent := by
  unfold intendedPath at h
  dsimp only at h
  split at h <;> cases h
  rename_i hintended
  unfold Path.withName? at hintended
  split at hintended <;> cases hintended
  rename_i hname
  simp only [Bool.or_eq_true, not_or, String.isEmpty_iff, beq_iff_eq, List.contains_eq_mem,
    decide_eq_true_eq] at hname
  refine ⟨fun s hs => ?_, by simp [Path.parent, Path.child]⟩
  rcases List.mem_append.mp hs with hs | hs
  · exact hpath s (List.dropLast_subset _ hs)
  · rw [List.mem_singleton.mp hs]
    refine ⟨?_, hname.2⟩
    rw [← Bool.not_eq_false, isTaken_eq_false_iff]
    exact not_or.mpr hname.1

/-- What becomes of one leftover: it is passed over, for something has its intended path, or it has
got its intended name. -/
theorem recoverOne_cases (ht : d.tree.WellFormed) (hpath : path.IsNormal)
    (h : recoverOne d path = .ok (intended?, d')) :
    ∃ intended, intendedPath path = .ok intended ∧
      ((intended? = none ∧ d' = d ∧ d.hasEntry intended.route = true) ∨
        intended? = some intended ∧ d.rename path.route intended.route = .ok d' ∧
          ∃ x y, IsPlain y ∧ path = path.parent.child x ∧ intended = path.parent.child y ∧
            d.RenamesWithin path.parent [] x y d') := by
  obtain ⟨intended, hintended, h⟩ := exists_of_bind_eq_ok h
  obtain ⟨hnormal, hparent⟩ := intendedPath_facts hpath hintended
  refine ⟨intended, hintended, ?_⟩
  split at h
  · rename_i htaken
    cases h
    exact .inl ⟨rfl, rfl, htaken⟩
  rename_i hfree
  split at h
  · rename_i hrename
    cases h
    exact .inr ⟨rfl, hrename,
      Disk.exists_renamesWithin_of_rename ht hpath hnormal hparent hrename (by simpa using hfree)⟩
  · cases h
  · cases h

namespace Disk

/-- A leftover has been moved to its intended path, where there was nothing. -/
structure Restores (d : Disk) (temporary intended : Path) (d' : Disk) : Prop where
  isIntended : intendedPath temporary = .ok intended
  renamed : d.rename temporary.route intended.route = .ok d'
  there : d.tree.node? (temporary.placeFrom d.here) ≠ none
  free : d.tree.node? (intended.placeFrom d.here) = none
  moved : d' = d.commit (.moved (temporary.placeFrom d.here) (intended.placeFrom d.here))
  carries : d.tree.Carries d'.tree (temporary.placeFrom d.here) (intended.placeFrom d.here)

/-- Leftovers have been moved to their intended paths, one after the other. -/
inductive Replays : Disk → List (Path × Path) → Disk → Prop
  | nil (d : Disk) : Replays d [] d
  | cons {d between d' : Disk} {temporary intended : Path} {pairs : List (Path × Path)}
      (hfirst : d.Restores temporary intended between) (hrest : Replays between pairs d') :
      Replays d ((temporary, intended) :: pairs) d'

/-- A leftover that gets its intended name has been moved there. -/
theorem RenamesWithin.restores {dir : Path} {x y : String} (h : d.RenamesWithin dir [] x y d')
    (ht : d.tree.WellFormed) (hfirst : d.Holds (dir.child x)) (hy : IsPlain y)
    (hintended : intendedPath (dir.child x) = .ok (dir.child y))
    (hrename : d.rename (dir.child x).route (dir.child y).route = .ok d') :
    d.Restores (dir.child x) (dir.child y) d' := by
  obtain ⟨node, hnode, hfree, hcommit⟩ := h.eq_commit ht hfirst
  have hsource := hfirst.placeFrom_eq
  have htarget : (dir.child y).placeFrom d.here = dir.placeFrom d.here ++ [y] :=
    Path.placeFrom_child hy.isName
  refine ⟨hintended, hrename, hfirst.there, ?_, ?_, ?_⟩
  · rw [htarget, hfree]
  · rw [hsource, htarget, hcommit]
  · rw [hsource, htarget, hcommit]
    exact ht.carries_within hnode hfree

/-! ## Nothing is lost -/

/-- Every entry is where the changes have left it, and each place is that of the entry that was left
there. -/
structure CarriesAll (d : Disk) (made : List Change) (d' : Disk) : Prop where
  becomes : d.Becomes made d'
  node? : ∀ place, d.tree.node? place ≠ none →
    d'.tree.node? (placeAfterAll made place) = d.tree.node? place
  injective : ∀ place other, d.tree.node? place ≠ none → d.tree.node? other ≠ none →
    placeAfterAll made place = placeAfterAll made other → place = other
  exists_of_node? : ∀ place, d'.tree.node? place ≠ none →
    ∃ source, d.tree.node? source ≠ none ∧ placeAfterAll made source = place

protected theorem CarriesAll.refl (d : Disk) : d.CarriesAll [] d where
  becomes := .refl d
  node? _ _ := rfl
  injective _ _ _ _ h := h
  exists_of_node? place h := ⟨place, h, rfl⟩

protected theorem CarriesAll.trans {made more : List Change} (h : d.CarriesAll made d')
    (h' : d'.CarriesAll more d'') : d.CarriesAll (made ++ more) d'' where
  becomes := h.becomes.trans h'.becomes
  node? place hplace := by
    have hnode := h.node? place hplace
    rw [placeAfterAll_append, h'.node? _ (hnode ▸ hplace), hnode]
  injective place other hplace hother heq := by
    rw [placeAfterAll_append, placeAfterAll_append] at heq
    have hnode := h.node? place hplace
    have hnode' := h.node? other hother
    exact h.injective place other hplace hother
      (h'.injective _ _ (hnode ▸ hplace) (hnode' ▸ hother) heq)
  exists_of_node? place hplace := by
    obtain ⟨between, hbetween, rfl⟩ := h'.exists_of_node? place hplace
    obtain ⟨source, hsource, rfl⟩ := h.exists_of_node? between hbetween
    exact ⟨source, hsource, placeAfterAll_append made more source⟩

/-- A leftover that has been moved carries what is in it along. All else stays. -/
theorem Restores.carriesAll {temporary intended : Path} (h : d.Restores temporary intended d') :
    d.CarriesAll [.moved (temporary.placeFrom d.here) (intended.placeFrom d.here)] d' := by
  have hcarries := h.carries
  have hclear : ∀ place, d.tree.node? place ≠ none → ¬ intended.placeFrom d.here <+: place := by
    rintro place hplace ⟨rest, rfl⟩
    rcases eq_or_ne rest [] with rfl | hne
    · rw [List.append_nil, h.free] at hplace
      exact hplace rfl
    · exact hplace (hcarries.clear rest hne)
  refine ⟨h.moved ▸ becomes_commit d _,
    fun place hplace => hcarries.node?_carried (hclear place hplace),
    fun place other hplace hother => carried_injective (hclear place hplace) (hclear other hother),
    fun place hplace => ?_⟩
  by_cases hdst : intended.placeFrom d.here <+: place
  · obtain ⟨rest, rfl⟩ := hdst
    rw [hcarries.carried] at hplace
    exact ⟨_, hplace, Place.carried_append _ _ _⟩
  · have hsrc : ¬ temporary.placeFrom d.here <+: place := by
      rintro ⟨rest, rfl⟩
      exact hplace (hcarries.left rest)
    rw [hcarries.kept place hsrc hdst] at hplace
    exact ⟨place, hplace, Place.carried_of_not_prefix hsrc⟩

end Disk

/-! ## Leftovers one after the other -/

section Leftovers

variable {pairs : List (Path × Path)}

/-- A recovery returns if no leftover fails. -/
theorem recoverFrom_cons_eq_ok_iff {path : Path} {rest : List Path} :
    recoverFrom d (path :: rest) = (.ok pairs, d') ↔
      ∃ intended? next more, recoverOne d path = .ok (intended?, next) ∧
        recoverFrom next rest = (.ok more, d') ∧
        pairs = (intended?.map (path, ·)).toList ++ more := by
  rw [recoverFrom_cons]
  cases recoverOne d path with
  | error failure => simp
  | ok result =>
    obtain ⟨intended?, next⟩ := result
    cases hrest : recoverFrom next rest with
    | mk after last =>
      cases after with
      | error failure => simp [hrest, Except.map]
      | ok more => simp [hrest, Except.map, eq_comm, and_comm]

/-- What a recovery has done that returns, up to any of its leftovers. -/
theorem exists_of_recoverFrom_append {front back : List Path}
    (h : recoverFrom d (front ++ back) = (.ok pairs, d')) :
    ∃ done more between, pairs = done ++ more ∧ recoverFrom d front = (.ok done, between) ∧
      recoverFrom between back = (.ok more, d') := by
  induction front generalizing d pairs with
  | nil => exact ⟨[], pairs, d, rfl, rfl, h⟩
  | cons path front ih =>
    obtain ⟨intended?, next, rest, hone, hrest, rfl⟩ := recoverFrom_cons_eq_ok_iff.mp h
    obtain ⟨done, more, between, rfl, hfront, hback⟩ := ih hrest
    exact ⟨_, more, between, (List.append_assoc _ _ _).symm,
      recoverFrom_cons_eq_ok_iff.mpr ⟨intended?, next, done, hone, hfront, rfl⟩, hback⟩

/-- The paths of leftovers, each of which leads to an entry that is in none of those before it. -/
structure Disk.HoldsInOrder (d : Disk) (paths : List Path) : Prop where
  isNormal : ∀ p ∈ paths, p.IsNormal
  ne_nil : ∀ p ∈ paths, p.segments ≠ []
  holds : ∀ p ∈ paths, d.Holds p
  apart : paths.Pairwise fun a b => ¬ a.placeFrom d.here <+: b.placeFrom d.here

theorem Disk.HoldsInOrder.sublist {front : List Path} (h : d.HoldsInOrder paths)
    (hsub : front.Sublist paths) :
    d.HoldsInOrder front where
  isNormal p hp := h.isNormal p (hsub.subset hp)
  ne_nil p hp := h.ne_nil p (hsub.subset hp)
  holds p hp := h.holds p (hsub.subset hp)
  apart := h.apart.sublist hsub

/-- The others are in order still when the first has had its turn. -/
theorem Disk.HoldsInOrder.tail {path : Path} {rest : List Path} (h : d.HoldsInOrder (path :: rest))
    (hkept : ∀ p ∈ rest, p.IsKept d d') : d'.HoldsInOrder rest where
  isNormal p hp := h.isNormal p (List.mem_cons_of_mem _ hp)
  ne_nil p hp := h.ne_nil p (List.mem_cons_of_mem _ hp)
  holds p hp := (h.holds p (List.mem_cons_of_mem _ hp)).of_isKept (hkept p hp)
  apart := (List.pairwise_cons.mp h.apart).2.imp_of_mem fun ha hb hab => by
    rwa [(hkept _ ha).place, (hkept _ hb).place]

/-- One turn: the leftover is passed over or moved, and what is not in it stays. -/
theorem Disk.HoldsInOrder.turn {path : Path} {rest : List Path} (h : d.HoldsInOrder (path :: rest))
    (ht : d.tree.WellFormed) (hone : recoverOne d path = .ok (intended?, d')) :
    (intended? = none ∧ d' = d ∨
        ∃ intended, intended? = some intended ∧ d.Restores path intended d') ∧
      d'.tree.WellFormed ∧
      ∀ p, d.Holds p → ¬ path.placeFrom d.here <+: p.placeFrom d.here → p.IsKept d d' := by
  have hholds := h.holds path List.mem_cons_self
  obtain ⟨intended, hintended, ⟨rfl, rfl, -⟩ | ⟨rfl, hrename, x, y, hy, hpath, hto, hwithin⟩⟩ :=
    recoverOne_cases ht (h.isNormal path List.mem_cons_self) hone
  · exact ⟨.inl ⟨rfl, rfl⟩, ht, fun p _ _ => .refl p _⟩
  · generalize path.parent = dir at hpath hto hwithin
    subst hpath hto
    exact ⟨.inr ⟨_, rfl, hwithin.restores ht hholds hy hintended hrename⟩, hwithin.wellFormed ht hy,
      fun p hp hpre => hwithin.isKept ht hholds hp hpre⟩

/-- A recovery that returns has made the moves that it returns. What is in none of its leftovers has
stayed. -/
theorem replays_of_recoverFrom (ht : d.tree.WellFormed) (hpaths : d.HoldsInOrder paths)
    (h : recoverFrom d paths = (.ok pairs, d')) :
    d.Replays pairs d' ∧ d'.tree.WellFormed ∧
      ∀ p, d.Holds p → (∀ a ∈ paths, ¬ a.placeFrom d.here <+: p.placeFrom d.here) →
          p.IsKept d d' := by
  induction paths generalizing d pairs with
  | nil =>
    cases h
    exact ⟨.nil _, ht, fun p _ _ => .refl p _⟩
  | cons path rest ih =>
    obtain ⟨intended?, next, more, hone, hrest, rfl⟩ := recoverFrom_cons_eq_ok_iff.mp h
    obtain ⟨hturn, ht', hkept⟩ := hpaths.turn ht hone
    -- no leftover after it is in this one, so their paths still lead where they did
    have hothers : ∀ p ∈ rest, p.IsKept d next := fun p hp =>
      hkept p (hpaths.holds p (List.mem_cons_of_mem _ hp))
        ((List.pairwise_cons.mp hpaths.apart).1 p hp)
    obtain ⟨hreplays, ht'', hstays⟩ := ih ht' (hpaths.tail hothers) hrest
    refine ⟨?_, ht'', fun p hp hpre => ?_⟩
    · obtain ⟨rfl, rfl⟩ | ⟨intended, rfl, hrestores⟩ := hturn
      · exact hreplays
      · exact .cons hrestores hreplays
    · have hfirst := hkept p hp (hpre path List.mem_cons_self)
      refine hfirst.trans (hstays p (hp.of_isKept hfirst) fun a ha => ?_)
      rw [(hothers a ha).place, hfirst.place]
      exact hpre a (List.mem_cons_of_mem _ ha)

/-- The moves that a recovery returns are those of leftovers. -/
theorem mem_of_recoverFrom (h : recoverFrom d paths = (.ok pairs, d')) :
    ∀ pair ∈ pairs, pair.1 ∈ paths := by
  induction paths generalizing d pairs with
  | nil =>
    cases h
    simp
  | cons path rest ih =>
    obtain ⟨intended?, next, more, -, hrest, rfl⟩ := recoverFrom_cons_eq_ok_iff.mp h
    intro pair hpair
    rcases List.mem_append.mp hpair with hpair | hpair
    · obtain ⟨intended, -, rfl⟩ := Option.map_eq_some_iff.mp (Option.mem_toList.mp hpair)
      exact List.mem_cons_self
    · exact List.mem_cons_of_mem _ (ih hrest pair hpair)

/-- What has been replayed has lost nothing. -/
theorem Disk.Replays.exists_carriesAll (h : d.Replays pairs d') : ∃ made, d.CarriesAll made d' := by
  induction h with
  | nil d => exact ⟨[], .refl d⟩
  | cons hfirst _ ih =>
    obtain ⟨made, hmade⟩ := ih
    exact ⟨_, hfirst.carriesAll.trans hmade⟩

end Leftovers

/-! ## The order of leftovers -/

/-- Leftovers in the order in which they have their turns, from the bottom up. -/
def recoveryOrder (found : List Path) : List Path :=
  sortBy (fun a b => decide (b.size ≤ a.size)) found

theorem mem_recoveryOrder : path ∈ recoveryOrder found ↔ path ∈ found := (sortBy_perm _ _).mem_iff

/-- No leftover has its turn before one with a longer path, or before itself. -/
theorem recoveryOrder_pairwise (h : found.Nodup) :
    (recoveryOrder found).Pairwise fun a b => b.size ≤ a.size ∧ a ≠ b := by
  have hsorted : (recoveryOrder found).Pairwise fun a b => decide (b.size ≤ a.size) = true :=
    sortBy_pairwise (by simp; omega) (by simp; omega) _
  have hnodup : (recoveryOrder found).Nodup := (sortBy_perm _ _).nodup_iff.mpr h
  exact (hsorted.and hnodup).imp fun hab => ⟨of_decide_eq_true hab.1, hab.2⟩

/-- Leftovers are found where names below a root lead to an entry. -/
theorem exists_of_mem_leftoversBelow {root : Path} (ht : d.tree.WellFormed)
    (h : path ∈ leftoversBelow d ignored root) :
    ∃ names, path = root.below names ∧ names ≠ [] ∧ d.directoryAt? root = some (d.topAt root) ∧
      d.tree.node? (d.topAt root ++ names) ≠ none ∧ ∀ n ∈ names, IsPlain n := by
  unfold leftoversBelow at h
  split at h
  · cases h
  rename_i top htop
  obtain ⟨names, hnames, rfl⟩ := List.mem_map.mp h
  obtain ⟨⟨names, node⟩, hentry, rfl⟩ := List.mem_map.mp ((sortBy_perm _ _).mem_iff.mp hnames)
  obtain ⟨hne, hmem⟩ := mem_below_iff.mp (List.mem_filter.mp hentry).1
  have hnode := ht.node?_of_mem hmem
  rw [Disk.topAt_eq htop]
  exact ⟨names, rfl, hne, htop, by simp [hnode],
    fun n hn => ht.isPlain hnode (List.mem_append_right _ hn)⟩

theorem isNormal_of_mem_leftovers (ht : d.tree.WellFormed) (hroots : ∀ r ∈ roots, r.path.IsNormal)
    (h : leftovers d ignored roots = .ok paths) : ∀ path ∈ paths, path.IsNormal := by
  intro path hpath
  obtain ⟨kept, hkept, h⟩ := exists_of_bind_eq_ok h
  cases h
  obtain ⟨root, hroot, hfound⟩ := List.mem_flatMap.mp hpath
  obtain ⟨names, rfl, -, -, -, hplain⟩ := exists_of_mem_leftoversBelow ht hfound
  exact (isNormal_of_mem_outermostRoots ht hroots hkept hroot).below hplain

theorem leftoversBelow_nodup (ht : d.tree.WellFormed) (root : Path) :
    (leftoversBelow d ignored root).Nodup := by
  unfold leftoversBelow
  split
  · exact List.nodup_nil
  · rename_i top htop
    have hnames :
        (((d.tree.below top).filter fun e => isLeftover d ignored root e.1 e.2).map (·.1)).Nodup :=
      List.pairwise_map.mpr ((below_pairwise ht top).filter _)
    refine ((sortBy_perm _ _).nodup_iff.mpr hnames).map fun a b hab => ?_
    simpa [Path.below] using hab

/-- No leftover is found below two roots that lie in no other, if its path tells where it is. -/
theorem leftovers_nodup_of_places (h : d.HasRoots kept) (leadsTo : Path → Place → Prop)
    (hplace : ∀ root ∈ kept, ∀ p ∈ leftoversBelow d ignored root,
      ∃ place, leadsTo p place ∧ d.topAt root <+: place)
    (hunique : ∀ p place other, leadsTo p place → leadsTo p other → place = other) :
    (kept.flatMap (leftoversBelow d ignored)).Nodup := by
  refine List.pairwise_flatMap.mpr ⟨fun root _ => leftoversBelow_nodup h.wellFormed root,
    h.areApart.imp_of_mem fun {root other} hroot hother hapart => ?_⟩
  rintro p hp _ hp' rfl
  obtain ⟨place, hleads, hbelow⟩ := hplace root hroot p hp
  obtain ⟨place', hleads', hbelow'⟩ := hplace other hother p hp'
  obtain rfl := hunique p place place' hleads hleads'
  exact (List.prefix_or_prefix_of_prefix hbelow hbelow').elim hapart.1 hapart.2

/-- A leftover with names that lead to it from a straight root. -/
structure Disk.IsLeftoverAt (d : Disk) (root : Path) (names : List String) (p : Path) : Prop where
  eq_below : p = root.below names
  ne_nil : names ≠ []
  isNormal : p.IsNormal
  holds : d.Holds p
  place : p.placeFrom d.here = d.topAt root ++ names

theorem exists_isLeftoverAt {root : Path} (ht : d.tree.WellFormed) (hroot : root.IsNormal)
    (hstraight : root.IsStraight d) (h : path ∈ leftoversBelow d ignored root) :
    ∃ names, d.IsLeftoverAt root names path := by
  obtain ⟨names, rfl, hne, hdir, hthere, hplain⟩ := exists_of_mem_leftoversBelow ht h
  obtain ⟨hholds, hplace⟩ := hstraight.holds_below ht hroot hdir hplain hne hthere
  exact ⟨names, rfl, hne, hroot.below hplain, hholds, hplace⟩

section Order

variable (h : d.HasRoots kept) (hstraight : ∀ root ∈ kept, root.IsStraight d)
include h hstraight

theorem leftovers_nodup : (kept.flatMap (leftoversBelow d ignored)).Nodup := by
  refine leftovers_nodup_of_places h (fun p place => p.placeFrom d.here = place)
    (fun root hroot p hp => ?_) (fun _ _ _ heq heq' => heq.symm.trans heq')
  obtain ⟨names, hnames⟩ :=
    exists_isLeftoverAt h.wellFormed (h.isNormal root hroot) (hstraight root hroot) hp
  exact ⟨_, rfl, hnames.place ▸ List.prefix_append _ _⟩

/-- Below straight roots that lie in no other, no leftover is in one that has its turn before. -/
theorem holdsInOrder_recoveryOrder :
    d.HoldsInOrder (recoveryOrder (kept.flatMap (leftoversBelow d ignored))) := by
  have hat : ∀ p ∈ recoveryOrder (kept.flatMap (leftoversBelow d ignored)),
      ∃ root ∈ kept, ∃ names, d.IsLeftoverAt root names p := by
    intro p hp
    obtain ⟨root, hroot, hp⟩ := List.mem_flatMap.mp (mem_recoveryOrder.mp hp)
    exact ⟨root, hroot,
      exists_isLeftoverAt h.wellFormed (h.isNormal root hroot) (hstraight root hroot) hp⟩
  refine ⟨fun p hp => ?_, fun p hp => ?_, fun p hp => ?_,
    (recoveryOrder_pairwise (leftovers_nodup h hstraight)).imp_of_mem
      fun {a b} ha hb hab hpre => hab.2 ?_⟩
  · obtain ⟨root, -, names, hnames⟩ := hat p hp
    exact hnames.isNormal
  · obtain ⟨root, -, names, hnames⟩ := hat p hp
    simp [hnames.eq_below, Path.below, hnames.ne_nil]
  · obtain ⟨root, -, names, hnames⟩ := hat p hp
    exact hnames.holds
  · -- what is in another leftover is below the same root, and not at the end of a shorter path
    obtain ⟨root, hroot, names, hnames⟩ := hat a ha
    obtain ⟨other, hother, names', hnames'⟩ := hat b hb
    rw [hnames.place, hnames'.place] at hpre
    obtain rfl := h.areApart.eq_of_prefix_of_prefix hroot hother
      ((List.prefix_append _ _).trans hpre) (List.prefix_append _ _)
    have hsame := (List.prefix_append_right_inj _).mp hpre
    have hsize := hab.1
    rw [hnames.eq_below, hnames'.eq_below] at hsize ⊢
    rw [hsame.eq_of_length_le (by simpa [Path.size, Path.below, Path.isRelative] using hsize)]

end Order

/-! ## The whole recovery -/

/-- A leftover is passed over when its turn comes: something has its intended path. Its own path is
valid still, and leads to what it led to at first. -/
structure Disk.PassesOver (d : Disk) (p : Path) (between : Disk) : Prop where
  isTaken : ∃ intended, intendedPath p = .ok intended ∧ between.hasEntry intended.route = true
  isKept : p.IsKept d between
  hasEntry : p.route.isTooLong = false → between.hasEntry p.route = true

/-- A leftover that is not among those moved has been passed over. -/
theorem passesOver_of_recoverFrom {front back : List Path} {pairs : List (Path × Path)}
    (ht : d.tree.WellFormed) (hpaths : d.HoldsInOrder (front ++ path :: back))
    (h : recoverFrom d (front ++ path :: back) = (.ok pairs, d')) (hnot : path ∉ pairs.map (·.1)) :
    ∃ done between, recoverFrom d front = (.ok done, between) ∧ d.PassesOver path between := by
  obtain ⟨done, more, between, rfl, hfront, hback⟩ := exists_of_recoverFrom_append h
  obtain ⟨intended?, next, rest, hone, -, rfl⟩ := recoverFrom_cons_eq_ok_iff.mp hback
  obtain ⟨-, ht', hstays⟩ :=
    replays_of_recoverFrom ht (hpaths.sublist (List.sublist_append_left _ _)) hfront
  have hmem : path ∈ front ++ path :: back := List.mem_append_right _ List.mem_cons_self
  have hholds := hpaths.holds path hmem
  have hkept : path.IsKept d between := hstays path hholds fun a ha =>
    (List.pairwise_append.mp hpaths.apart).2.2 a ha path List.mem_cons_self
  refine ⟨done, between, hfront, ?_, hkept, fun hshort => ?_⟩
  · obtain ⟨intended, hintended, ⟨-, -, htaken⟩ | ⟨rfl, -⟩⟩ :=
      recoverOne_cases ht' (hpaths.isNormal path hmem) hone
    · exact ⟨intended, hintended, htaken⟩
    · exact absurd (by simp) hnot
  · obtain ⟨dir, x, rfl⟩ := Path.exists_eq_child (hpaths.ne_nil path hmem)
    exact (hholds.of_isKept hkept).hasEntry ht' hshort

/-- A recovery below roots without two dots and links, if it returns, has made the moves that it
returns, each to a free path, and nothing has been lost. A leftover that it has not moved had its
intended path taken when its turn came, and its own path was valid still. -/
theorem recover_replays {pairs : List (Path × Path)} (ht : d.tree.WellFormed)
    (hstraight : ∀ text ∈ texts, (Path.parse text).IsStraight d)
    (h : recover d ignored (texts.map .ofText) = (.ok pairs, d')) :
    d.Replays pairs d' ∧ (∃ made, d.CarriesAll made d') ∧
      ∃ found, leftovers d ignored (texts.map .ofText) = .ok found ∧
        (∀ pair ∈ pairs, pair.1 ∈ found) ∧
        ∀ p ∈ found, p ∉ pairs.map (·.1) →
          ∃ front back done between, recoveryOrder found = front ++ p :: back ∧
            recoverFrom d front = (.ok done, between) ∧ d.PassesOver p between := by
  have hnormal := isNormal_ofText texts
  unfold recover at h
  split at h
  · cases h
  rename_i found hfound
  obtain ⟨kept, hkept, hall⟩ := exists_of_bind_eq_ok hfound
  cases hall
  have hroots := hasRoots_of_outermostRoots ht hnormal hkept
  have hways : ∀ root ∈ kept, root.IsStraight d := by
    intro root hroot
    obtain ⟨⟨r, hr, rfl⟩, -⟩ := mem_of_outermostRoots ht hnormal hkept hroot
    obtain ⟨text, htext, rfl⟩ := List.mem_map.mp hr
    exact hstraight text htext
  have hholds : d.HoldsInOrder (recoveryOrder (kept.flatMap (leftoversBelow d ignored))) :=
    holdsInOrder_recoveryOrder hroots hways
  have hreplays := (replays_of_recoverFrom ht hholds h).1
  refine ⟨hreplays, hreplays.exists_carriesAll, _, hfound,
    fun pair hpair => mem_recoveryOrder.mp (mem_of_recoverFrom h pair hpair), fun p hp hnot => ?_⟩
  obtain ⟨front, back, horder⟩ := List.append_of_mem (mem_recoveryOrder.mpr hp)
  rw [horder] at hholds
  have hrest : recoverFrom d (front ++ p :: back) = (.ok pairs, d') := horder ▸ h
  obtain ⟨done, between, hfront, hpasses⟩ := passesOver_of_recoverFrom ht hholds hrest hnot
  exact ⟨front, back, done, between, horder, hfront, hpasses⟩

/-- A leftover in another one, and one whose intended name something has. -/
def Tree.stranded : Tree :=
  ⟨[(["a.temp-rename"], .directory), (["a.temp-rename", "x.temp-rename"], .file ⟨#[]⟩),
    (["x.temp-rename"], .file ⟨#[]⟩), (["x"], .link "a.temp-rename")]⟩

theorem recover_replays_stranded :
    ∃ d', (⟨.stranded, [], []⟩ : Disk).Replays
        [(⟨.relative, ["a.temp-rename", "x.temp-rename"]⟩, ⟨.relative, ["a.temp-rename", "x"]⟩),
          (⟨.relative, ["a.temp-rename"]⟩, ⟨.relative, ["a"]⟩)] d' ∧
      ∃ between, (⟨.stranded, [], []⟩ : Disk).PassesOver ⟨.relative, ["x.temp-rename"]⟩
          between := by
  have hpairs : (recover ⟨.stranded, [], []⟩ ["dist"] (["."].map .ofText)).1 =
      .ok [(⟨.relative, ["a.temp-rename", "x.temp-rename"]⟩, ⟨.relative, ["a.temp-rename", "x"]⟩),
        (⟨.relative, ["a.temp-rename"]⟩, ⟨.relative, ["a"]⟩)] := by decide +kernel
  have hfound : leftovers ⟨.stranded, [], []⟩ ["dist"] (["."].map .ofText) =
      .ok [⟨.relative, ["a.temp-rename"]⟩, ⟨.relative, ["x.temp-rename"]⟩,
        ⟨.relative, ["a.temp-rename", "x.temp-rename"]⟩] := by decide +kernel
  have hstraight : ∀ text ∈ ["."], (Path.parse text).IsStraight ⟨.stranded, [], []⟩ := by
    intro text htext
    obtain rfl := List.mem_singleton.mp htext
    exact Path.isStraight_dot rfl
  obtain ⟨hreplays, -, found, hfound', -, hpassed⟩ :=
    recover_replays (d := ⟨.stranded, [], []⟩) (by decide) hstraight (Prod.ext hpairs rfl)
  obtain rfl := Except.ok.inj (hfound'.symm.trans hfound)
  obtain ⟨front, back, done, between, -, -, hover⟩ :=
    hpassed ⟨.relative, ["x.temp-rename"]⟩ (by simp) (by simp)
  exact ⟨_, hreplays, between, hover⟩

end Recase
