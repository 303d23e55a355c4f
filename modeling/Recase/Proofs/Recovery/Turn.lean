import Recase.Proofs.Recovery
import Recase.Proofs.Tree.Trail

/-!
# The turns of leftovers

What recovery does with leftovers that are at their paths, however these lead there.

* `Path.intendedPath_cases`: the dot is no name for an entry, and all other intended names are.
* `Leftover`: a leftover with the directory that it is in and what its path goes over.
  `Disk.Locates`: its path leads to it.
* `Locates.recoverOne_cases`: what becomes of it when its turn comes. `Path.FailsWith`: the two ways
  in which it fails.
* `Locates.carried`: a leftover is at its path still when another one has had its turn, unless its
  path goes over that.
* `Disk.LocatesInTurn`: leftovers none of which goes over one that has its turn before.
  `recoverFrom_of_locatesInTurn`: only those fail that fail when their turn comes.
-/

namespace Recase

open Name Recase.Tree

/-! ## Paths -/

namespace Path

variable {root : Path} {front : List String} {x y : String}

/-- A path is not longer than one whose last name goes on after its own. -/
theorem isTooLong_below_append (h : (root.below (front ++ [y])).route.isTooLong = true)
    (added : String) :
    (root.below (front ++ [y ++ added])).route.isTooLong = true := by
  have hsize : ∀ name, (root.below (front ++ [name])).route.size =
      root.startSize + (pathText (root.segments ++ front ++ [name])).utf8ByteSize := by
    intro name
    rw [route_below (by simp), size_toString, if_neg (by simp [below]), List.append_assoc]
    rfl
  simp only [Route.isTooLong, hsize, decide_eq_true_eq] at h ⊢
  rw [← pathText_concat_append, String.utf8ByteSize_append]
  omega

/-- Another last name brings no NUL into a path that has none in it. -/
theorem hasNul_below_of (h : (root.below (front ++ [x])).route.hasNul = false)
    (hy : '\x00' ∉ y.toList) :
    (root.below (front ++ [y])).route.hasNul = false := by
  rw [route_below (by simp)] at h ⊢
  simp only [Route.hasNul, ← List.append_assoc, List.any_append, Bool.or_eq_false_iff] at h ⊢
  exact ⟨h.1, by simpa using hy⟩

/-- What becomes of a path whose last name is a temporary one: the dot is no name, and all else
is. -/
theorem intendedPath_cases (root : Path) (front : List String) (hname : isTemporary x = true)
    (hslash : '/' ∉ x.toList) :
    intendedPath (root.below (front ++ [x])) = .error (.invalidName ".") ∨
      ∃ y added, added ≠ "" ∧ x = y ++ added ∧ y ≠ "" ∧ y ≠ "." ∧
        intendedPath (root.below (front ++ [x])) = .ok (root.below (front ++ [y])) := by
  obtain ⟨y, htarget⟩ := Option.isSome_iff_exists.mp hname
  obtain ⟨hne, added, hadded, rfl⟩ := exists_of_temporaryTarget? htarget
  have hslash' : '/' ∉ y.toList := fun hmem => hslash (by simp [hmem])
  by_cases hdot : y = "."
  · subst hdot
    refine .inl ?_
    have hlast : (root.below (front ++ ["." ++ added])).name = "." ++ added := by simp [name, below]
    unfold intendedPath
    rw [hlast, htarget]
    rfl
  · exact .inr ⟨y, added, hadded, rfl, hne, hdot, intendedPath_below hne hdot hslash' htarget⟩

end Path

/-! ## Leftovers -/

/-- A leftover: the names that lead to it from its root, the directory that it is in, and what its
path goes over to get there. -/
structure Leftover where
  root : Path
  front : List String
  name : String
  parent : Place
  trail : List Place

namespace Leftover

def path (l : Leftover) : Path := l.root.below (l.front ++ [l.name])

def place (l : Leftover) : Place := l.parent ++ [l.name]

/-- The leftover after an entry has been carried elsewhere. -/
def carried (l : Leftover) (src dst : Place) : Leftover :=
  { l with parent := l.parent.carried src dst, trail := l.trail.map (·.carried src dst) }

end Leftover

/-- Why a leftover is not recovered: it is meant to be called a dot, or its path is too long. -/
inductive Path.FailsWith (p : Path) : Failure → Prop
  | dotted (hdot : intendedPath p = .error (.invalidName ".")) : FailsWith p (.invalidName ".")
  | tooLong {intended : Path} (hlong : p.route.isTooLong = true)
      (hintended : intendedPath p = .ok intended) :
      FailsWith p (.system .nameTooLong p.toString (some intended.toString))

namespace Disk

/-- The path of the leftover leads to an entry with a temporary name, over the places of its
trail. -/
structure Locates (d : Disk) (l : Leftover) : Prop where
  start : d.tree.isDirectory (l.root.route.startAt d.here) = true
  way : ∃ n ≤ linkLimit,
    d.tree.GoesOver n (l.root.route.startAt d.here) (l.root.segments ++ l.front) l.trail l.parent
  there : d.tree.node? l.place ≠ none
  hasNul : l.path.route.hasNul = false
  isTemporary : isTemporary l.name = true

variable {d : Disk} {l other : Leftover} {y : String}

namespace Locates

theorem enters (h : d.Locates l) : d.Enters l.root l.front l.parent := by
  obtain ⟨n, hn, hway⟩ := h.way
  exact ⟨h.start, n, hn, hway.leads⟩

theorem isPlain (h : d.Locates l) (ht : d.tree.WellFormed) : IsPlain l.name := by
  obtain ⟨node, hnode⟩ := Option.ne_none_iff_exists'.mp h.there
  exact ht.isPlain hnode (List.mem_append_right _ List.mem_cons_self)

end Locates

/-- There is always an entry at two dots below a directory. -/
theorem Enters.hasEntry_dots {root : Path} {front : List String} {parent : Place}
    (h : d.Enters root front parent) (ht : d.tree.WellFormed)
    (hnul : (root.below (front ++ [".."])).route.hasNul = false)
    (hshort : (root.below (front ++ [".."])).route.isTooLong = false) :
    d.hasEntry (root.below (front ++ [".."])).route = true := by
  obtain ⟨k, hfind⟩ : ∃ k, d.find _ .stay = orFault (d.tree.walk .stay k parent [".."]) :=
    h.find_eq ht (by decide) hnul hshort
  have hdir := h.isDirectory ht
  rw [hasEntry, hfind, walk_up ht hdir, walk_nil (ht.isDirectory_dropLast hdir)]
  rfl

/-- A path that is too long is not renamed. -/
theorem rename_of_isTooLong {src dst : Route} (hsrc : src.hasNul = false)
    (hdst : dst.hasNul = false) (hlong : src.isTooLong = true) :
    d.rename src dst = .error (.refused .nameTooLong) := by
  have hparent : d.tree.parentOf d.here src = .error .nameTooLong := by
    rw [parentOf, if_pos hlong]
  unfold rename renamePlaces
  rw [hsrc, hdst, hparent]
  rfl

/-- A leftover gets its intended name, if nothing has that and its path is not too long. -/
theorem Locates.rename_eq_commit (h : d.Locates l) (ht : d.tree.WellFormed)
    {added : String} (hadded : added ≠ "") (hname : l.name = y ++ added) (hne : y ≠ "")
    (hdot : y ≠ ".") (hlong : l.path.route.isTooLong = false)
    (hentry : d.hasEntry (l.root.below (l.front ++ [y])).route = false) :
    IsPlain y ∧ y.utf8ByteSize ≤ nameLimit ∧ d.tree.node? (l.parent ++ [y]) = none ∧
      d.rename l.path.route (l.root.below (l.front ++ [y])).route =
        .ok (d.commit (.moved l.place (l.parent ++ [y]))) := by
  have hplain := h.isPlain ht
  obtain ⟨node, hnode⟩ := Option.ne_none_iff_exists'.mp h.there
  have hnul : '\x00' ∉ y.toList := fun hmem => hplain.nul (by simp [hname, hmem])
  have hnulPath : (l.root.below (l.front ++ [y])).route.hasNul = false :=
    Path.hasNul_below_of h.hasNul hnul
  have hshort : (l.root.below (l.front ++ [y])).route.isTooLong = false := by
    by_contra hlong'
    rw [Bool.not_eq_false] at hlong'
    have hlonger := Path.isTooLong_below_append hlong' added
    rw [← hname, ← Leftover.path, hlong] at hlonger
    cases hlonger
  have hdots : y ≠ ".." := by
    rintro rfl
    rw [h.enters.hasEntry_dots ht hnulPath hshort] at hentry
    cases hentry
  have hy : IsPlain y := ⟨hne, hdot, hdots, fun hmem => hplain.slash (by simp [hname, hmem]), hnul⟩
  have hsize : y.utf8ByteSize ≤ nameLimit := by
    have hlimit := ht.size_le hnode (List.mem_append_right _ List.mem_cons_self)
    rw [hname, String.utf8ByteSize_append] at hlimit
    omega
  have hfree : d.tree.node? (l.parent ++ [y]) = none := by
    by_contra hthere
    have htaken := (h.enters.hasEntry_eq ht hy.isName hnulPath hshort).mpr ⟨hsize, hthere⟩
    rw [hentry] at htaken
    cases htaken
  have hother : l.name ≠ y := by
    rw [hname]
    simpa using hadded
  have hrename := h.enters.rename_eq ht hplain.isName hy.isName hother h.hasNul hnulPath hnode
  rw [← Leftover.path, hlong, hshort, decide_eq_false (Nat.not_lt.mpr hsize),
    Tree.replacing_of_free node hfree] at hrename
  exact ⟨hy, hsize, hfree, hrename⟩

/-- One turn of a leftover that is at its path: it fails for its name or the length of its path, it
is passed over, or it gets its intended name, which is free. -/
theorem Locates.recoverOne_cases (h : d.Locates l) (ht : d.tree.WellFormed) :
    (∃ failure, recoverOne d l.path = .error failure ∧ l.path.FailsWith failure) ∨
      recoverOne d l.path = .ok (none, d) ∨
      ∃ y, IsPlain y ∧ y.utf8ByteSize ≤ nameLimit ∧ d.tree.node? (l.parent ++ [y]) = none ∧
        recoverOne d l.path =
          .ok (some (l.root.below (l.front ++ [y])),
              d.commit (.moved l.place (l.parent ++ [y]))) := by
  have hplain := h.isPlain ht
  obtain hdot | ⟨y, added, hadded, hname, hne, hnotdot, hintended⟩ :=
    Path.intendedPath_cases l.root l.front h.isTemporary hplain.slash
  · refine .inl ⟨_, ?_, .dotted hdot⟩
    rw [recoverOne, Leftover.path, hdot]
    rfl
  have hintended : intendedPath l.path = .ok (l.root.below (l.front ++ [y])) := hintended
  rw [recoverOne, hintended]
  simp only [bind, Except.bind]
  by_cases hentry : d.hasEntry (l.root.below (l.front ++ [y])).route = true
  · rw [if_pos hentry]
    exact .inr (.inl rfl)
  rw [if_neg hentry]
  by_cases hlong : l.path.route.isTooLong = true
  · have hnul : '\x00' ∉ y.toList := fun hmem => hplain.nul (by simp [hname, hmem])
    rw [rename_of_isTooLong h.hasNul (Path.hasNul_below_of h.hasNul hnul) hlong]
    exact .inl ⟨_, rfl, .tooLong hlong hintended⟩
  obtain ⟨hy, hsize, hfree, hrename⟩ := h.rename_eq_commit ht hadded hname hne hnotdot
    (by simpa using hlong) (by simpa using hentry)
  rw [hrename]
  exact .inr (.inr ⟨y, hy, hsize, hfree, rfl⟩)

/-! ## Other leftovers -/

/-- A leftover is at its path still after another one has got a free name, unless its path goes over
that. -/
theorem Locates.carried (h : d.Locates other) (ht : d.tree.WellFormed) (hfirst : d.Locates l)
    {y : String} (hfree : d.tree.node? (l.parent ++ [y]) = none) (htrail : l.place ∉ other.trail)
    (hplace : l.place ≠ other.place) :
    (d.commit (.moved l.place (l.parent ++ [y]))).Locates
        (other.carried l.place (l.parent ++ [y])) := by
  obtain ⟨node, hnode⟩ := Option.ne_none_iff_exists'.mp hfirst.there
  have hcarries :
      d.tree.Carries (d.tree.move l.place (l.parent ++ [y])) l.place (l.parent ++ [y]) :=
    ht.carries_within hnode hfree
  -- what is anywhere is found where it has been carried
  have hnode?_carried : ∀ q, d.tree.node? q ≠ none →
      (d.tree.move l.place (l.parent ++ [y])).node? (q.carried l.place (l.parent ++ [y])) =
          d.tree.node? q :=
    fun q hq => hcarries.node?_carried (ht.not_prefix_of_free hfree hq)
  obtain ⟨n, hn, hway⟩ := h.way
  have hstart : other.root.route.startAt (d.here.carried l.place (l.parent ++ [y])) =
      Place.carried (other.root.route.startAt d.here) l.place (l.parent ++ [y]) :=
    Place.startAt_carried other.root.route d.here
  have hconcat : Place.carried other.place l.place (l.parent ++ [y]) =
      Place.carried other.parent l.place (l.parent ++ [y]) ++ [other.name] :=
    Place.carried_concat (Ne.symm hplace)
  have hdir := isDirectory_iff.mp h.start
  refine ⟨?_, ⟨n, hn, ?_⟩, ?_, h.hasNul, h.isTemporary⟩
  · refine isDirectory_iff.mpr ?_
    rw [← hdir]
    exact hstart ▸ hnode?_carried _ (by simp [hdir])
  · have hcarried := hway.carried ht hcarries hfree htrail
    exact hstart ▸ hcarried
  · have hthere := hnode?_carried _ h.there
    rw [hconcat] at hthere
    exact fun hnone => h.there (hthere.symm.trans hnone)

/-- The leftovers are at their paths, and none goes over one that has its turn before it, or is that
one. -/
structure LocatesInTurn (d : Disk) (ls : List Leftover) : Prop where
  located : ∀ l ∈ ls, d.Locates l
  apart : ls.Pairwise fun a b => a.place ∉ b.trail ∧ a.place ≠ b.place

/-- The others are at their paths still when the first has got a free name. -/
theorem LocatesInTurn.carried {rest : List Leftover} (h : d.LocatesInTurn (l :: rest))
    (ht : d.tree.WellFormed) (hfree : d.tree.node? (l.parent ++ [y]) = none) :
    (d.commit (.moved l.place (l.parent ++ [y]))).LocatesInTurn
      (rest.map (·.carried l.place (l.parent ++ [y]))) := by
  have hfirst := h.located l List.mem_cons_self
  have hothers : ∀ other ∈ rest, d.Locates other :=
    fun other hother => h.located other (List.mem_cons_of_mem _ hother)
  obtain ⟨hbefore, hapart⟩ := List.pairwise_cons.mp h.apart
  have hplace : ∀ other ∈ rest, (other.carried l.place (l.parent ++ [y])).place =
      other.place.carried l.place (l.parent ++ [y]) :=
    fun other hother => (Place.carried_concat (Ne.symm (hbefore other hother).2)).symm
  -- what is there is carried to different places
  have hinjective : ∀ p q, d.tree.node? p ≠ none → d.tree.node? q ≠ none →
      p.carried l.place (l.parent ++ [y]) = q.carried l.place (l.parent ++ [y]) → p = q :=
    fun p q hp hq => carried_injective (ht.not_prefix_of_free hfree hp)
      (ht.not_prefix_of_free hfree hq)
  refine ⟨List.forall_mem_map.mpr fun other hother => ?_, List.pairwise_map.mpr ?_⟩
  · obtain ⟨htrail, hne⟩ := hbefore other hother
    exact (hothers other hother).carried ht hfirst hfree htrail hne
  · refine hapart.imp_of_mem fun {a b} ha hb hab => ?_
    rw [hplace a ha, hplace b hb]
    refine ⟨fun hmem => ?_, fun heq => ?_⟩
    · obtain ⟨q, hq, heq⟩ := List.mem_map.mp hmem
      obtain ⟨n, -, hway⟩ := (hothers b hb).way
      exact hab.1 (hinjective q a.place (hway.node?_ne_none q hq) (hothers a ha).there heq ▸ hq)
    · exact hab.2 (hinjective a.place b.place (hothers a ha).there (hothers b hb).there heq)

/-- The first of leftovers fails, or has its turn and leaves the others at their paths. -/
theorem LocatesInTurn.turn {rest : List Leftover} (h : d.LocatesInTurn (l :: rest))
    (ht : d.tree.WellFormed) :
    (∃ failure, recoverOne d l.path = .error failure ∧ l.path.FailsWith failure) ∨
      ∃ intended? next rest', recoverOne d l.path = .ok (intended?, next) ∧ next.tree.WellFormed ∧
        next.LocatesInTurn rest' ∧ rest'.map (·.path) = rest.map (·.path) := by
  have hfirst := h.located l List.mem_cons_self
  obtain hfails | hone | ⟨y, hy, hsize, hfree, hone⟩ := hfirst.recoverOne_cases ht
  · exact .inl hfails
  · have hothers : d.LocatesInTurn rest :=
      ⟨fun other hother => h.located other (List.mem_cons_of_mem _ hother),
        (List.pairwise_cons.mp h.apart).2⟩
    exact .inr ⟨none, d, rest, hone, ht, hothers, rfl⟩
  · obtain ⟨node, hnode⟩ := Option.ne_none_iff_exists'.mp hfirst.there
    refine .inr ⟨_, _, _, hone, ?_, h.carried ht hfree, by rw [List.map_map]; rfl⟩
    exact ht.move_within hnode hfree (isEntryName_iff.mpr ⟨hy, hsize⟩)

end Disk

/-! ## All turns -/

section Turns

variable {d next : Disk} {path : Path} {paths : List Path} {intended? : Option Path}
  {failure : Failure}

theorem recoverFrom_cons_of_ok (h : recoverOne d path = .ok (intended?, next)) :
    recoverFrom d (path :: paths) =
      ((recoverFrom next paths).1.map ((intended?.map (path, ·)).toList ++ ·),
          (recoverFrom next paths).2) := by
  rw [recoverFrom_cons, h]

theorem recoverFrom_cons_of_error (h : recoverOne d path = .error failure) :
    recoverFrom d (path :: paths) = (.error failure, d) := by
  rw [recoverFrom_cons, h]

/-- Recovery of leftovers that are at their paths returns, unless one of them fails when its turn
comes. -/
theorem recoverFrom_of_locatesInTurn {ls : List Leftover} (ht : d.tree.WellFormed)
    (h : d.LocatesInTurn ls) :
    (∃ pairs d', recoverFrom d (ls.map (·.path)) = (.ok pairs, d')) ∨
      ∃ failure d', recoverFrom d (ls.map (·.path)) = (.error failure, d') ∧
        ∃ p ∈ ls.map (·.path), p.FailsWith failure := by
  generalize hpaths : ls.map (·.path) = paths
  induction paths generalizing d ls with
  | nil => exact .inl ⟨[], d, rfl⟩
  | cons path paths ih =>
    obtain ⟨l, rest, rfl, rfl, rfl⟩ := List.map_eq_cons_iff.mp hpaths
    obtain ⟨failure, hone, hfails⟩ | ⟨intended?, next, rest', hone, ht', hothers, hsame⟩ :=
      h.turn ht
    · exact .inr ⟨failure, d, recoverFrom_cons_of_error hone, _, List.mem_cons_self, hfails⟩
    · rw [recoverFrom_cons_of_ok hone]
      obtain ⟨pairs, d', hdone⟩ | ⟨failure, d', hfailed, p, hp, hfails⟩ := ih ht' hothers hsame
      · rw [hdone]
        exact .inl ⟨_, d', rfl⟩
      · rw [hfailed]
        exact .inr ⟨failure, d', rfl, p, List.mem_cons_of_mem _ hp, hfails⟩

/-- Recovery does not return if one of the leftovers has no intended path. -/
theorem recoverFrom_of_intendedPath_error (hpath : path ∈ paths)
    (h : intendedPath path = .error failure) :
    ∃ other d', recoverFrom d paths = (.error other, d') := by
  induction paths generalizing d with
  | nil => cases hpath
  | cons first rest ih =>
    cases hone : recoverOne d first with
    | error other => exact ⟨other, d, recoverFrom_cons_of_error hone⟩
    | ok turn =>
      obtain ⟨intended?, next⟩ := turn
      rcases List.mem_cons.mp hpath with rfl | hrest
      · rw [recoverOne, h] at hone
        cases hone
      · obtain ⟨other, d', hfailed⟩ := ih (d := next) hrest
        rw [recoverFrom_cons_of_ok hone, hfailed]
        exact ⟨other, d', rfl⟩

end Turns

end Recase
