import Recase.Proofs.Disk
import Recase.Root

/-!
# Roots that lie in no other

* `Disk.topAt`: the place of the directory at a path. `Disk.AreApart`: none of some paths leads to a
  directory in that to which another leads.
* `Root.located_eq_ok_iff`: a root is located where the directory at its path is.
  `mapM_eq_error_iff`: roots are gone through up to the first failure, and for this they are not
  sorted out (`exists_of_outermostRoots_eq_error`).
* `areApart_of_outermostRoots`: the roots that are kept are apart, they are among those given
  (`mem_of_outermostRoots`), and each of those given lies in one of them
  (`exists_of_outermostRoots`).
* `outermostRoots_of_areApart`: roots that are apart are all kept, so what is kept is kept again
  (`outermostRoots_kept`), also on another disk where they lead to the same places
  (`outermostRoots_of_topAt`).
-/

namespace Recase

namespace Disk

/-- The place of the directory at a path, and the top where there is none. -/
def topAt (d : Disk) (path : Path) : Place := (d.directoryAt? path).getD []

/-- None of the paths leads to a directory that is in the one to which another leads. -/
def AreApart (d : Disk) (paths : List Path) : Prop :=
  paths.Pairwise fun a b => ¬ d.topAt a <+: d.topAt b ∧ ¬ d.topAt b <+: d.topAt a

variable {d : Disk} {path : Path} {place : Place}

theorem topAt_eq (h : d.directoryAt? path = some place) : d.topAt path = place := by
  simp [topAt, h]

/-- Of paths that are apart, only one leads to a directory on the way to that of another. -/
theorem AreApart.eq_of_prefix {paths : List Path} {a b : Path} (h : d.AreApart paths)
    (ha : a ∈ paths) (hb : b ∈ paths) (hpre : d.topAt a <+: d.topAt b) : a = b :=
  List.Pairwise.forall_of_forall_of_flip (R := fun a b => d.topAt a <+: d.topAt b → a = b)
    (fun _ _ _ => rfl) (h.imp fun hab hpre => absurd hpre hab.1)
    (h.imp fun hab hpre => absurd hpre hab.2) ha hb hpre

/-- Of paths that are apart, only one leads to a directory on the way to a place. -/
theorem AreApart.eq_of_prefix_of_prefix {paths : List Path} {a b : Path} (h : d.AreApart paths)
    (ha : a ∈ paths) (hb : b ∈ paths) (hpre : d.topAt a <+: place) (hpre' : d.topAt b <+: place) :
    a = b := by
  rcases List.prefix_or_prefix_of_prefix hpre hpre' with hin | hin
  · exact h.eq_of_prefix ha hb hin
  · exact (h.eq_of_prefix hb ha hin).symm

theorem isPresent_of_directoryAt? (h : d.directoryAt? path = some place) :
    d.isPresent path = .ok true := by
  obtain ⟨hnul, hlong, hwalk, -⟩ := directoryAt?_eq_some_iff.mp h
  simp [isPresent, holdsAt, find, Tree.lookUp, hnul, hlong, hwalk, orFault]

theorem isDirectory_eq_ok_true_iff :
    d.isDirectory path = .ok true ↔ ∃ place, d.directoryAt? path = some place := by
  unfold isDirectory holdsAt directoryAt?
  split <;> rename_i hfind <;> rw [hfind]
  · simp
  · simp
  · simp
  · split <;> simp

end Disk

variable {d : Disk} {root : Root} {roots : List Root} {path : Path} {place : Place}
  {kept : List Path}

theorem Root.check_eq_ok_iff :
    root.check d = .ok () ↔ ∃ place, d.directoryAt? root.path = some place := by
  constructor
  · intro h
    rw [← Disk.isDirectory_eq_ok_true_iff]
    unfold check at h
    split at h
    · cases h
    · cases h
    · split at h
      · cases h
      · cases h
      · assumption
  · rintro ⟨place, h⟩
    have hdir := Disk.isDirectory_eq_ok_true_iff.mpr ⟨place, h⟩
    simp [check, isPresent, Disk.isPresent_of_directoryAt? h, hdir]

/-- A root is located where the directory at its path is. -/
theorem Root.located_eq_ok_iff (ht : d.tree.WellFormed) (hroot : root.path.IsNormal) :
    root.located d = .ok (path, place) ↔
      path = root.path ∧ d.directoryAt? root.path = some place := by
  unfold located
  cases hcheck : root.check d with
  | error failure =>
    have hnone : ∀ place, d.directoryAt? root.path ≠ some place := by
      intro place h
      rw [check_eq_ok_iff.mpr ⟨place, h⟩] at hcheck
      cases hcheck
    simp [hnone, bind, Except.bind]
  | ok _ =>
    obtain ⟨top, htop⟩ := check_eq_ok_iff.mp hcheck
    have hresolved : d.resolved root.path = .ok ⟨.absolute, top⟩ := by
      rw [Disk.resolved, Disk.resolve_of_directoryAt? ht hroot htop]
    simp only [bind, Except.bind, hresolved, htop, Except.ok.injEq, Prod.mk.injEq,
      Option.some.injEq]
    exact ⟨fun h => ⟨h.1.symm, h.2⟩, fun h => ⟨h.1.symm, h.2⟩⟩

/-- A list is gone through up to the first failure. -/
theorem mapM_eq_error_iff {α β ε : Type} {f : α → Except ε β} {xs : List α} {e : ε} :
    xs.mapM f = .error e ↔
      ∃ before x after, xs = before ++ x :: after ∧ (∀ y ∈ before, ∃ z, f y = .ok z) ∧
          f x = .error e := by
  induction xs with
  | nil =>
    constructor
    · intro h
      cases h
    · rintro ⟨before, x, after, hnil, -⟩
      simp at hnil
  | cons x rest ih =>
    rw [List.mapM_cons]
    cases hx : f x with
    | error e' =>
      constructor
      · intro h
        cases h
        exact ⟨[], x, rest, rfl, by simp, hx⟩
      · rintro ⟨before, y, after, hsplit, hbefore, hy⟩
        cases before with
        | nil =>
          obtain ⟨rfl, rfl⟩ := List.cons.inj hsplit
          obtain rfl := Except.error.inj (hx.symm.trans hy)
          rfl
        | cons first more =>
          obtain ⟨rfl, -⟩ := List.cons.inj hsplit
          obtain ⟨z, hz⟩ := hbefore x List.mem_cons_self
          cases hx.symm.trans hz
    | ok z =>
      have hrest : (do let z ← Except.ok z; let zs ← rest.mapM f; pure (z :: zs) : Except ε
          (List β)) = .error e ↔ rest.mapM f = .error e := by
        cases rest.mapM f <;> simp [bind, Except.bind, pure, Except.pure]
      rw [hrest, ih]
      constructor
      · rintro ⟨before, y, after, rfl, hbefore, hy⟩
        exact ⟨x :: before, y, after, rfl, List.forall_mem_cons.mpr ⟨⟨z, hx⟩, hbefore⟩, hy⟩
      · rintro ⟨before, y, after, hsplit, hbefore, hy⟩
        cases before with
        | nil =>
          obtain ⟨rfl, rfl⟩ := List.cons.inj hsplit
          cases hx.symm.trans hy
        | cons first more =>
          obtain ⟨rfl, rfl⟩ := List.cons.inj hsplit
          exact ⟨more, y, after, rfl, (List.forall_mem_cons.mp hbefore).2, hy⟩

/-- Roots are located if directories are at their paths. -/
theorem mapM_located_eq_ok_iff (ht : d.tree.WellFormed) (hroots : ∀ r ∈ roots, r.path.IsNormal)
    {located : List (Path × Place)} :
    roots.mapM (·.located d) = .ok located ↔
      (∀ r ∈ roots, ∃ place, d.directoryAt? r.path = some place) ∧
        located = roots.map fun r => (r.path, d.topAt r.path) := by
  induction roots generalizing located with
  | nil => simp [pure, Except.pure, eq_comm]
  | cons root rest ih =>
    have hrest : ∀ r ∈ rest, r.path.IsNormal := fun r hr => hroots r (by simp [hr])
    have hroot := hroots root (by simp)
    rw [List.mapM_cons]
    constructor
    · intro h
      cases hfirst : root.located d with
      | error failure => rw [hfirst] at h; cases h
      | ok first =>
        obtain ⟨path, place⟩ := first
        obtain ⟨rfl, hplace⟩ := (Root.located_eq_ok_iff ht hroot).mp hfirst
        cases hmore : rest.mapM (·.located d) with
        | error failure => rw [hfirst, hmore] at h; cases h
        | ok more =>
          obtain ⟨hall, rfl⟩ := (ih hrest).mp hmore
          rw [hfirst, hmore] at h
          cases h
          refine ⟨fun r hr => ?_, by simp [Disk.topAt_eq hplace]⟩
          rcases List.mem_cons.mp hr with rfl | hr
          · exact ⟨place, hplace⟩
          · exact hall r hr
    · rintro ⟨hall, rfl⟩
      obtain ⟨place, hplace⟩ := hall root (by simp)
      rw [(Root.located_eq_ok_iff ht hroot).mpr ⟨rfl, hplace⟩,
        (ih hrest).mpr ⟨fun r hr => hall r (by simp [hr]), rfl⟩, List.map_cons,
          Disk.topAt_eq hplace]
      rfl

/-! ## The first of each place -/

section FirstOfEach

variable {located : List (Path × Place)} {seen : List Place}

theorem mem_of_mem_firstOfEach (h : path ∈ firstOfEach seen located) :
    ∃ place, (path, place) ∈ located ∧ place ∉ seen := by
  induction located generalizing seen with
  | nil => simp [firstOfEach] at h
  | cons e rest ih =>
    obtain ⟨path', place'⟩ := e
    rw [firstOfEach] at h
    split at h
    · obtain ⟨place, hmem, hseen⟩ := ih h
      exact ⟨place, by simp [hmem], hseen⟩
    · rename_i hnew
      rcases List.mem_cons.mp h with rfl | h
      · exact ⟨place', by simp, by simpa using hnew⟩
      · obtain ⟨place, hmem, hseen⟩ := ih h
        exact ⟨place, by simp [hmem], fun hm => hseen (by simp [hm])⟩

theorem exists_mem_firstOfEach (h : (path, place) ∈ located) (hseen : place ∉ seen) :
    ∃ first, (first, place) ∈ located ∧ first ∈ firstOfEach seen located := by
  induction located generalizing seen with
  | nil => cases h
  | cons e rest ih =>
    obtain ⟨path', place'⟩ := e
    rw [firstOfEach]
    by_cases heq : place' = place
    · subst heq
      rw [if_neg (by simpa using hseen)]
      exact ⟨path', by simp, by simp⟩
    · have hrest : (path, place) ∈ rest := by
        rcases List.mem_cons.mp h with he | h
        · cases he; exact absurd rfl heq
        · exact h
      split
      · obtain ⟨first, hfirst, hmem⟩ := ih hrest hseen
        exact ⟨first, by simp [hfirst], hmem⟩
      · have hnew : place ∉ place' :: seen := by simpa using ⟨fun he => heq he.symm, hseen⟩
        obtain ⟨first, hfirst, hmem⟩ := ih hrest hnew
        exact ⟨first, by simp [hfirst], by simp [hmem]⟩

theorem firstOfEach_pairwise (hlocated : ∀ e ∈ located, e.2 = d.topAt e.1) :
    (firstOfEach seen located).Pairwise fun a b => d.topAt a ≠ d.topAt b := by
  induction located generalizing seen with
  | nil => simp [firstOfEach]
  | cons e rest ih =>
    obtain ⟨path, place⟩ := e
    have hrest : ∀ e ∈ rest, e.2 = d.topAt e.1 := fun e he => hlocated e (by simp [he])
    rw [firstOfEach]
    split
    · exact ih hrest
    · refine List.pairwise_cons.mpr ⟨fun other hother heq => ?_, ih hrest⟩
      obtain ⟨place', hmem, hseen⟩ := mem_of_mem_firstOfEach hother
      have h1 : place = d.topAt path := hlocated (path, place) (by simp)
      have h2 : place' = d.topAt other := hlocated (other, place') (by simp [hmem])
      exact hseen (by simp [h2, h1, heq])

theorem firstOfEach_of_nodup (h : (located.map (·.2)).Nodup)
    (hseen : ∀ e ∈ located, e.2 ∉ seen) : firstOfEach seen located = located.map (·.1) := by
  induction located generalizing seen with
  | nil => rfl
  | cons e rest ih =>
    obtain ⟨path, place⟩ := e
    rw [List.map_cons, List.nodup_cons] at h
    have hnew : place ∉ seen := hseen (path, place) (by simp)
    rw [firstOfEach, if_neg (by simpa using hnew), ih h.2]
    · rfl
    · intro e he
      have hne : e.2 ≠ place := fun heq => h.1 (List.mem_map.mpr ⟨e, he, heq⟩)
      simpa using ⟨hne, hseen e (by simp [he])⟩

end FirstOfEach

/-! ## The roots that are kept -/

theorem Place.isBelow_iff {top : Place} :
    place.isBelow top = true ↔ top <+: place ∧ top ≠ place := by
  simp [Place.isBelow]

/-- Roots are not sorted out if they are not all located, and for the same reason. -/
theorem outermostRoots_eq_error_iff_mapM {failure : Failure} :
    outermostRoots d roots = .error failure ↔ roots.mapM (·.located d) = .error failure := by
  unfold outermostRoots
  cases roots.mapM (·.located d) <;> simp [bind, Except.bind]

/-- Roots that are not sorted out have one among them that is not located, for the same reason. -/
theorem exists_of_outermostRoots_eq_error {failure : Failure}
    (h : outermostRoots d roots = .error failure) :
    ∃ root ∈ roots, root.located d = .error failure := by
  obtain ⟨before, root, after, rfl, -, hroot⟩ :=
    mapM_eq_error_iff.mp (outermostRoots_eq_error_iff_mapM.mp h)
  exact ⟨root, by simp, hroot⟩

/-- What `outermostRoots` gives, with the place of each root. -/
theorem outermostRoots_eq_ok_iff (ht : d.tree.WellFormed) (hroots : ∀ r ∈ roots, r.path.IsNormal) :
    outermostRoots d roots = .ok kept ↔
      (∀ r ∈ roots, ∃ place, d.directoryAt? r.path = some place) ∧
        kept = firstOfEach [] ((roots.map fun r => (r.path, d.topAt r.path)).filter fun e =>
          !(roots.map fun r => (r.path, d.topAt r.path)).any fun e' => e.2.isBelow e'.2) := by
  unfold outermostRoots
  constructor
  · intro h
    cases hlocated : roots.mapM (·.located d) with
    | error failure => rw [hlocated] at h; cases h
    | ok located =>
      rw [hlocated] at h
      obtain ⟨hall, rfl⟩ := (mapM_located_eq_ok_iff ht hroots).mp hlocated
      cases h
      exact ⟨hall, rfl⟩
  · rintro ⟨hall, rfl⟩
    rw [(mapM_located_eq_ok_iff ht hroots).mpr ⟨hall, rfl⟩]
    rfl

section Kept

variable (ht : d.tree.WellFormed) (hroots : ∀ r ∈ roots, r.path.IsNormal)
  (h : outermostRoots d roots = .ok kept)
include ht hroots h

theorem directoryAt?_of_outermostRoots {root : Root} (hroot : root ∈ roots) :
    d.directoryAt? root.path = some (d.topAt root.path) := by
  obtain ⟨place, hplace⟩ := ((outermostRoots_eq_ok_iff ht hroots).mp h).1 root hroot
  rw [Disk.topAt_eq hplace, hplace]

/-- A root that is kept is among those given, and lies in none of them. -/
theorem mem_of_outermostRoots (hpath : path ∈ kept) :
    (∃ r ∈ roots, r.path = path) ∧
      ∀ r ∈ roots, d.topAt r.path <+: d.topAt path → d.topAt r.path = d.topAt path := by
  obtain ⟨-, rfl⟩ := (outermostRoots_eq_ok_iff ht hroots).mp h
  obtain ⟨place, hmem, -⟩ := mem_of_mem_firstOfEach hpath
  obtain ⟨hmem, houter⟩ := List.mem_filter.mp hmem
  obtain ⟨root, hroot, heq⟩ := List.mem_map.mp hmem
  cases heq
  refine ⟨⟨root, hroot, rfl⟩, fun r hr hpre => ?_⟩
  by_contra hne
  have hbelow := Place.isBelow_iff.mpr ⟨hpre, hne⟩
  simp only [Bool.not_eq_true', List.any_eq_false] at houter
  exact houter _ (List.mem_map_of_mem hr) hbelow

theorem directoryAt?_of_mem_outermostRoots (hpath : path ∈ kept) :
    d.directoryAt? path = some (d.topAt path) := by
  obtain ⟨⟨r, hr, rfl⟩, -⟩ := mem_of_outermostRoots ht hroots h hpath
  exact directoryAt?_of_outermostRoots ht hroots h hr

theorem isNormal_of_mem_outermostRoots (hpath : path ∈ kept) : path.IsNormal := by
  obtain ⟨⟨r, hr, rfl⟩, -⟩ := mem_of_outermostRoots ht hroots h hpath
  exact hroots r hr

/-- The roots that are kept are apart. -/
theorem areApart_of_outermostRoots : d.AreApart kept := by
  have hne : kept.Pairwise fun a b => d.topAt a ≠ d.topAt b := by
    obtain ⟨-, rfl⟩ := (outermostRoots_eq_ok_iff ht hroots).mp h
    refine firstOfEach_pairwise fun e he => ?_
    obtain ⟨r, -, rfl⟩ := List.mem_map.mp (List.mem_filter.mp he).1
    rfl
  refine hne.imp_of_mem fun {a b} ha hb hab => ?_
  obtain ⟨⟨r, hr, rfl⟩, ha⟩ := mem_of_outermostRoots ht hroots h ha
  obtain ⟨⟨r', hr', rfl⟩, hb⟩ := mem_of_outermostRoots ht hroots h hb
  exact ⟨fun hpre => hab (hb r hr hpre), fun hpre => hab (ha r' hr' hpre).symm⟩

/-- Each root that is given lies in one that is kept. -/
theorem exists_of_outermostRoots {root : Root} (hroot : root ∈ roots) :
    ∃ path ∈ kept, d.topAt path <+: d.topAt root.path := by
  obtain ⟨-, rfl⟩ := (outermostRoots_eq_ok_iff ht hroots).mp h
  generalize hlen : (d.topAt root.path).length = len
  induction len using Nat.strongRecOn generalizing root with
  | ind len ih =>
    subst hlen
    by_cases hbelow : ∃ r ∈ roots, (d.topAt root.path).isBelow (d.topAt r.path) = true
    · obtain ⟨r, hr, hbelow⟩ := hbelow
      obtain ⟨hpre, hne⟩ := Place.isBelow_iff.mp hbelow
      have hlt := lt_of_le_of_ne hpre.length_le fun he => hne (hpre.eq_of_length he)
      obtain ⟨path, hpath, htop⟩ := ih _ hlt hr rfl
      exact ⟨path, hpath, htop.trans hpre⟩
    · have houter : (root.path, d.topAt root.path) ∈
          (roots.map fun r => (r.path, d.topAt r.path)).filter fun e =>
            !(roots.map fun r => (r.path, d.topAt r.path)).any fun e' => e.2.isBelow e'.2 := by
        refine List.mem_filter.mpr ⟨List.mem_map.mpr ⟨root, hroot, rfl⟩, ?_⟩
        simp only [Bool.not_eq_true', List.any_eq_false, List.mem_map]
        rintro e' ⟨r, hr, rfl⟩
        exact fun hb => hbelow ⟨r, hr, hb⟩
      obtain ⟨first, hfirst, hmem⟩ := exists_mem_firstOfEach houter (List.not_mem_nil)
      obtain ⟨r, -, heq⟩ := List.mem_map.mp (List.mem_filter.mp hfirst).1
      obtain ⟨rfl, htop⟩ := Prod.mk.inj heq
      exact ⟨_, hmem, htop ▸ List.prefix_rfl⟩

end Kept

/-- Roots that are apart are all kept. -/
theorem outermostRoots_of_areApart (ht : d.tree.WellFormed)
    (hroots : ∀ r ∈ roots, r.path.IsNormal)
    (hall : ∀ r ∈ roots, ∃ place, d.directoryAt? r.path = some place)
    (hapart : d.AreApart (roots.map (·.path))) :
    outermostRoots d roots = .ok (roots.map (·.path)) := by
  refine (outermostRoots_eq_ok_iff ht hroots).mpr ⟨hall, ?_⟩
  have hpair : roots.Pairwise fun a b =>
      ¬ d.topAt a.path <+: d.topAt b.path ∧ ¬ d.topAt b.path <+: d.topAt a.path :=
    List.pairwise_map.mp hapart
  have hsame := List.Pairwise.forall_of_forall_of_flip
    (R := fun a b : Root => d.topAt a.path <+: d.topAt b.path → a = b) (fun _ _ _ => rfl)
    (hpair.imp fun hab hpre => absurd hpre hab.1)
    (hpair.imp fun hab hpre => absurd hpre hab.2)
  rw [List.filter_eq_self.mpr, firstOfEach_of_nodup]
  · simp
  · rw [List.map_map, List.Nodup, List.pairwise_map]
    refine hpair.imp fun hab heq => ?_
    have heq : d.topAt _ = d.topAt _ := heq
    exact hab.1 (heq ▸ List.prefix_rfl)
  · simp
  · intro e he
    obtain ⟨a, ha, rfl⟩ := List.mem_map.mp he
    simp only [Bool.not_eq_true', List.any_eq_false, List.mem_map]
    rintro e' ⟨b, hb, rfl⟩ hbelow
    obtain ⟨hpre, hne⟩ := Place.isBelow_iff.mp hbelow
    rw [hsame hb ha hpre] at hne
    exact hne rfl

/-- A root alone is kept if it leads to a directory. -/
theorem outermostRoots_singleton (ht : d.tree.WellFormed) (hroot : root.path.IsNormal) :
    outermostRoots d [root] = .ok kept ↔
      kept = [root.path] ∧ ∃ place, d.directoryAt? root.path = some place := by
  have hnormal : ∀ r ∈ [root], r.path.IsNormal := by simpa using hroot
  have hkept : (∃ place, d.directoryAt? root.path = some place) →
      outermostRoots d [root] = .ok [root.path] := fun hplace =>
    outermostRoots_of_areApart ht hnormal (by simpa using hplace) (by simp [Disk.AreApart])
  constructor
  · intro h
    have hplace := ((outermostRoots_eq_ok_iff ht hnormal).mp h).1 root List.mem_cons_self
    exact ⟨Except.ok.inj (h.symm.trans (hkept hplace)), hplace⟩
  · rintro ⟨rfl, hplace⟩
    exact hkept hplace

/-- Paths that are apart are all kept. -/
theorem outermostRoots_ofPath (ht : d.tree.WellFormed) (hpaths : ∀ path ∈ kept, path.IsNormal)
    (hall : ∀ path ∈ kept, ∃ place, d.directoryAt? path = some place) (hapart : d.AreApart kept) :
    outermostRoots d (kept.map .ofPath) = .ok kept := by
  have hsame : (kept.map Root.ofPath).map (·.path) = kept := by
    rw [List.map_map]
    exact List.map_id kept
  have hkept := outermostRoots_of_areApart ht (by simpa [Root.ofPath] using hpaths)
    (by simpa [Root.ofPath] using hall) (hsame.symm ▸ hapart)
  rwa [hsame] at hkept

/-- What is kept of roots is all kept again. -/
theorem outermostRoots_kept (ht : d.tree.WellFormed) (hroots : ∀ r ∈ roots, r.path.IsNormal)
    (h : outermostRoots d roots = .ok kept) : outermostRoots d (kept.map .ofPath) = .ok kept :=
  outermostRoots_ofPath ht (fun _ => isNormal_of_mem_outermostRoots ht hroots h)
    (fun _ hpath => ⟨_, directoryAt?_of_mem_outermostRoots ht hroots h hpath⟩)
      (areApart_of_outermostRoots ht hroots h)

/-- Paths that are apart on one disk are all kept on another where they lead to the same places. -/
theorem outermostRoots_of_topAt {d' : Disk} (ht : d'.tree.WellFormed)
    (hpaths : ∀ path ∈ kept, path.IsNormal)
    (hall : ∀ path ∈ kept, ∃ place, d'.directoryAt? path = some place)
    (htops : ∀ path ∈ kept, d'.topAt path = d.topAt path) (hapart : d.AreApart kept) :
    outermostRoots d' (kept.map .ofPath) = .ok kept := by
  refine outermostRoots_ofPath ht hpaths hall (hapart.imp_of_mem fun {a b} ha hb hab => ?_)
  rwa [htops a ha, htops b hb]

/-- Roots that are given as texts have normal paths. -/
theorem isNormal_ofText (texts : List String) :
    ∀ r ∈ texts.map Root.ofText, r.path.IsNormal := by
  intro r hr
  obtain ⟨text, -, rfl⟩ := List.mem_map.mp hr
  exact Path.isNormal_parse text

/-- Existing directories are sorted out. -/
theorem exists_outermostRoots {texts : List String} (ht : d.tree.WellFormed)
    (hdirs : ∀ text ∈ texts, ∃ place, d.directoryAt? (.parse text) = some place) :
    ∃ kept, outermostRoots d (texts.map .ofText) = .ok kept :=
  ⟨_, (outermostRoots_eq_ok_iff ht (isNormal_ofText texts)).mpr
    ⟨List.forall_mem_map.mpr hdirs, rfl⟩⟩

end Recase
