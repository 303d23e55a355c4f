import Recase.Proofs.Preview
import Recase.Proofs.Root

/-!
# The roots that are kept

* `Root.IsRejected`: why no directory is found at a root.
* `Disk.Outermost`: what is kept of roots, some of them in their order. Each is the first at its
  place, none is below another, and together they have all of the roots at or below them.
* `outermostRoots_outermost`: roots at directories are sorted out so, and what is kept is kept
  again. Any others fail as the first of them does that is rejected.
-/

namespace Recase

/-- There is no directory at the root, and this is the failure that says why: nothing is there,
something that is no directory, or the system refuses to look. -/
def Root.IsRejected (d : Disk) (root : Root) (failure : Failure) : Prop :=
  d.isPresent root.path = .ok false ∧ failure = .rootMissing root.given ∨
    d.isPresent root.path = .ok true ∧ d.isDirectory root.path = .ok false ∧
        failure = .rootNotDirectory root.given ∨
    ∃ errno, d.isPresent root.path = .error errno ∧ failure = .system errno root.path.toString none

/-- What is kept of roots that are at directories. -/
structure Disk.Outermost (d : Disk) (roots : List Root) (kept : List Path) : Prop where
  /-- The path of a root stands for the place where it leads. -/
  resolved : ∀ root ∈ roots, d.resolved root.path = .ok (Disk.pathOf (d.topAt root.path))
  sublist : kept.Sublist (roots.map (·.path))
  apart : d.AreApart kept
  covers : ∀ root ∈ roots, ∃ path ∈ kept, d.topAt path <+: d.topAt root.path
  first : ∀ path ∈ kept, ∃ before root after, roots = before ++ root :: after ∧ root.path = path ∧
    ∀ other ∈ before, d.topAt other.path ≠ d.topAt path

variable {d : Disk} {root : Root} {roots : List Root} {path : Path} {place : Place}
  {kept : List Path} {failure : Failure}

/-! ## Roots that are rejected -/

/-- What is there is a directory or is none. -/
theorem Disk.isDirectory_of_isPresent (h : d.isPresent path = .ok true) :
    ∃ found, d.isDirectory path = .ok found := by
  unfold isPresent holdsAt at h
  unfold isDirectory holdsAt
  split at h
  · exact ⟨_, rfl⟩
  · cases h
  · cases h
  · split at h <;> cases h

/-- A root is rejected by the check. -/
theorem Root.check_eq_error_iff : root.check d = .error failure ↔ root.IsRejected d failure := by
  unfold check isPresent IsRejected
  cases hpresent : d.isPresent root.path with
  | error errno => simp [eq_comm]
  | ok found =>
    cases found with
    | false => simp [eq_comm]
    | true =>
      cases hdir : d.isDirectory root.path with
      | error errno =>
        obtain ⟨found, hfound⟩ := Disk.isDirectory_of_isPresent hpresent
        cases hdir.symm.trans hfound
      | ok found => cases found <;> simp [eq_comm]

/-- A root without a directory is rejected. -/
theorem Root.exists_isRejected (h : d.directoryAt? root.path = none) :
    ∃ failure, root.IsRejected d failure := by
  cases hcheck : root.check d with
  | error failure => exact ⟨failure, check_eq_error_iff.mp hcheck⟩
  | ok _ =>
    obtain ⟨place, hplace⟩ := check_eq_ok_iff.mp hcheck
    cases h.symm.trans hplace

theorem Root.located_eq_error_iff (ht : d.tree.WellFormed) (hroot : root.path.IsNormal) :
    root.located d = .error failure ↔ root.IsRejected d failure := by
  rw [← check_eq_error_iff]
  unfold located
  cases hcheck : root.check d with
  | error other => simp [bind, Except.bind]
  | ok _ =>
    obtain ⟨top, htop⟩ := check_eq_ok_iff.mp hcheck
    simp [bind, Except.bind, Disk.resolved, Disk.resolve_of_directoryAt? ht hroot htop]

/-- Roots are not sorted out if one of them is rejected. -/
theorem outermostRoots_eq_error_iff (ht : d.tree.WellFormed)
    (hroots : ∀ r ∈ roots, r.path.IsNormal) :
    outermostRoots d roots = .error failure ↔
      ∃ before root after, roots = before ++ root :: after ∧
        (∀ r ∈ before, ∃ place, d.directoryAt? r.path = some place) ∧
            root.IsRejected d failure := by
  rw [outermostRoots_eq_error_iff_mapM, mapM_eq_error_iff]
  refine exists_congr fun before => exists_congr fun root => exists_congr fun after =>
    and_congr_right fun hsplit => ?_
  have hnormal : root.path.IsNormal := hroots root (by simp [hsplit])
  have hbefore : ∀ r ∈ before, r.path.IsNormal := fun r hr => hroots r (by simp [hsplit, hr])
  rw [Root.located_eq_error_iff ht hnormal]
  refine and_congr_left fun _ => forall₂_congr fun r hr => ?_
  rw [Prod.exists]
  simp [Root.located_eq_ok_iff ht (hbefore r hr)]

/-! ## The first root at a place -/

theorem firstOfEach_sublist (seen : List Place) (located : List (Path × Place)) :
    (firstOfEach seen located).Sublist (located.map (·.1)) := by
  induction located generalizing seen with
  | nil => exact .slnil
  | cons e rest ih =>
    rw [firstOfEach, List.map_cons]
    split
    · exact (ih seen).cons _
    · exact (ih _).cons_cons _

theorem exists_split_of_mem_firstOfEach {seen : List Place} {located : List (Path × Place)}
    (h : path ∈ firstOfEach seen located) :
    ∃ before place after, located = before ++ (path, place) :: after ∧ place ∉ seen ∧
      ∀ e ∈ before, e.2 ≠ place := by
  induction located generalizing seen with
  | nil => cases h
  | cons e rest ih =>
    obtain ⟨path', place'⟩ := e
    rw [firstOfEach] at h
    split at h
    · rename_i hseen
      obtain ⟨before, place, after, rfl, hnew, hbefore⟩ := ih h
      refine ⟨(path', place') :: before, place, after, rfl, hnew,
        List.forall_mem_cons.mpr ⟨?_, hbefore⟩⟩
      rintro rfl
      exact hnew (by simpa using hseen)
    · rename_i hseen
      rcases List.mem_cons.mp h with rfl | h
      · exact ⟨[], place', rest, rfl, by simpa using hseen, by simp⟩
      · obtain ⟨before, place, after, rfl, hnew, hbefore⟩ := ih h
        rw [List.mem_cons, not_or] at hnew
        exact ⟨(path', place') :: before, place, after, rfl, hnew.2,
          List.forall_mem_cons.mpr ⟨Ne.symm hnew.1, hbefore⟩⟩

/-- Of the roots that are kept, each is the first that is given at its place. -/
theorem first_of_outermostRoots (ht : d.tree.WellFormed) (hroots : ∀ r ∈ roots, r.path.IsNormal)
    (h : outermostRoots d roots = .ok kept) (hpath : path ∈ kept) :
    ∃ before root after, roots = before ++ root :: after ∧ root.path = path ∧
      ∀ other ∈ before, d.topAt other.path ≠ d.topAt path := by
  obtain ⟨-, rfl⟩ := (outermostRoots_eq_ok_iff ht hroots).mp h
  obtain ⟨before, place, after, hsplit, -, hbefore⟩ := exists_split_of_mem_firstOfEach hpath
  -- the roots that are left out before it are below others, as one at its place would be
  obtain ⟨front, back, hlocated, rfl, hback⟩ := List.filter_eq_append_iff.mp hsplit
  obtain ⟨skipped, rest, rfl, hskipped, houter, -⟩ := List.filter_eq_cons_iff.mp hback
  obtain ⟨roots₁, roots₂, rfl, rfl, hroots₂⟩ := List.map_eq_append_iff.mp hlocated
  obtain ⟨roots₃, roots₄, rfl, rfl, hroots₄⟩ := List.map_eq_append_iff.mp hroots₂
  obtain ⟨root, roots₅, rfl, hroot, rfl⟩ := List.map_eq_cons_iff.mp hroots₄
  obtain ⟨rfl, rfl⟩ := Prod.mk.inj hroot
  refine ⟨roots₁ ++ roots₃, root, roots₅, by simp, rfl, fun other hother hsame => ?_⟩
  rcases List.mem_append.mp hother with hother | hother
  · exact hbefore _
      (List.mem_filter.mpr ⟨List.mem_map_of_mem hother, by simpa only [hsame] using houter⟩) hsame
  · exact hskipped _ (List.mem_map_of_mem hother) (by simpa only [hsame] using houter)

/-! ## What is kept -/

/-- The roots that are kept are the outermost ones, and they are all kept again. -/
theorem outermost_of_outermostRoots (ht : d.tree.WellFormed) (hroots : ∀ r ∈ roots, r.path.IsNormal)
    (h : outermostRoots d roots = .ok kept) :
    d.Outermost roots kept ∧ outermostRoots d (kept.map .ofPath) = .ok kept := by
  refine ⟨⟨fun root hroot => ?_, ?_, areApart_of_outermostRoots ht hroots h,
    fun root hroot => exists_of_outermostRoots ht hroots h hroot,
    fun path hpath => first_of_outermostRoots ht hroots h hpath⟩, outermostRoots_kept ht hroots h⟩
  · have hdir := directoryAt?_of_outermostRoots ht hroots h hroot
    rw [Disk.resolved, Disk.resolve_of_directoryAt? ht (hroots root hroot) hdir]
    rfl
  · obtain ⟨-, rfl⟩ := (outermostRoots_eq_ok_iff ht hroots).mp h
    have hpaths : (roots.map fun r => (r.path, d.topAt r.path)).map (·.1) = roots.map (·.path) := by
      rw [List.map_map]
      rfl
    exact hpaths ▸ (firstOfEach_sublist _ _).trans (List.filter_sublist.map _)

/-- Roots that are all at directories are sorted out to the outermost ones, and these are all kept
again. Others fail, as the first of them does that is at none. -/
theorem outermostRoots_outermost (ht : d.tree.WellFormed) (hroots : ∀ r ∈ roots, r.path.IsNormal) :
    ((∀ r ∈ roots, ∃ place, d.directoryAt? r.path = some place) →
        ∃ kept, outermostRoots d roots = .ok kept ∧ d.Outermost roots kept ∧
          outermostRoots d (kept.map .ofPath) = .ok kept) ∧
      ∀ before root after, roots = before ++ root :: after →
        (∀ r ∈ before, ∃ place, d.directoryAt? r.path = some place) →
          d.directoryAt? root.path = none →
            ∃ failure, root.IsRejected d failure ∧ outermostRoots d roots = .error failure := by
  constructor
  · intro hdirs
    have hkept := (outermostRoots_eq_ok_iff ht hroots).mpr ⟨hdirs, rfl⟩
    exact ⟨_, hkept, outermost_of_outermostRoots ht hroots hkept⟩
  · intro before root after hsplit hbefore hnone
    obtain ⟨failure, hrejected⟩ := Root.exists_isRejected hnone
    exact ⟨failure, hrejected,
      (outermostRoots_eq_error_iff ht hroots).mpr ⟨before, root, after, hsplit, hbefore, hrejected⟩⟩

/-- A directory in another one, a link to it, and a file. -/
def Tree.overlapping : Tree :=
  ⟨[(["src"], .directory), (["src", "lib"], .directory), (["lib"], .link "src/lib"),
    (["test"], .directory), (["main.ts"], .file ⟨#[]⟩)]⟩

/-- Of directories that lie in each other and are given more than once, two are kept. A file among
them, or a name that nothing has, is what the sorting out fails with if it comes first. -/
theorem outermostRoots_outermost_overlapping :
    let d := (World.ofTree .overlapping).disk
    let roots := ["lib", "src/../test", "./src", "src/lib", "test", "src"].map Root.ofText
    let kept := [Path.parse "src/../test", Path.parse "src"]
    (outermostRoots d roots = .ok kept ∧ d.Outermost roots kept ∧
        outermostRoots d (kept.map .ofPath) = .ok kept) ∧
      outermostRoots d (["src/lib", "main.ts", "src", "none"].map .ofText) =
          .error (.rootNotDirectory "main.ts") := by
  intro d roots kept
  have ht : d.tree.WellFormed := by decide
  constructor
  · have hdirs : ∀ r ∈ roots, ∃ place, d.directoryAt? r.path = some place := by
      simp only [roots, List.map_cons, List.map_nil, List.forall_mem_cons]
      exact ⟨⟨["src", "lib"], by decide⟩, ⟨["test"], by decide⟩, ⟨["src"], by decide⟩,
        ⟨["src", "lib"], by decide⟩, ⟨["test"], by decide⟩, ⟨["src"], by decide⟩, by simp⟩
    obtain ⟨kept', hkept', houtermost⟩ := (outermostRoots_outermost ht (isNormal_ofText _)).1 hdirs
    have hkept : outermostRoots d roots = .ok kept := by decide +kernel
    obtain rfl := Except.ok.inj (hkept'.symm.trans hkept)
    exact ⟨hkept, houtermost⟩
  · have hnormal := isNormal_ofText ["src/lib", "main.ts", "src", "none"]
    obtain ⟨failure, hrejected, hfails⟩ :=
      (outermostRoots_outermost ht hnormal).2 [.ofText "src/lib"] (.ofText "main.ts")
        [.ofText "src", .ofText "none"] rfl
        (List.forall_mem_singleton.mpr ⟨["src", "lib"], by decide⟩) (by decide)
    obtain ⟨hnone, -⟩ | ⟨-, -, rfl⟩ | ⟨errno, hrefused, -⟩ := hrejected
    · cases hnone
    · exact hfails
    · cases hrefused

end Recase
