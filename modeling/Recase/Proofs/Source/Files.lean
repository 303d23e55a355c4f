import Recase.Proofs.Root
import Recase.Source.Files

/-!
# What a search for source files finds

* `Disk.IsSource`: names lead from the place of a root to a source file that a walk below the root
  comes to.
* `Source.isSource_of_mem_sourceFiles`: a search finds no other files. `Source.mem_sourceFiles`: it
  finds them all, unless it ends with a failure.
-/

namespace Recase

open Recase.Tree Source

/-- Names lead from the place of a root to a source file that a walk below the root comes to. -/
structure Disk.IsSource (d : Disk) (extensions ignored : List String) (root : Path)
    (names : List String) : Prop where
  node : ∃ top content, d.directoryAt? root = some top ∧
    d.tree.node? (top ++ names) = some (.file content)
  visible : isRetained ignored names = true
  extension : ∃ name, names.getLast? = some name ∧ extensionOf name ∈ extensions
  listed : root.canList names.dropLast = true

namespace Source

variable {d : Disk} {extensions ignored names : List String} {root path : Path} {roots : List Root}
  {kept : List Path} {node : Node} {entries : List (List String × Node)} {searches : List Search}

/-! ## Searches one after the other -/

theorem exists_of_mem_append (h : path ∈ (searches.foldr Search.append .empty).files) :
    ∃ s ∈ searches, path ∈ s.files := by
  induction searches with
  | nil => cases h
  | cons s rest ih =>
    rw [List.foldr_cons, Search.append] at h
    split at h
    · exact ⟨s, List.mem_cons_self, h⟩
    · rcases List.mem_append.mp h with h | h
      · exact ⟨s, List.mem_cons_self, h⟩
      · obtain ⟨s', hs', hpath⟩ := ih h
        exact ⟨s', List.mem_cons_of_mem _ hs', hpath⟩

theorem mem_append_of_none (hnone : (searches.foldr Search.append .empty).failure? = none)
    {s : Search} (hs : s ∈ searches) :
    s.failure? = none ∧ ∀ path ∈ s.files, path ∈ (searches.foldr Search.append .empty).files := by
  induction searches with
  | nil => cases hs
  | cons first rest ih =>
    rw [List.foldr_cons, Search.append] at hnone ⊢
    cases hfirst : first.failure? with
    | some failure =>
      rw [hfirst] at hnone
      exact absurd (hfirst.symm.trans hnone) (by simp)
    | none =>
      rw [hfirst] at hnone
      rcases List.mem_cons.mp hs with rfl | hs
      · exact ⟨hfirst, fun path hpath => List.mem_append_left _ hpath⟩
      · obtain ⟨hdone, hall⟩ := ih hnone hs
        exact ⟨hdone, fun path hpath => List.mem_append_right _ (hall path hpath)⟩

/-! ## The search below a root -/

theorem exists_of_mem_searchEntries (h : path ∈ (searchEntries root entries).files) :
    ∃ e ∈ entries, e.2.kind? = some .file ∧ path = root.below e.1 := by
  induction entries with
  | nil => cases h
  | cons e rest ih =>
    have hrest : path ∈ (searchEntries root rest).files →
        ∃ e' ∈ e :: rest, e'.2.kind? = some .file ∧ path = root.below e'.1 := fun h => by
      obtain ⟨e', hmem, hfound⟩ := ih h
      exact ⟨e', List.mem_cons_of_mem e hmem, hfound⟩
    simp only [searchEntries] at h
    split at h
    · cases h
    · split at h
      · rename_i hkind
        rcases List.mem_cons.mp h with rfl | h
        · exact ⟨e, List.mem_cons_self, hkind, rfl⟩
        · exact hrest h
      · exact hrest h

theorem mem_searchEntries (hnone : (searchEntries root entries).failure? = none)
    {e : List String × Node} (he : e ∈ entries) (hkind : e.2.kind? = some .file) :
    root.below e.1 ∈ (searchEntries root entries).files := by
  induction entries with
  | nil => cases he
  | cons first rest ih =>
    simp only [searchEntries] at hnone ⊢
    split at hnone
    · cases hnone
    · rename_i hlong
      rw [if_neg hlong]
      split at hnone
      · rename_i hfile
        rw [if_pos hfile]
        rcases List.mem_cons.mp he with rfl | he
        · exact List.mem_cons_self
        · exact List.mem_cons_of_mem _ (ih hnone he)
      · rename_i hfile
        rw [if_neg hfile]
        rcases List.mem_cons.mp he with rfl | he
        · exact absurd hkind hfile
        · exact ih hnone he

theorem isCandidate_iff (hkind : node.kind? = some .file) :
    isCandidate extensions names node = true ↔
      ∃ name, names.getLast? = some name ∧ extensionOf name ∈ extensions := by
  cases node with
  | directory | link target => cases hkind
  | file content => simp [isCandidate, Option.any_eq_true]

theorem isSource_of_mem_sourceFilesBelow (ht : d.tree.WellFormed)
    (h : path ∈ (sourceFilesBelow d extensions ignored root).files) :
    ∃ names, d.IsSource extensions ignored root names ∧ path = root.below names := by
  unfold sourceFilesBelow at h
  split at h
  · cases h
  rename_i top htop
  obtain ⟨⟨names, node⟩, hmem, hkind, rfl⟩ := exists_of_mem_searchEntries h
  obtain ⟨hbelow, htest⟩ := List.mem_filter.mp ((sortBy_perm _ _).mem_iff.mp hmem)
  simp only [Bool.and_eq_true] at htest
  obtain ⟨⟨hvisible, hcandidate⟩, hlisted⟩ := htest
  obtain ⟨-, hentry⟩ := mem_below_iff.mp hbelow
  cases node with
  | directory | link target => cases hkind
  | file content =>
    exact ⟨names, ⟨⟨top, content, htop, ht.node?_of_mem hentry⟩, hvisible,
      (isCandidate_iff hkind).mp hcandidate, hlisted⟩, rfl⟩

theorem mem_sourceFilesBelow (ht : d.tree.WellFormed)
    (hnone : (sourceFilesBelow d extensions ignored root).failure? = none)
    (h : d.IsSource extensions ignored root names) :
    root.below names ∈ (sourceFilesBelow d extensions ignored root).files := by
  obtain ⟨top, content, htop, hnode⟩ := h.node
  obtain ⟨name, hlast, hextension⟩ := h.extension
  have hne : names ≠ [] := by
    rintro rfl
    cases hlast
  unfold sourceFilesBelow at hnone ⊢
  rw [htop] at hnone ⊢
  refine mem_searchEntries (e := (names, .file content)) hnone ?_ rfl
  rw [(sortBy_perm _ _).mem_iff, List.mem_filter]
  refine ⟨mem_below_iff.mpr ⟨hne, (ht.node?_eq_some_iff (by simp [hne])).mp hnode⟩, ?_⟩
  simp only [Bool.and_eq_true]
  exact ⟨⟨h.visible, (isCandidate_iff rfl).mpr ⟨name, hlast, hextension⟩⟩, h.listed⟩

/-! ## The search below roots -/

theorem outermostRoots_cases (d : Disk) (extensions ignored : List String) (roots : List Root) :
    (∃ kept, outermostRoots d roots = .ok kept) ∨
      (sourceFiles d extensions ignored roots).files = [] ∧
        (sourceFiles d extensions ignored roots).failure? ≠ none := by
  cases hroots : outermostRoots d roots with
  | ok kept => exact .inl ⟨kept, rfl⟩
  | error failure => exact .inr (by simp [sourceFiles, hroots])

section Roots

variable (ht : d.tree.WellFormed) (hkept : outermostRoots d roots = .ok kept)
include ht hkept

/-- A search finds source files. -/
theorem isSource_of_mem_sourceFiles (h : path ∈ (sourceFiles d extensions ignored roots).files) :
    ∃ root ∈ kept, ∃ names, d.IsSource extensions ignored root names ∧ path = root.below names := by
  rw [sourceFiles, hkept] at h
  obtain ⟨s, hs, hpath⟩ := exists_of_mem_append h
  obtain ⟨root, hroot, rfl⟩ := List.mem_map.mp hs
  exact ⟨root, hroot, isSource_of_mem_sourceFilesBelow ht hpath⟩

/-- A search that ends without a failure finds all source files. -/
theorem mem_sourceFiles (hnone : (sourceFiles d extensions ignored roots).failure? = none)
    (hroot : root ∈ kept) (h : d.IsSource extensions ignored root names) :
    root.below names ∈ (sourceFiles d extensions ignored roots).files := by
  rw [sourceFiles, hkept] at hnone ⊢
  obtain ⟨hdone, hall⟩ := mem_append_of_none hnone (List.mem_map_of_mem hroot)
  exact hall _ (mem_sourceFilesBelow ht hdone h)

end Roots

end Source

end Recase
