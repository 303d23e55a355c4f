import Recase.Proofs.Path.Text
import Recase.Proofs.Text.Lowercase
import Recase.Text.Case

/-!
# Case folding of paths

Case folding neither makes slashes nor takes them away, so the folding of a path is that of its
names.

* `slash_mem_foldChar_iff`: only a slash has one in its folding.
* `casefold_pathText`: the folding of the text of names is the text of their foldings.
* `map_casefold_eq_of_pathText`: texts with one folding are those of names with the same foldings.
-/

namespace Recase.Text

/-! ## Characters -/

theorem exists_of_expandCodePoint? {table : List (Nat × List Nat)} {n : Nat} {expansion : List Nat}
    (h : expandCodePoint? table n = some expansion) : ∃ e ∈ table, e.2 = expansion := by
  induction table with
  | nil => cases h
  | cons entry rest ih =>
    obtain ⟨first, ns⟩ := entry
    rw [expandCodePoint?] at h
    split at h
    · cases h
    · split at h
      · cases h
        exact ⟨_, List.mem_cons_self, rfl⟩
      · obtain ⟨e, he, heq⟩ := ih h
        exact ⟨e, List.mem_cons_of_mem _ he, heq⟩

/-- The code point of a slash is that of no other character. -/
theorem eq_of_ofNat_eq_slash {n : Nat} (h : Char.ofNat n = '/') : n = 47 := by
  by_cases hn : n.isValidChar
  · rw [← toNat_ofNat_of_isValidChar hn, h]
    rfl
  · rw [Char.ofNat, dif_neg hn] at h
    cases h

private theorem slash_not_mem_foldExpansions : ∀ e ∈ foldExpansions, 47 ∉ e.2 := by decide +kernel

private theorem foldTable_bounds : ∀ run ∈ foldTable, 47 < run.target := by decide +kernel

/-- Only a slash has one in its folding. -/
theorem slash_mem_foldChar_iff {c : Char} : '/' ∈ foldChar c ↔ c = '/' := by
  constructor
  · intro h
    unfold foldChar at h
    split at h
    · rename_i expansion hexpansion
      obtain ⟨n, hn, hslash⟩ := List.mem_map.mp h
      obtain ⟨e, he, rfl⟩ := exists_of_expandCodePoint? hexpansion
      exact absurd (eq_of_ofNat_eq_slash hslash ▸ hn) (slash_not_mem_foldExpansions e he)
    · split at h
      · -- every run of the table leads to code points behind the slash
        rename_i n hn
        obtain ⟨run, hrun, himage⟩ := exists_run_of_mapCodePoint? hn
        have hbound := foldTable_bounds run hrun
        have hle := (run.mem_pointsFrom himage).2.2.1
        have hslash := eq_of_ofNat_eq_slash (List.mem_singleton.mp h).symm
        omega
      · have hlower := List.mem_singleton.mp h
        obtain hsame | ⟨-, hmark⟩ := lowerChar_eq_or c
        · exact (hlower.trans hsame).symm
        · exact absurd (.inr (.inl hlower.symm)) hmark
  · rintro rfl
    decide

/-! ## Texts -/

theorem slash_mem_casefold_iff {s : String} : '/' ∈ (casefold s).toList ↔ '/' ∈ s.toList := by
  simp only [casefold, String.toList_ofList, List.mem_flatMap, slash_mem_foldChar_iff,
    exists_eq_right]

/-- The folding of the text of names is the text of their foldings. -/
theorem casefold_pathText (names : List String) :
    casefold (pathText names) = pathText (names.map casefold) := by
  induction names with
  | nil => rfl
  | cons name rest ih =>
    rcases eq_or_ne rest [] with rfl | hne
    · simp
    · have hslash : casefold "/" = "/" := by decide
      rw [List.map_cons, ← List.singleton_append, ← List.singleton_append (x := casefold name),
        pathText_append (by simp) hne, pathText_append (by simp) (by simpa using hne),
          casefold_append,
        casefold_append, ih, hslash, pathText_singleton, pathText_singleton]

/-- Texts with one folding are those of names with the same foldings. -/
theorem map_casefold_eq_of_pathText {names others : List String} (hne : names ≠ [])
    (hne' : others ≠ []) (hnames : ∀ n ∈ names, '/' ∉ n.toList)
    (hothers : ∀ n ∈ others, '/' ∉ n.toList)
    (h : casefold (pathText names) = casefold (pathText others)) :
    names.map casefold = others.map casefold := by
  rw [casefold_pathText, casefold_pathText] at h
  have hfolded : ∀ l : List String, l ≠ [] → (∀ n ∈ l, '/' ∉ n.toList) →
      PathText.segments (pathText (l.map casefold)) = l.map casefold := by
    intro l hl hslash
    refine segments_pathText (by simpa using hl) fun n hn => ?_
    obtain ⟨name, hname, rfl⟩ := List.mem_map.mp hn
    exact fun hmem => hslash name hname (slash_mem_casefold_iff.mp hmem)
  rw [← hfolded names hne hnames, h, hfolded others hne' hothers]

end Recase.Text
