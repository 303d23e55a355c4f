import Mathlib.Data.List.Basic
import Mathlib.Data.List.TakeWhile
import Recase.Name.Convert
import Recase.Proofs.Name.Kebab

/-!
# Converted names keep their extensions

* `cutExtension_append_dot_eq`: the last dot of a text starts its extension if something other than
  a dot stands before it, in the same segment.
* `cutExtension_cases`: so a segment is dots and then none, without an extension, or its last dot
  starts one.
* `cutExtension_append_slash`: the extension of a path is that of its last segment.
* `IsVisible`: a name that does not start with a dot and has no slash in it, as a retained entry's.
* `cutExtension_fileName`: a converted name is cut where the name was. With it, the rule for files
  is idempotent (`fileName_fileName`).
* `fileName_settles`: what both rules leave as it is.
-/

namespace Recase.Name

open Recase.Text

variable {cs stem rest : List Char} {x : Char}

/-! ## Extensions -/

/-- A name that does not start with a dot and has no slash in it. -/
def IsVisible (cs : List Char) : Prop := cs.head? ≠ some '.' ∧ '/' ∉ cs

theorem IsVisible.exists_ne_dot (h : IsVisible cs) (hne : cs ≠ []) : ∃ c ∈ cs, c ≠ '.' := by
  obtain ⟨c, more, rfl⟩ := List.exists_cons_of_ne_nil hne
  exact ⟨c, by simp, fun he => h.1 (by simp [he])⟩

theorem exists_last (h : x ∈ cs) : ∃ front back, cs = front ++ x :: back ∧ x ∉ back := by
  obtain ⟨after, before, hrev, hafter⟩ := List.eq_append_cons_of_mem (List.mem_reverse.mpr h)
  exact ⟨before.reverse, after.reverse, by simpa using congrArg List.reverse hrev,
    by simpa using hafter⟩

theorem cutExtension_of_not_mem (h : '.' ∉ cs) : cutExtension cs = (cs, []) := by
  unfold cutExtension
  split
  · rename_i before hb
    have : '.' ∈ cs.reverse.dropWhile isInExtension := by simp [hb]
    exact absurd (List.mem_reverse.mp ((List.dropWhile_sublist _).mem this)) h
  · rfl

theorem isInExtension_of_mem_reverse (hdot : '.' ∉ cs) (hslash : '/' ∉ cs) :
    ∀ c ∈ cs.reverse, isInExtension c = true := by
  intro c hc
  simp only [isInExtension, Bool.and_eq_true, bne_iff_ne]
  exact ⟨fun he => hdot (he ▸ List.mem_reverse.mp hc),
    fun he => hslash (he ▸ List.mem_reverse.mp hc)⟩

/-- The last dot starts the extension if another character stands before it in its segment. -/
theorem cutExtension_append_dot_eq (stem : List Char) (hdot : '.' ∉ rest) (hslash : '/' ∉ rest) :
    cutExtension (stem ++ '.' :: rest) =
      if (stem.reverse.takeWhile (· != '/')).any (· != '.') then (stem, '.' :: rest)
      else (stem ++ '.' :: rest, []) := by
  have hin := isInExtension_of_mem_reverse hdot hslash
  have hrev : (stem ++ '.' :: rest).reverse = rest.reverse ++ '.' :: stem.reverse := by simp
  rw [cutExtension, hrev, List.dropWhile_append_of_pos hin, List.dropWhile_cons_of_neg (by decide),
    List.takeWhile_append_of_pos hin, List.takeWhile_cons_of_neg (by decide)]
  simp

theorem takeWhile_reverse_of_not_mem (h : '/' ∉ stem) :
    stem.reverse.takeWhile (· != '/') = stem.reverse := by
  rw [List.takeWhile_eq_self_iff]
  exact fun c hc => bne_iff_ne.mpr fun he => h (he ▸ List.mem_reverse.mp hc)

/-- The last dot of a segment starts the extension if some other character stands before it. -/
theorem cutExtension_append_dot (hstem : '/' ∉ stem) (hne : ∃ c ∈ stem, c ≠ '.') (hdot : '.' ∉ rest)
    (hslash : '/' ∉ rest) : cutExtension (stem ++ '.' :: rest) = (stem, '.' :: rest) := by
  obtain ⟨c, hmem, hc⟩ := hne
  rw [cutExtension_append_dot_eq stem hdot hslash, takeWhile_reverse_of_not_mem hstem]
  exact if_pos (List.any_eq_true.mpr ⟨c, List.mem_reverse.mpr hmem, by simpa using hc⟩)

/-- Dots in front start no extension. -/
theorem cutExtension_replicate_append (n : Nat) (hdot : '.' ∉ cs) (hslash : '/' ∉ cs) :
    cutExtension (List.replicate n '.' ++ cs) = (List.replicate n '.' ++ cs, []) := by
  cases n with
  | zero => exact cutExtension_of_not_mem hdot
  | succ n =>
    have hcut := cutExtension_append_dot_eq (List.replicate n '.') hdot hslash
    rw [takeWhile_reverse_of_not_mem (by simp), if_neg (by simp)] at hcut
    rw [List.replicate_succ', List.append_assoc]
    exact hcut

/-- A segment is dots and then none, without an extension, or its last dot starts one. -/
theorem cutExtension_cases (h : '/' ∉ cs) :
    (∃ n text, cs = List.replicate n '.' ++ text ∧ '.' ∉ text ∧ cutExtension cs = (cs, [])) ∨
      ∃ stem rest, cs = stem ++ '.' :: rest ∧ (∃ c ∈ stem, c ≠ '.') ∧ '.' ∉ rest ∧
        cutExtension cs = (stem, '.' :: rest) := by
  by_cases hmem : '.' ∈ cs
  · obtain ⟨stem, rest, rfl, hdot⟩ := exists_last hmem
    have hslash : '/' ∉ stem ∧ '/' ∉ rest := by simpa using h
    by_cases hne : ∃ c ∈ stem, c ≠ '.'
    · exact .inr ⟨stem, rest, rfl, hne, hdot, cutExtension_append_dot hslash.1 hne hdot hslash.2⟩
    · have hstem : stem = List.replicate stem.length '.' :=
        List.eq_replicate_of_mem fun c hc => by_contra fun hc' => hne ⟨c, hc, hc'⟩
      have hdots : stem ++ '.' :: rest = List.replicate (stem.length + 1) '.' ++ rest := by
        conv => lhs; rw [hstem]
        rw [List.replicate_succ', List.append_assoc]
        rfl
      rw [hdots]
      exact .inl ⟨_, rest, rfl, hdot, cutExtension_replicate_append _ hdot hslash.2⟩
  · exact .inl ⟨0, cs, rfl, hmem, cutExtension_of_not_mem hmem⟩

/-- The extension of a path is that of its last segment. -/
theorem cutExtension_append_slash (front : List Char) {name : List Char} (h : '/' ∉ name) :
    cutExtension (front ++ '/' :: name) =
      (front ++ '/' :: (cutExtension name).1, (cutExtension name).2) := by
  by_cases hmem : '.' ∈ name
  · obtain ⟨stem, rest, rfl, hdot⟩ := exists_last hmem
    have hslash : '/' ∉ stem ∧ '/' ∉ rest := by simpa using h
    have hall : ∀ c ∈ stem.reverse, (c != '/') = true :=
      fun c hc => bne_iff_ne.mpr fun he => hslash.1 (he ▸ List.mem_reverse.mp hc)
    have hrev : (front ++ '/' :: stem).reverse = stem.reverse ++ '/' :: front.reverse := by simp
    have hcut := cutExtension_append_dot_eq (front ++ '/' :: stem) hdot hslash.2
    rw [hrev, List.takeWhile_append_of_pos hall, List.takeWhile_cons_of_neg (by simp),
      List.append_nil, List.append_assoc, List.cons_append] at hcut
    rw [hcut, cutExtension_append_dot_eq stem hdot hslash.2, takeWhile_reverse_of_not_mem hslash.1]
    split <;> rfl
  · have hin := isInExtension_of_mem_reverse hmem h
    have hrev : (front ++ '/' :: name).reverse = name.reverse ++ '/' :: front.reverse := by simp
    rw [cutExtension_of_not_mem hmem, cutExtension, hrev, List.dropWhile_append_of_pos hin,
      List.dropWhile_cons_of_neg (by decide)]
    rfl

/-! ## The rule for files -/

theorem fileName_eq (cs : List Char) :
    fileName cs = kebab (cutExtension cs).1 ++ (cutExtension cs).2 := rfl

/-- The rule for files leaves names of small characters as they are. -/
theorem fileName_of_isSmall (h : ∀ c ∈ cs, IsSmall c) : fileName cs = cs := by
  have happ := cutExtension_append cs
  rw [fileName_eq, kebab_of_isSmall, happ]
  exact fun c hc => h c (by rw [← happ]; simp [hc])

theorem mem_fileName_iff_of_isMark (hx : IsMark x) : x ∈ fileName cs ↔ x ∈ cs := by
  rw [fileName_eq, List.mem_append, mem_kebab_iff_of_isMark hx, ← List.mem_append,
    cutExtension_append]

theorem fileName_eq_nil_iff : fileName cs = [] ↔ cs = [] := by
  rw [fileName_eq, List.append_eq_nil_iff, kebab_eq_nil_iff, ← List.append_eq_nil_iff,
    cutExtension_append]

theorem head?_fileName_iff_of_isMark (hx : IsMark x) :
    (fileName cs).head? = some x ↔ cs.head? = some x := by
  rw [fileName_eq]
  conv => rhs; rw [← cutExtension_append cs]
  rcases eq_or_ne (cutExtension cs).1 [] with hnil | hne
  · rw [hnil, kebab_eq_nil_iff.mpr rfl]
  · have hkebab : kebab (cutExtension cs).1 ≠ [] := mt kebab_eq_nil_iff.mp hne
    rw [List.head?_append_of_ne_nil _ hne, List.head?_append_of_ne_nil _ hkebab,
      head?_kebab_iff_of_isMark hx]

theorem fileName_of_isMark (h : ∀ x ∈ fileName cs, IsMark x) : fileName cs = cs := by
  rw [fileName_eq] at h ⊢
  rw [kebab_of_isMark fun x hx => h x (List.mem_append_left _ hx), cutExtension_append]

theorem cutExtension_fileName_of_not_mem (h : '/' ∉ cs) :
    cutExtension (fileName cs) = (kebab (cutExtension cs).1, (cutExtension cs).2) := by
  have hslash : ∀ {text : List Char}, '/' ∉ text → '/' ∉ kebab text :=
    fun htext hm => htext ((mem_kebab_iff_of_isMark (by decide)).mp hm)
  rcases cutExtension_cases h with ⟨n, text, rfl, hdot, hcut⟩ |
    ⟨stem, rest, rfl, ⟨c, hmem, hc⟩, hdot, hcut⟩
  · -- the dots in front stay there, and no other is put in
    obtain ⟨text', hkebab, hdot'⟩ := kebab_replicate_append n text
    have hslash' := hslash h
    rw [hkebab, List.mem_append, not_or] at hslash'
    rw [fileName_eq, hcut, List.append_nil, hkebab]
    exact cutExtension_replicate_append n (mt hdot'.mp hdot) hslash'.2
  · rw [List.mem_append, List.mem_cons, not_or, not_or] at h
    have hne : ∃ c ∈ kebab stem, c ≠ '.' := by
      by_contra hall
      simp only [not_exists, not_and, not_not] at hall
      have hsame : kebab stem = stem := kebab_of_isMark fun x hx => .inl (hall x hx)
      exact hc (hall c (by rwa [hsame]))
    rw [fileName_eq, hcut]
    exact cutExtension_append_dot (hslash h.1) hne hdot h.2.2

/-- A converted name is cut where the name was: it keeps the extension, and its stem is
converted. -/
theorem cutExtension_fileName (cs : List Char) :
    cutExtension (fileName cs) = (kebab (cutExtension cs).1, (cutExtension cs).2) := by
  by_cases hmem : '/' ∈ cs
  · obtain ⟨front, name, rfl, hname⟩ := exists_last hmem
    have hcut := cutExtension_append_slash front hname
    have hfile : fileName (front ++ '/' :: name) = kebab front ++ '/' :: fileName name := by
      rw [fileName_eq, hcut, kebab_append_slash, List.append_assoc, List.cons_append, ← fileName_eq]
    have hslash : '/' ∉ fileName name := by rwa [mem_fileName_iff_of_isMark (by decide)]
    rw [hfile, cutExtension_append_slash _ hslash, cutExtension_fileName_of_not_mem hname, hcut,
      kebab_append_slash]
  · exact cutExtension_fileName_of_not_mem hmem

/-- The rule for files is idempotent. -/
@[simp] theorem fileName_fileName (cs : List Char) : fileName (fileName cs) = fileName cs := by
  rw [fileName_eq (fileName cs), cutExtension_fileName, kebab_kebab, fileName_eq]

/-- What is converted stays as it is: both rules are idempotent, a name that the rule for
directories leaves alone is left alone by the rule for files, and this one gives a name that is cut
where the name was, with the converted stem and the extension as it was. -/
theorem fileName_settles (cs : List Char) :
    kebab (kebab cs) = kebab cs ∧ fileName (fileName cs) = fileName cs ∧
      (directoryName cs = cs → fileName cs = cs) ∧
      cutExtension (fileName cs) = (kebab (cutExtension cs).1, (cutExtension cs).2) := by
  refine ⟨kebab_kebab cs, fileName_fileName cs, fun hfixed => ?_, cutExtension_fileName cs⟩
  have hkebab : kebab cs = cs := hfixed
  exact fileName_of_isSmall fun c hc => isSmall_of_mem_kebab (hkebab.symm ▸ hc)

/-- A name in kebab case, hidden and with dots in it, below a directory with a dot. -/
theorem fileName_settles_hidden :
    directoryName "v2.x/.foo-bar.d.ts".toList = "v2.x/.foo-bar.d.ts".toList ∧
      fileName "v2.x/.foo-bar.d.ts".toList = "v2.x/.foo-bar.d.ts".toList := by
  have hfixed : directoryName "v2.x/.foo-bar.d.ts".toList = "v2.x/.foo-bar.d.ts".toList := by decide
  exact ⟨hfixed, (fileName_settles _).2.2.1 hfixed⟩

end Recase.Name
