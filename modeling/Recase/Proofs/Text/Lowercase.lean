import Recase.Text.Case

/-!
# Lower case is a normal form

* `IsSmall`: a character that lower case leaves as it is, wherever it stands.
* `isSmall_of_mem_lowerChars`: lower case leaves small characters only.
* `lowerChars_eq_self_iff`: the texts that lower case leaves as they are, those of small characters.
  With it, lower case is idempotent (`lowerChars_lowerChars`).
* `mem_lowerChars_iff_of_isMark`: dots, slashes and NULs are neither made nor taken away.
* `lowerChars_append_slash`: the lower-case form of a path is that of its segments.
* `eq_of_lowercase_eq_y`, `eq_of_lowercase_eq_three`: the texts that are a y or a three in lower
  case.
-/

namespace Recase.Text

/-- A character that lower case leaves as it is, wherever it stands. -/
def IsSmall (c : Char) : Prop := lowerChar c = c ∧ c ≠ 'Σ' ∧ c ≠ 'İ'

instance (c : Char) : Decidable (IsSmall c) := inferInstanceAs (Decidable (_ ∧ _))

/-- The characters that structure a path. -/
def IsMark (c : Char) : Prop := c = '.' ∨ c = '/' ∨ c = '\x00'

instance (c : Char) : Decidable (IsMark c) := inferInstanceAs (Decidable (_ ∨ _))

/-! ## The table -/

/-- The code points of a run that starts at `start`. -/
def CaseRun.pointsFrom (run : CaseRun) (start : Nat) : List Nat :=
  (List.range ((run.last - run.first) / run.step + 1)).map fun i => start + i * run.step

theorem CaseRun.mem_pointsFrom {run : CaseRun} {n m : Nat} (h : run.map? n = some m) :
    n ∈ run.pointsFrom run.first ∧ m ∈ run.pointsFrom run.target ∧
      run.target ≤ m ∧ m ≤ run.target + (run.last - run.first) := by
  unfold CaseRun.map? at h
  split at h
  · rename_i hn
    obtain ⟨h1, h2, h3⟩ := hn
    cases h
    have hmul := Nat.div_mul_cancel (Nat.dvd_of_mod_eq_zero h3)
    have hlt := Nat.lt_succ_of_le
      (Nat.div_le_div_right (c := run.step) (show n - run.first ≤ run.last - run.first by omega))
    refine ⟨List.mem_map.mpr ⟨_, List.mem_range.mpr hlt, ?_⟩,
      List.mem_map.mpr ⟨_, List.mem_range.mpr hlt, ?_⟩, by omega, by omega⟩
    · rw [hmul]; omega
    · rw [hmul]
  · cases h

theorem exists_run_of_mapCodePoint? {table : List CaseRun} {n m : Nat}
    (h : mapCodePoint? table n = some m) : ∃ run ∈ table, run.map? n = some m := by
  induction table with
  | nil => cases h
  | cons run rest ih =>
    simp only [mapCodePoint?] at h
    split at h
    · cases h
    · split at h
      · exact ⟨run, by simp, h⟩
      · obtain ⟨r, hr, hm⟩ := ih h
        exact ⟨r, by simp [hr], hm⟩

/-- A set of numbers as the bits of one, so that two sets are compared in one step. -/
def bitsOf (ns : List Nat) : Nat := ns.foldr (fun n bits => Nat.pow 2 n ||| bits) 0

theorem testBit_bitsOf {ns : List Nat} {n : Nat} (h : n ∈ ns) : (bitsOf ns).testBit n = true := by
  induction ns with
  | nil => simp at h
  | cons a rest ih =>
    simp only [bitsOf, List.foldr_cons, Nat.testBit_or, Bool.or_eq_true]
    rcases List.mem_cons.mp h with rfl | h
    · exact .inl (Nat.testBit_two_pow_self)
    · exact .inr (ih h)

/-- No code point with a lower-case form is itself one. -/
private theorem lowerTable_apart :
    bitsOf (lowerTable.flatMap fun run => run.pointsFrom run.first) &&&
      bitsOf (lowerTable.flatMap fun run => run.pointsFrom run.target) = 0 := by
  decide +kernel

/-- The images in the table are characters, no marks, no capital sigma and no dotted capital I. -/
private theorem lowerTable_bounds : ∀ run ∈ lowerTable,
    95 < run.target ∧
    (run.target + (run.last - run.first) < 0xD800 ∨
      0xDFFF < run.target ∧ run.target + (run.last - run.first) < 0x110000) ∧
    (0x130 < run.target ∨ run.target + (run.last - run.first) < 0x130) ∧
    (0x3A3 < run.target ∨ run.target + (run.last - run.first) < 0x3A3) := by
  decide +kernel

private theorem image_facts {n m : Nat} (h : mapCodePoint? lowerTable n = some m) :
    m.isValidChar ∧ mapCodePoint? lowerTable m = none ∧ 95 < m ∧ m ≠ 0x3A3 ∧ m ≠ 0x130 := by
  obtain ⟨run, hrun, hm⟩ := exists_run_of_mapCodePoint? h
  obtain ⟨-, hpoint, hle, hge⟩ := run.mem_pointsFrom hm
  obtain ⟨h1, h2, h3, h4⟩ := lowerTable_bounds run hrun
  refine ⟨?_, ?_, by omega, by omega, by omega⟩
  · unfold Nat.isValidChar; omega
  · cases hn : mapCodePoint? lowerTable m with
    | none => rfl
    | some k =>
      obtain ⟨other, hother, hk⟩ := exists_run_of_mapCodePoint? hn
      have hsource : m ∈ lowerTable.flatMap fun run => run.pointsFrom run.first :=
        List.mem_flatMap.mpr ⟨other, hother, (other.mem_pointsFrom hk).1⟩
      have himage : m ∈ lowerTable.flatMap fun run => run.pointsFrom run.target :=
        List.mem_flatMap.mpr ⟨run, hrun, hpoint⟩
      have hzero := Nat.zero_testBit m
      rw [← lowerTable_apart, Nat.testBit_and, testBit_bitsOf hsource,
        testBit_bitsOf himage] at hzero
      cases hzero

/-! ## Characters -/

theorem toNat_ofNat_of_isValidChar {m : Nat} (h : m.isValidChar) : (Char.ofNat m).toNat = m := by
  rw [show Char.ofNat m = Char.ofNatAux m h from dif_pos h]
  rfl

/-- A character is its own lower-case form or has one that is no mark. -/
theorem lowerChar_eq_or (c : Char) :
    lowerChar c = c ∨ IsSmall (lowerChar c) ∧ ¬ IsMark (lowerChar c) := by
  unfold lowerChar
  split
  · rename_i m h
    obtain ⟨hv, hnone, hlt, hs, hi⟩ := image_facts h
    have hm := toNat_ofNat_of_isValidChar hv
    have hne : ∀ c : Char, c.toNat ≠ m → Char.ofNat m ≠ c := fun c hc he => hc (he ▸ hm)
    refine .inr ⟨⟨?_, hne _ hs.symm, hne _ hi.symm⟩, ?_⟩
    · unfold lowerChar; rw [hm, hnone]
    · rintro (h | h | h)
      · exact hne '.' (by simp; omega) h
      · exact hne '/' (by simp; omega) h
      · exact hne '\x00' (by simp; omega) h
  · exact .inl rfl

/-- Lower case makes no ASCII character other than a small letter and the few that stand after
them. -/
theorem lowerChar_eq_or_lt (c : Char) : lowerChar c = c ∨ 95 < (lowerChar c).toNat := by
  unfold lowerChar
  split
  · rename_i m h
    obtain ⟨hv, -, hlt, -, -⟩ := image_facts h
    exact .inr (by rwa [toNat_ofNat_of_isValidChar hv])
  · exact .inl rfl

theorem isSmall_lowerChar {c : Char} (h1 : c ≠ 'Σ') (h2 : c ≠ 'İ') : IsSmall (lowerChar c) := by
  rcases lowerChar_eq_or c with h | h
  · rw [h]; exact ⟨h, h1, h2⟩
  · exact h.1

/-- What holds of the characters of a run of code points holds of a character with one of them. -/
theorem of_codePoints {P : Char → Prop} {first count : Nat} {c : Char}
    (h : ∀ n ∈ List.range' first count, P (Char.ofNat n))
    (hc : first ≤ c.toNat ∧ c.toNat < first + count) : P c := by
  have hp := h c.toNat (List.mem_range'_1.mpr hc)
  rwa [Char.ofNat_toNat] at hp

theorem lowerChar_ne_of_isUpper {c : Char} (h : c.isUpper = true) : lowerChar c ≠ c := by
  have hval : 'A'.val ≤ c.val ∧ c.val ≤ 'Z'.val := of_decide_eq_true h
  have hc : 65 ≤ c.toNat ∧ c.toNat < 65 + 26 :=
    ⟨UInt32.le_iff_toNat_le.mp hval.1, Nat.lt_succ_of_le (n := c.toNat)
      (UInt32.le_iff_toNat_le.mp hval.2)⟩
  exact of_codePoints (P := fun c => lowerChar c ≠ c) (by decide) hc

theorem IsSmall.isUpper_eq_false {c : Char} (h : IsSmall c) : c.isUpper = false := by
  cases hc : c.isUpper with
  | false => rfl
  | true => exact absurd h.1 (lowerChar_ne_of_isUpper hc)

/-! ## Texts -/

theorem isSmall_of_mem_lowerWithin {before after : List Char} {c x : Char}
    (h : x ∈ lowerWithin before c after) : IsSmall x := by
  unfold lowerWithin at h
  split at h
  · rw [List.mem_singleton] at h
    subst h
    split <;> decide
  · split at h
    · simp only [List.mem_cons, List.not_mem_nil, or_false] at h
      rcases h with rfl | rfl <;> decide
    · rw [List.mem_singleton] at h
      rw [h]
      exact isSmall_lowerChar ‹_› ‹_›

theorem lowerWithin_ne_nil (before : List Char) (c : Char) (after : List Char) :
    lowerWithin before c after ≠ [] := by
  unfold lowerWithin; split <;> (try split) <;> simp

theorem lowerWithin_of_isSmall {c : Char} (h : IsSmall c) (before after : List Char) :
    lowerWithin before c after = [c] := by
  simp [lowerWithin, h.1, h.2.1, h.2.2]

theorem isSmall_of_isMark {c : Char} (h : IsMark c) : IsSmall c := by
  rcases h with rfl | rfl | rfl <;> decide

/-- Lower case makes no mark of another character, and leaves marks alone. -/
theorem mem_lowerWithin_iff_of_isMark {before after : List Char} {c x : Char} (hx : IsMark x) :
    x ∈ lowerWithin before c after ↔ x = c := by
  constructor
  · intro h
    unfold lowerWithin at h
    split at h
    · rw [List.mem_singleton] at h
      subst h
      split at hx <;> exact absurd hx (by decide)
    · split at h
      · simp only [List.mem_cons, List.not_mem_nil, or_false] at h
        rcases h with rfl | rfl <;> exact absurd hx (by decide)
      · rw [List.mem_singleton] at h
        rcases lowerChar_eq_or c with hc | hc
        · rw [h, hc]
        · exact absurd (h ▸ hx) hc.2
  · rintro rfl
    simp [lowerWithin_of_isSmall (isSmall_of_isMark hx)]

theorem eq_or_lt_of_mem_lowerWithin {before after : List Char} {c x : Char}
    (h : x ∈ lowerWithin before c after) : x = c ∨ 95 < x.toNat := by
  unfold lowerWithin at h
  split at h
  · rw [List.mem_singleton] at h
    subst h
    exact .inr (by split <;> decide)
  · split at h
    · simp only [List.mem_cons, List.not_mem_nil, or_false] at h
      rcases h with rfl | rfl <;> exact .inr (by decide)
    · rw [List.mem_singleton] at h
      exact h ▸ lowerChar_eq_or_lt c

theorem mem_or_lt_of_mem_lowerFrom {before cs : List Char} {x : Char}
    (h : x ∈ lowerFrom before cs) :
    x ∈ cs ∨ 95 < x.toNat := by
  induction cs generalizing before with
  | nil => simp [lowerFrom] at h
  | cons c rest ih =>
    rw [lowerFrom, List.mem_append] at h
    rcases h with h | h
    · rw [List.mem_cons, or_assoc]
      exact (eq_or_lt_of_mem_lowerWithin h).imp_right .inr
    · exact (ih h).imp_left (List.mem_cons_of_mem c)

theorem isSmall_of_mem_lowerFrom {before cs : List Char} {x : Char}
    (h : x ∈ lowerFrom before cs) : IsSmall x := by
  induction cs generalizing before with
  | nil => simp [lowerFrom] at h
  | cons _ rest ih =>
    rcases List.mem_append.mp h with h | h
    · exact isSmall_of_mem_lowerWithin h
    · exact ih h

theorem isSmall_of_mem_lowerChars {cs : List Char} {x : Char} (h : x ∈ lowerChars cs) :
    IsSmall x := isSmall_of_mem_lowerFrom h

theorem lowerFrom_of_isSmall {cs : List Char} (h : ∀ c ∈ cs, IsSmall c) (before : List Char) :
    lowerFrom before cs = cs := by
  induction cs generalizing before with
  | nil => rfl
  | cons c rest ih =>
    rw [lowerFrom, lowerWithin_of_isSmall (h c (by simp)), ih fun x hx => h x (by simp [hx])]
    rfl

theorem lowerChars_of_isSmall {cs : List Char} (h : ∀ c ∈ cs, IsSmall c) : lowerChars cs = cs :=
  lowerFrom_of_isSmall h []

/-- The texts that lower case leaves as they are. -/
theorem lowerChars_eq_self_iff {cs : List Char} : lowerChars cs = cs ↔ ∀ c ∈ cs, IsSmall c :=
  ⟨fun h _ hc => isSmall_of_mem_lowerChars (h ▸ hc), lowerChars_of_isSmall⟩

@[simp] theorem lowerChars_lowerChars (cs : List Char) :
    lowerChars (lowerChars cs) = lowerChars cs :=
  lowerChars_of_isSmall fun _ => isSmall_of_mem_lowerChars

theorem mem_lowerFrom_iff_of_isMark {before cs : List Char} {x : Char} (hx : IsMark x) :
    x ∈ lowerFrom before cs ↔ x ∈ cs := by
  induction cs generalizing before with
  | nil => simp [lowerFrom]
  | cons _ rest ih =>
    rw [lowerFrom, List.mem_append, mem_lowerWithin_iff_of_isMark hx, ih, List.mem_cons]

/-- Lower case neither makes marks nor takes them away. -/
theorem mem_lowerChars_iff_of_isMark {cs : List Char} {x : Char} (hx : IsMark x) :
    x ∈ lowerChars cs ↔ x ∈ cs := mem_lowerFrom_iff_of_isMark hx

/-- Marks come from marks alone. -/
theorem lowerFrom_of_isMark {before cs : List Char} (h : ∀ x ∈ lowerFrom before cs, IsMark x) :
    lowerFrom before cs = cs := by
  induction cs generalizing before with
  | nil => rfl
  | cons c rest ih =>
    rw [lowerFrom] at h ⊢
    obtain ⟨x, xs, hx⟩ := List.exists_cons_of_ne_nil (lowerWithin_ne_nil before c rest)
    have hmark : IsMark x := h x (by simp [hx])
    have hxc : x = c :=
      (mem_lowerWithin_iff_of_isMark hmark).mp (by rw [hx]; exact List.mem_cons_self)
    have hsmall : IsSmall c := isSmall_of_isMark (hxc ▸ hmark)
    rw [lowerWithin_of_isSmall hsmall, ih fun y hy => h y (List.mem_append_right _ hy)]
    rfl

theorem lowerChars_eq_nil_iff {cs : List Char} : lowerChars cs = [] ↔ cs = [] := by
  cases cs with
  | nil => simp [lowerChars, lowerFrom]
  | cons c rest => simp [lowerChars, lowerFrom, lowerWithin_ne_nil]

/-- The first character of a lower-case form is a mark if and only if that of the text is the same
one. -/
theorem head?_lowerChars_iff_of_isMark {cs : List Char} {x : Char} (hx : IsMark x) :
    (lowerChars cs).head? = some x ↔ cs.head? = some x := by
  cases cs with
  | nil => rfl
  | cons c rest =>
    obtain ⟨y, ys, hy⟩ := List.exists_cons_of_ne_nil (lowerWithin_ne_nil [] c rest)
    have hfirst : (lowerChars (c :: rest)).head? = some y := by simp [lowerChars, lowerFrom, hy]
    rw [hfirst, List.head?_cons, Option.some_inj, Option.some_inj]
    refine ⟨fun hyx => ?_, fun hcx => ?_⟩
    · have hmem : x ∈ lowerWithin [] c rest := by simp [hy, hyx]
      exact ((mem_lowerWithin_iff_of_isMark hx).mp hmem).symm
    · rw [hcx, lowerWithin_of_isSmall (isSmall_of_isMark hx)] at hy
      exact (List.cons.inj hy).1.symm

/-! ## Texts with slashes -/

/-- Behind a slash no character is looked at. -/
theorem meetsCased_append_slash (cs ds : List Char) :
    meetsCased (cs ++ '/' :: ds) = meetsCased cs := by
  have hslash : isCaseIgnorable '/' = false ∧ isCased '/' = false := by decide
  induction cs with
  | nil => simp [meetsCased, hslash]
  | cons c rest ih =>
    unfold meetsCased at ih ⊢
    by_cases hc : isCaseIgnorable c = true
    · rw [List.cons_append, List.dropWhile_cons_of_pos hc, List.dropWhile_cons_of_pos hc, ih]
    · rw [List.cons_append, List.dropWhile_cons_of_neg hc, List.dropWhile_cons_of_neg hc]

theorem lowerFrom_of_slash (before other cs : List Char) :
    lowerFrom (before ++ '/' :: other) cs = lowerFrom before cs := by
  induction cs generalizing before with
  | nil => rfl
  | cons c rest ih =>
    have hwithin : lowerWithin (before ++ '/' :: other) c rest = lowerWithin before c rest := by
      rw [lowerWithin, lowerWithin, closesWord, closesWord, meetsCased_append_slash]
    rw [lowerFrom, lowerFrom, hwithin, ← List.cons_append, ih]

theorem lowerFrom_append_slash (before cs ds : List Char) :
    lowerFrom before (cs ++ '/' :: ds) = lowerFrom before cs ++ '/' :: lowerChars ds := by
  induction cs generalizing before with
  | nil =>
    have hslash : lowerWithin before '/' ds = ['/'] := lowerWithin_of_isSmall (by decide) before ds
    have hrest : lowerFrom ('/' :: before) ds = lowerChars ds := lowerFrom_of_slash [] before ds
    simp [lowerFrom, hslash, hrest]
  | cons c rest ih =>
    have hwithin : lowerWithin before c (rest ++ '/' :: ds) = lowerWithin before c rest := by
      rw [lowerWithin, lowerWithin, closesWord, closesWord, meetsCased_append_slash]
    rw [List.cons_append, lowerFrom, lowerFrom, hwithin, ih, List.append_assoc]

/-- The lower-case form of a path is that of its segments: no word goes on behind a slash. -/
theorem lowerChars_append_slash (cs ds : List Char) :
    lowerChars (cs ++ '/' :: ds) = lowerChars cs ++ '/' :: lowerChars ds :=
      lowerFrom_append_slash [] cs ds

/-- Dots in front stay there, and what follows them has some text before it. -/
theorem exists_lowerFrom_replicate_append (n : Nat) (before cs : List Char) : ∃ before',
    lowerFrom before (List.replicate n '.' ++ cs) =
      List.replicate n '.' ++ lowerFrom before' cs := by
  induction n generalizing before with
  | zero => exact ⟨before, rfl⟩
  | succ n ih =>
    obtain ⟨before', hrest⟩ := ih ('.' :: before)
    refine ⟨before', ?_⟩
    rw [List.replicate_succ, List.cons_append, lowerFrom, hrest,
      lowerWithin_of_isSmall (isSmall_of_isMark (.inl rfl))]
    rfl

/-! ## Texts of one character -/

/-- What has one character in lower case, other than a sigma, is a character that has this one as
its form. -/
theorem exists_of_lowerChars_eq_singleton {cs : List Char} {x : Char} (hx : x ≠ 'σ' ∧ x ≠ 'ς')
    (h : lowerChars cs = [x]) : ∃ c, cs = [c] ∧ lowerChar c = x := by
  cases cs with
  | nil => cases h
  | cons c rest =>
    rw [lowerChars, lowerFrom] at h
    obtain ⟨hfirst, -⟩ | ⟨hfirst, hrest⟩ := List.append_eq_singleton_iff.mp h
    · exact absurd hfirst (lowerWithin_ne_nil [] c rest)
    · have hnil : rest = [] := by
        cases rest with
        | nil => rfl
        | cons c' more =>
          exact absurd (List.append_eq_nil_iff.mp hrest).1 (lowerWithin_ne_nil [c] c' more)
      refine ⟨c, by rw [hnil], ?_⟩
      unfold lowerWithin at hfirst
      split at hfirst
      · split at hfirst <;> cases hfirst <;> simp at hx
      · split at hfirst <;> cases hfirst
        rfl

/-- Of the mappings only that of the capitals of ASCII reaches the small y. -/
private theorem lowerTable_y :
    ∀ run ∈ lowerTable, 0x79 ∈ run.pointsFrom run.target → run = ⟨0x41, 0x5A, 1, 0x61⟩ := by
  decide +kernel

theorem eq_of_lowerChar_eq_y {c : Char} (h : lowerChar c = 'y') : c = 'y' ∨ c = 'Y' := by
  unfold lowerChar at h
  split at h
  · rename_i m hm
    obtain rfl : m = 0x79 := by
      rw [← toNat_ofNat_of_isValidChar (image_facts hm).1, h]
      rfl
    obtain ⟨run, hrun, hmap⟩ := exists_run_of_mapCodePoint? hm
    obtain rfl := lowerTable_y run hrun (run.mem_pointsFrom hmap).2.1
    unfold CaseRun.map? at hmap
    split at hmap
    · rename_i hc
      have hpoint : 0x61 + (c.toNat - 0x41) = 0x79 := Option.some.inj hmap
      have hfirst : 0x41 ≤ c.toNat := hc.1
      exact .inr (Char.toNat_inj.mp (show c.toNat = 0x59 by omega))
    · cases hmap
  · exact .inl h

theorem toList_lowercase (s : String) : (lowercase s).toList = lowerChars s.toList :=
  String.toList_ofList

/-- A text that is a y in lower case is a small or a capital one. -/
theorem eq_of_lowercase_eq_y {s : String} (h : lowercase s = "y") : s = "y" ∨ s = "Y" := by
  have hlist : lowerChars s.toList = ['y'] := by rw [← toList_lowercase, h]; rfl
  obtain ⟨c, hs, hc⟩ := exists_of_lowerChars_eq_singleton (by decide) hlist
  rcases eq_of_lowerChar_eq_y hc with rfl | rfl
  · exact .inl (String.toList_inj.mp hs)
  · exact .inr (String.toList_inj.mp hs)

/-- A text that is a three in lower case is one. -/
theorem eq_of_lowercase_eq_three {s : String} (h : lowercase s = "3") : s = "3" := by
  have hlist : lowerChars s.toList = ['3'] := by rw [← toList_lowercase, h]; rfl
  obtain ⟨c, hs, hc⟩ := exists_of_lowerChars_eq_singleton (by decide) hlist
  rcases lowerChar_eq_or_lt c with hsame | hlt
  · exact String.toList_inj.mp (by rw [hs, ← hsame, hc]; rfl)
  · rw [hc] at hlt
    exact absurd hlt (by decide)

end Recase.Text
