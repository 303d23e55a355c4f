import Recase.Name.Convert
import Recase.Name.Temporary
import Recase.Proofs.Name.Extension
import Recase.Tree.Basic

/-!
# Names of entries

* `Name.IsPlain`: a text that names one step down. The names of entries are the plain names that are
  not too long (`Tree.isEntryName_iff`).
* `EntryKind.convert_convert`: converting twice is converting once.
* `EntryKind.convert_convert_directory`: the converted name of a directory is left alone by both
  rules.
* `EntryKind.isPlain_convert`: the converted name of a retained entry is plain.
* `Name.IsToken`, `Name.IsTemporaryOf`: tokens (`isToken_tokenText`), and the temporary names of an
  entry with a given converted name; they are plain (`IsTemporaryOf.isPlain`), and those of a
  directory are left alone by the rules (`IsTemporaryOf.convert_eq`).
-/

namespace Recase

open Name Text

/-- A text that names one step down: not empty, neither a dot nor two dots, no slash and no NUL. -/
structure Name.IsPlain (name : String) : Prop where
  ne_empty : name ≠ ""
  ne_dot : name ≠ "."
  ne_dots : name ≠ ".."
  slash : '/' ∉ name.toList
  nul : '\x00' ∉ name.toList

theorem Tree.isEntryName_iff {name : String} :
    isEntryName name = true ↔ IsPlain name ∧ name.utf8ByteSize ≤ nameLimit := by
  simp only [isEntryName, Bool.and_eq_true, bne_iff_ne, decide_eq_true_eq, Bool.not_eq_true',
    List.contains_eq_mem, decide_eq_false_iff_not]
  constructor
  · rintro ⟨⟨⟨⟨⟨h1, h2⟩, h3⟩, h4⟩, h5⟩, h6⟩
    exact ⟨⟨h1, h2, h3, h5, h6⟩, h4⟩
  · rintro ⟨⟨h1, h2, h3, h4, h5⟩, h6⟩
    exact ⟨⟨⟨⟨⟨h1, h2⟩, h3⟩, h6⟩, h4⟩, h5⟩

/-- A text that starts with no dot is plain if it has no slash and no NUL. -/
theorem Name.isPlain_of_head? {name : String} {c : Char} (hhead : name.toList.head? = some c)
    (hdot : c ≠ '.') (hslash : '/' ∉ name.toList) (hnul : '\x00' ∉ name.toList) : IsPlain name := by
  have hne : ∀ other : String, other.toList.head? ≠ some c → name ≠ other := by
    rintro other hother rfl
    exact hother hhead
  have hstart : some '.' ≠ some c := fun heq => hdot (Option.some.inj heq).symm
  exact ⟨hne _ (by simp), hne _ hstart, hne _ hstart, hslash, hnul⟩

theorem Name.head?_ne_dot_of_not_isSkipped {ignored : List String} {name : String}
    (h : isSkipped ignored name = false) : name.toList.head? ≠ some '.' := by
  simp only [isSkipped, Bool.or_eq_false_iff, beq_eq_false_iff_ne] at h
  exact h.1

namespace EntryKind

theorem toList_convert (kind : EntryKind) (name : String) :
    (kind.convert name).toList =
      match kind with
      | .directory => kebab name.toList
      | .file => fileName name.toList := by
  cases kind <;> simp [convert, directoryName]

theorem convert_eq_self_of_isSmall {kind : EntryKind} {name : String}
    (h : ∀ c ∈ name.toList, IsSmall c) : kind.convert name = name := by
  cases kind
  · simp [convert, directoryName, kebab_of_isSmall h]
  · simp [convert, fileName_of_isSmall h]

theorem isSmall_of_mem_convert_directory {name : String} {c : Char}
    (h : c ∈ (directory.convert name).toList) : IsSmall c := by
  rw [toList_convert] at h
  exact isSmall_of_mem_kebab h

/-- The converted name of a directory is left alone by both rules. -/
theorem convert_convert_directory (kind : EntryKind) (name : String) :
    kind.convert (directory.convert name) = directory.convert name :=
  convert_eq_self_of_isSmall fun _ => isSmall_of_mem_convert_directory

/-- Converting twice is converting once. -/
theorem convert_convert (kind : EntryKind) (name : String) :
    kind.convert (kind.convert name) = kind.convert name := by
  cases kind with
  | directory => exact convert_convert_directory _ _
  | file => simp [convert]

theorem mem_convert_iff_of_isMark {kind : EntryKind} {name : String} {x : Char} (hx : IsMark x) :
    x ∈ (kind.convert name).toList ↔ x ∈ name.toList := by
  cases kind
  · simp [toList_convert, mem_kebab_iff_of_isMark hx]
  · simp [toList_convert, mem_fileName_iff_of_isMark hx]

theorem head?_convert_ne_dot {kind : EntryKind} {name : String}
    (h : name.toList.head? ≠ some '.') : (kind.convert name).toList.head? ≠ some '.' := by
  cases kind
  · exact fun he =>
      h ((head?_kebab_iff_of_isMark (by decide)).mp (by simpa [toList_convert] using he))
  · exact fun he =>
      h ((head?_fileName_iff_of_isMark (by decide)).mp (by simpa [toList_convert] using he))

theorem convert_eq_empty_iff {kind : EntryKind} {name : String} :
    kind.convert name = "" ↔ name = "" := by
  rw [← String.toList_eq_nil_iff, ← String.toList_eq_nil_iff]
  cases kind
  · simp [toList_convert, kebab_eq_nil_iff]
  · simp [toList_convert, fileName_eq_nil_iff]

/-- The converted name of a plain name that does not start with a dot is plain. -/
theorem isPlain_convert {kind : EntryKind} {name : String} (h : IsPlain name)
    (hdot : name.toList.head? ≠ some '.') : IsPlain (kind.convert name) := by
  have hhead : (kind.convert name).toList.head? ≠ some '.' := head?_convert_ne_dot hdot
  refine ⟨fun he => h.ne_empty (convert_eq_empty_iff.mp he), ?_, ?_, ?_, ?_⟩
  · rintro he; simp [he] at hhead
  · rintro he; simp [he] at hhead
  · rw [mem_convert_iff_of_isMark (by decide)]; exact h.slash
  · rw [mem_convert_iff_of_isMark (by decide)]; exact h.nul

end EntryKind

/-! ## Temporary names -/

namespace Name

/-- A token of a temporary name: eight lower-case digits of base sixteen. -/
def IsToken (text : String) : Prop :=
  text.toList.length = tokenLength ∧ ∀ c ∈ text.toList, isHexDigit c = true

/-- The temporary names of an entry whose converted name is `name`. -/
inductive IsTemporaryOf (token : Nat → String) (name : String) : String → Prop
  | untokened : IsTemporaryOf token name (name ++ temporarySuffix)
  | tokened (n : Nat) : IsTemporaryOf token name (name ++ temporarySuffix ++ "-" ++ token n)

theorem isHexDigit_of_mem_toDigits {n : Nat} {c : Char} (h : c ∈ Nat.toDigits 16 n) :
    isHexDigit c = true := by
  have hdigit : ∀ d < 16, isHexDigit (Nat.digitChar d) = true := by decide
  induction n using Nat.strongRecOn with
  | ind n ih =>
    rw [Nat.toDigits_eq_if (by decide)] at h
    split at h
    · rename_i hn
      rw [List.mem_singleton.mp h]
      exact hdigit n hn
    · rename_i hn
      rcases List.mem_append.mp h with h | h
      · exact ih (n / 16) (by omega) h
      · rw [List.mem_singleton.mp h]
        exact hdigit (n % 16) (by omega)

/-- The token of a number is a token. -/
theorem isToken_tokenText (n : Nat) : IsToken (tokenText n) := by
  have hlen : (Nat.toDigits 16 (n % Nat.pow 16 tokenLength)).length ≤ tokenLength :=
    (Nat.length_toDigits_le_iff (by decide) (by decide)).mpr (Nat.mod_lt _ (by decide))
  refine ⟨?_, fun c hc => ?_⟩
  · simp only [tokenText, hexDigits, String.toList_ofList, List.length_append,
      List.length_replicate]
    omega
  · simp only [tokenText, hexDigits, String.toList_ofList, List.mem_append] at hc
    rcases hc with hc | hc
    · rw [List.eq_of_mem_replicate hc]
      decide
    · exact isHexDigit_of_mem_toDigits hc

theorem isSmall_of_isHexDigit {c : Char} (h : isHexDigit c = true) : IsSmall c ∧ ¬ IsMark c := by
  have hc : 48 ≤ c.toNat ∧ c.toNat < 48 + 10 ∨ 97 ≤ c.toNat ∧ c.toNat < 97 + 6 := by
    simpa [isHexDigit, Char.isDigit, Char.le_def, UInt32.le_iff_toNat_le, ← Char.toNat_val,
      Nat.lt_succ_iff] using h
  rcases hc with hc | hc
  · exact of_codePoints (P := fun c => IsSmall c ∧ ¬ IsMark c) (by decide) hc
  · exact of_codePoints (P := fun c => IsSmall c ∧ ¬ IsMark c) (by decide) hc

variable {token : Nat → String} {name temporary : String}

/-- A temporary name is the intended one and then small characters that are no marks but dots. -/
theorem IsTemporaryOf.exists_append (h : IsTemporaryOf token name temporary)
    (htoken : ∀ n, IsToken (token n)) :
    ∃ added, temporary = name ++ added ∧ added ≠ "" ∧
      ∀ c ∈ added.toList, IsSmall c ∧ c ≠ '/' ∧ c ≠ '\x00' := by
  have hsuffix : ∀ c ∈ temporarySuffix.toList, IsSmall c ∧ c ≠ '/' ∧ c ≠ '\x00' := by
    -- decided through the list, for the statement itself may be decided over all characters
    have hall : temporarySuffix.toList.all (fun c => IsSmall c ∧ c ≠ '/' ∧ c ≠ '\x00') = true := by
      decide
    simpa only [List.all_eq_true, decide_eq_true_eq] using hall
  have hhyphen : IsSmall '-' := by decide
  cases h with
  | untokened => exact ⟨_, rfl, by decide, hsuffix⟩
  | tokened n =>
    refine ⟨temporarySuffix ++ "-" ++ token n, by simp [String.append_assoc], ?_, fun c hc => ?_⟩
    · intro he
      have := congrArg String.toList he
      simp [temporarySuffix] at this
    · simp only [String.toList_append, List.mem_append] at hc
      rcases hc with (hc | hc) | hc
      · exact hsuffix c hc
      · rw [show c = '-' by simpa using hc]
        exact ⟨hhyphen, by decide, by decide⟩
      · obtain ⟨h1, h2⟩ := isSmall_of_isHexDigit ((htoken n).2 c hc)
        exact ⟨h1, fun he => h2 (.inr (.inl he)), fun he => h2 (.inr (.inr he))⟩

theorem IsTemporaryOf.ne (h : IsTemporaryOf token name temporary) : temporary ≠ name := by
  intro he
  have hlen : temporary.toList.length = name.toList.length := by rw [he]
  cases h <;> simp [temporarySuffix] at hlen

theorem IsTemporaryOf.isPlain (h : IsTemporaryOf token name temporary)
    (htoken : ∀ n, IsToken (token n)) (hname : IsPlain name)
    (hdot : name.toList.head? ≠ some '.') : IsPlain temporary := by
  obtain ⟨added, rfl, -, hadded⟩ := h.exists_append htoken
  have hne : name.toList ≠ [] := by simpa using hname.ne_empty
  have hhead : (name ++ added).toList.head? ≠ some '.' := by
    obtain ⟨c, rest, hc⟩ := List.exists_cons_of_ne_nil hne
    rw [String.toList_append, hc]
    simpa [hc] using hdot
  refine ⟨fun he => ?_, fun he => ?_, fun he => ?_, ?_, ?_⟩
  · exact hne (by have := congrArg String.toList he; simp at this; simp [this.1])
  · rw [he] at hhead; simp at hhead
  · rw [he] at hhead; simp at hhead
  · rw [String.toList_append, List.mem_append, not_or]
    exact ⟨hname.slash, fun hc => (hadded _ hc).2.1 rfl⟩
  · rw [String.toList_append, List.mem_append, not_or]
    exact ⟨hname.nul, fun hc => (hadded _ hc).2.2 rfl⟩

/-- A temporary name starts its extension where it goes on after the intended one. -/
theorem IsTemporaryOf.exists_extension (h : IsTemporaryOf token name temporary)
    (htoken : ∀ n, IsToken (token n)) :
    ∃ rest, temporary.toList = name.toList ++ '.' :: rest ∧ '.' ∉ rest ∧ '/' ∉ rest := by
  have hsuffix : temporarySuffix.toList = '.' :: temporarySuffix.toList.tail := by decide
  have htail : '.' ∉ temporarySuffix.toList.tail ∧ '/' ∉ temporarySuffix.toList.tail := by
    decide
  cases h with
  | untokened => exact ⟨temporarySuffix.toList.tail, by rw [← hsuffix]; simp, htail⟩
  | tokened n =>
    have hmark : ∀ c ∈ (token n).toList, ¬ IsMark c :=
      fun c hc => (isSmall_of_isHexDigit ((htoken n).2 c hc)).2
    refine ⟨temporarySuffix.toList.tail ++ '-' :: (token n).toList, ?_, ?_, ?_⟩
    · rw [← List.cons_append, ← hsuffix]
      simp
    · simp only [List.mem_append, List.mem_cons, not_or]
      exact ⟨htail.1, by decide, fun hc => hmark _ hc (.inl rfl)⟩
    · simp only [List.mem_append, List.mem_cons, not_or]
      exact ⟨htail.2, by decide, fun hc => hmark _ hc (.inr (.inl rfl))⟩

/-- A temporary name for the converted name of an entry is not the name that the entry has. -/
theorem IsTemporaryOf.ne_source {kind : EntryKind}
    (h : IsTemporaryOf token (kind.convert name) temporary) (htoken : ∀ n, IsToken (token n))
    (hname : IsVisible name.toList) (hne : name ≠ "") : temporary ≠ name := by
  rintro rfl
  -- a name of small characters is its own converted name, and not one with a suffix
  have hsmall : ¬ ∀ c ∈ (kind.convert temporary).toList, IsSmall c := by
    intro hsmall
    obtain ⟨added, hadded, -, haddedSmall⟩ := h.exists_append htoken
    have hall : ∀ c ∈ temporary.toList, IsSmall c := by
      intro c hc
      rw [hadded, String.toList_append, List.mem_append] at hc
      exact hc.elim (hsmall c) fun hc => (haddedSmall c hc).1
    exact h.ne (EntryKind.convert_eq_self_of_isSmall hall).symm
  cases kind with
  | directory => exact hsmall fun c => EntryKind.isSmall_of_mem_convert_directory
  | file =>
    obtain ⟨rest, hrest, hdot, hslash⟩ := h.exists_extension htoken
    have hstem : (EntryKind.file.convert temporary).toList ≠ [] := by
      simpa using fun he => hne (EntryKind.convert_eq_empty_iff.mp he)
    have hvisible : IsVisible (EntryKind.file.convert temporary).toList := by
      refine ⟨fun hhead => hname.1 ?_, fun hm => hname.2 ?_⟩
      · rw [hrest, List.head?_append, hhead]
        rfl
      · rw [hrest]
        exact List.mem_append_left _ hm
    have hconverted : (EntryKind.file.convert temporary).toList =
        kebab (EntryKind.file.convert temporary).toList ++ '.' :: rest := by
      conv => lhs; rw [EntryKind.toList_convert]
      dsimp only
      rw [fileName_eq, hrest, cutExtension_append_dot hvisible.2 (hvisible.exists_ne_dot hstem) hdot
        hslash]
    refine hsmall fun c hc => ?_
    rw [hconverted, List.mem_append] at hc
    rcases hc with hc | hc
    · exact isSmall_of_mem_kebab hc
    · obtain ⟨added, hadded, -, haddedSmall⟩ := h.exists_append htoken
      refine (haddedSmall c ?_).1
      have hsame := congrArg String.toList hadded
      rw [String.toList_append, hrest] at hsame
      rwa [← List.append_cancel_left hsame]

/-- The temporary names of a directory are left alone by the rules. -/
theorem IsTemporaryOf.convert_eq (kind : EntryKind)
    (h : IsTemporaryOf token (EntryKind.directory.convert name) temporary)
    (htoken : ∀ n, IsToken (token n)) : kind.convert temporary = temporary := by
  obtain ⟨added, rfl, -, hadded⟩ := h.exists_append htoken
  refine EntryKind.convert_eq_self_of_isSmall fun c hc => ?_
  rw [String.toList_append, List.mem_append] at hc
  rcases hc with hc | hc
  · exact EntryKind.isSmall_of_mem_convert_directory hc
  · exact (hadded c hc).1

end Name

end Recase
