import Recase.Proofs.Name.Entry

/-!
# Intended names

How a name is cut into the intended name and what makes it a temporary one.

* `Name.IsTemporaryFor`: the temporary names for an intended one. An intended name has no more than
  one cut (`dropTemporary?_eq_some_iff`), since a token does not end like the suffix.
* `temporaryTarget?_eq_some_iff`: the intended name of any name, with a line feed at its end or not.
* `IsTemporaryOf.temporaryTarget?_eq`: the intended name is read off the temporary names of an
  entry, if no line feed is in it. Only then are they known as temporary ones
  (`IsTemporaryOf.isTemporary_eq`).
-/

namespace Recase.Name

/-- The name is `target` with the suffix of temporary names, and a hyphen and a token behind it or
nothing. -/
inductive IsTemporaryFor (target : String) : String → Prop
  | untokened : IsTemporaryFor target (target ++ temporarySuffix)
  | tokened {text : String} (htoken : IsToken text) :
      IsTemporaryFor target (target ++ temporarySuffix ++ "-" ++ text)

variable {token : Nat → String} {name target temporary text : String} {cs front : List Char}

theorem IsTemporaryOf.isTemporaryFor (h : IsTemporaryOf token name temporary)
    (htoken : ∀ n, IsToken (token n)) :
    IsTemporaryFor name temporary := by
  cases h with
  | untokened => exact .untokened
  | tokened n => exact .tokened (htoken n)

/-- A temporary name goes on after the intended one. -/
theorem IsTemporaryFor.exists_append (h : IsTemporaryFor target name) :
    ∃ added, added ≠ "" ∧ name = target ++ added := by
  cases h with
  | untokened => exact ⟨_, by decide, rfl⟩
  | @tokened text _ =>
    refine ⟨temporarySuffix ++ "-" ++ text, fun hempty => ?_, by simp [String.append_assoc]⟩
    simpa [temporarySuffix] using congrArg String.toList hempty

/-! ## The suffix and the token -/

/-- The suffix is not at the end of a text with a token. -/
theorem isSuffixOf_tokened (htoken : IsToken text) :
    temporarySuffix.toList.isSuffixOf (cs ++ '-' :: text.toList) = false := by
  rw [Bool.eq_false_iff, ne_eq, List.isSuffixOf_iff_suffix]
  intro hsuffix
  have hlen : ('-' :: text.toList).length = 9 := by simp [htoken.1, tokenLength]
  have htail : '-' :: text.toList <:+ temporarySuffix.toList :=
    List.suffix_of_suffix_length_le (List.suffix_append _ _) hsuffix (by rw [hlen]; decide)
  have heq := List.suffix_iff_eq_drop.mp htail
  rw [hlen, show temporarySuffix.toList.drop _ = "mp-rename".toList by decide] at heq
  simp at heq

theorem isSuffixOf?_tokened (htoken : IsToken text) :
    temporarySuffix.toList.isSuffixOf? (cs ++ '-' :: text.toList) = none := by
  rw [← Option.not_isSome_iff_eq_none, List.isSome_isSuffixOf?_eq_isSuffixOf,
    isSuffixOf_tokened htoken]
  exact Bool.false_ne_true

theorem dropToken?_eq_some_iff :
    dropToken? cs = some front ↔ ∃ text, IsToken text ∧ cs = front ++ '-' :: text.toList := by
  unfold dropToken?
  dsimp only
  constructor
  · intro h
    split at h
    · rename_i htoken
      refine ⟨String.ofList (cs.drop (cs.length - tokenLength)), ⟨?_, ?_⟩, ?_⟩
      · simpa using htoken.1
      · simpa using htoken.2
      · rw [String.toList_ofList, List.append_cons, List.append_eq_of_isSuffixOf?_eq_some h,
          List.take_append_drop]
    · cases h
  · rintro ⟨text, ⟨hlen, hhex⟩, rfl⟩
    have hcut : front ++ '-' :: text.toList = (front ++ ['-']) ++ text.toList := by simp
    have hfront :
        ((front ++ ['-']) ++ text.toList).length - tokenLength = (front ++ ['-']).length := by
      rw [List.length_append, hlen, Nat.add_sub_cancel]
    rw [hcut, hfront, List.drop_left, List.take_left, if_pos ⟨hlen, List.all_eq_true.mpr hhex⟩,
      List.isSuffixOf?_eq_some_iff_append_eq]

/-- What stands before the suffix is found, whether a token stands behind it or not. -/
theorem dropTemporary?_eq_some_iff :
    dropTemporary? name.toList = some target.toList ↔ IsTemporaryFor target name := by
  unfold dropTemporary?
  constructor
  · intro h
    cases hfound : temporarySuffix.toList.isSuffixOf? name.toList with
    | some cut =>
      rw [hfound] at h
      obtain rfl := Option.some.inj h
      have hname : name = target ++ temporarySuffix :=
        String.toList_injective
          (by rw [String.toList_append, List.append_eq_of_isSuffixOf?_eq_some hfound])
      exact hname ▸ .untokened
    | none =>
      rw [hfound] at h
      obtain ⟨front, hfront, hcut⟩ := Option.bind_eq_some_iff.mp h
      obtain ⟨text, htoken, htext⟩ := dropToken?_eq_some_iff.mp hfront
      have hname : name = target ++ temporarySuffix ++ "-" ++ text :=
        String.toList_injective (by rw [htext, ← List.append_eq_of_isSuffixOf?_eq_some hcut]; simp)
      exact hname ▸ .tokened htoken
  · rintro (_ | ⟨htoken⟩)
    · rw [String.toList_append, List.isSuffixOf?_eq_some_iff_append_eq.mpr rfl]
    · rename_i text
      have htext : (target ++ temporarySuffix ++ "-" ++ text).toList =
          (target.toList ++ temporarySuffix.toList) ++ '-' :: text.toList := by simp
      rw [htext, isSuffixOf?_tokened htoken, dropToken?_eq_some_iff.mpr ⟨text, htoken, rfl⟩,
        Option.bind_some, List.isSuffixOf?_eq_some_iff_append_eq]

/-! ## The line feed -/

theorem eq_dropLineFeed_or (cs : List Char) :
    cs = dropLineFeed cs ∨ cs = dropLineFeed cs ++ ['\n'] := by
  unfold dropLineFeed
  cases hfound : ['\n'].isSuffixOf? cs with
  | none => exact .inl rfl
  | some front => exact .inr (List.append_eq_of_isSuffixOf?_eq_some hfound).symm

theorem dropLineFeed_append (cs : List Char) : dropLineFeed (cs ++ ['\n']) = cs := by
  rw [dropLineFeed, List.isSuffixOf?_eq_some_iff_append_eq.mpr rfl, Option.getD_some]

/-- A temporary name has no line feed at its end. -/
theorem IsTemporaryFor.dropLineFeed_eq (h : IsTemporaryFor target name) :
    dropLineFeed name.toList = name.toList := by
  obtain ⟨front, last, hlast, hne, hfeed⟩ :
      ∃ front last : List Char, name.toList = front ++ last ∧ last ≠ [] ∧ '\n' ∉ last := by
    cases h with
    | untokened => exact ⟨target.toList, temporarySuffix.toList, by simp, by decide, by decide⟩
    | @tokened text htoken =>
      refine ⟨(target ++ temporarySuffix ++ "-").toList, text.toList, by simp, ?_, fun hm => ?_⟩
      · exact List.ne_nil_of_length_pos (htoken.1 ▸ by decide)
      · exact absurd (htoken.2 '\n' hm) (by decide)
  rcases eq_dropLineFeed_or name.toList with hsame | hfed
  · exact hsame.symm
  · have hsuffix : ['\n'] <:+ last := by
      refine List.suffix_of_suffix_length_le ⟨_, hfed.symm⟩ ⟨front, hlast.symm⟩ ?_
      exact List.length_pos_iff.mpr hne
    exact absurd (hsuffix.subset (by simp)) hfeed

theorem IsTemporaryFor.dropTemporary?_eq (h : IsTemporaryFor target name) :
    dropTemporary? (dropLineFeed name.toList) = some target.toList := by
  rw [h.dropLineFeed_eq, dropTemporary?_eq_some_iff]
  exact h

/-- A name can be intended if it is not empty and has no line feed in it. -/
private theorem named_eq_some_iff :
    (if cs.isEmpty || cs.contains '\n' then none else some (String.ofList cs)) =
    some target ↔ cs = target.toList ∧ target ≠ "" ∧ '\n' ∉ target.toList := by
  constructor
  · intro h
    split at h
    · cases h
    · rename_i hnamed
      obtain rfl := Option.some.inj h
      simpa using hnamed
  · rintro ⟨rfl, hne, hfeed⟩
    rw [if_neg (by simp [hne, hfeed]), String.ofList_toList]

/-- The intended name of a name is read off the temporary one that it is, perhaps with a line feed
at its end. -/
theorem temporaryTarget?_eq_some_iff :
    temporaryTarget? name = some target ↔ target ≠ "" ∧ '\n' ∉ target.toList ∧
      ∃ temporary, IsTemporaryFor target temporary ∧
          (name = temporary ∨ name = temporary ++ "\n") := by
  rw [temporaryTarget?, Option.bind_eq_some_iff]
  simp only [named_eq_some_iff]
  constructor
  · rintro ⟨cs, hcs, rfl, hne, hfeed⟩
    have hcut : IsTemporaryFor target (String.ofList (dropLineFeed name.toList)) :=
      dropTemporary?_eq_some_iff.mp (by rwa [String.toList_ofList])
    refine ⟨hne, hfeed, _, hcut, ?_⟩
    rcases eq_dropLineFeed_or name.toList with hsame | hfed
    · exact .inl (String.toList_injective (by rw [String.toList_ofList, ← hsame]))
    · exact .inr
        (String.toList_injective (by rw [String.toList_append, String.toList_ofList]; exact hfed))
  · rintro ⟨hne, hfeed, temporary, hcut, rfl | rfl⟩
    · exact ⟨_, hcut.dropTemporary?_eq, rfl, hne, hfeed⟩
    · refine ⟨target.toList, ?_, rfl, hne, hfeed⟩
      rw [String.toList_append, show "\n".toList = ['\n'] from rfl, dropLineFeed_append,
        dropTemporary?_eq_some_iff]
      exact hcut

/-- Of names without a line feed those have an intended name that are temporary ones for it. -/
theorem temporaryTarget?_eq_some_iff_of_not_mem (h : '\n' ∉ name.toList) :
    temporaryTarget? name = some target ↔ target ≠ "" ∧ IsTemporaryFor target name := by
  rw [temporaryTarget?_eq_some_iff]
  constructor
  · rintro ⟨hne, -, temporary, hcut, rfl | rfl⟩
    · exact ⟨hne, hcut⟩
    · simp at h
  · rintro ⟨hne, hcut⟩
    refine ⟨hne, fun hfeed => h ?_, name, hcut, .inl rfl⟩
    obtain ⟨added, -, rfl⟩ := hcut.exists_append
    simp [hfeed]

/-! ## Temporary names of entries -/

/-- The intended name is read off a temporary one, unless it is empty or has a line feed in it. -/
theorem IsTemporaryFor.temporaryTarget?_eq_some_iff {read : String}
    (h : IsTemporaryFor target name) :
    temporaryTarget? name = some read ↔ read = target ∧ target ≠ "" ∧ '\n' ∉ target.toList := by
  rw [temporaryTarget?, h.dropTemporary?_eq, Option.bind_some, named_eq_some_iff, String.toList_inj]
  constructor
  · rintro ⟨rfl, hnamed⟩
    exact ⟨rfl, hnamed⟩
  · rintro ⟨rfl, hnamed⟩
    exact ⟨rfl, hnamed⟩

theorem IsTemporaryOf.temporaryTarget?_eq_ite (h : IsTemporaryOf token name temporary)
    (htoken : ∀ n, IsToken (token n)) (hne : name ≠ "") :
    temporaryTarget? temporary = if '\n' ∈ name.toList then none else some name := by
  have hcut := h.isTemporaryFor htoken
  split
  · rename_i hfeed
    refine Option.eq_none_iff_forall_ne_some.mpr fun read hread => ?_
    exact (hcut.temporaryTarget?_eq_some_iff.mp hread).2.2 hfeed
  · rename_i hfeed
    exact hcut.temporaryTarget?_eq_some_iff.mpr ⟨rfl, hne, hfeed⟩

theorem IsTemporaryOf.temporaryTarget?_eq (h : IsTemporaryOf token name temporary)
    (htoken : ∀ n, IsToken (token n)) (hne : name ≠ "") (hline : '\n' ∉ name.toList) :
    temporaryTarget? temporary = some name := by
  rw [h.temporaryTarget?_eq_ite htoken hne, if_neg hline]

/-- A temporary name is known as one unless there is a line feed in the name that it stands for. -/
theorem IsTemporaryOf.isTemporary_eq (h : IsTemporaryOf token name temporary)
    (htoken : ∀ n, IsToken (token n)) (hne : name ≠ "") :
    isTemporary temporary = decide ('\n' ∉ name.toList) := by
  rw [isTemporary, h.temporaryTarget?_eq_ite htoken hne]
  split <;> simp [*]

/-- An intended name is not empty, and a temporary one goes on after it. -/
theorem exists_of_temporaryTarget? (h : temporaryTarget? name = some target) :
    target ≠ "" ∧ ∃ added, added ≠ "" ∧ name = target ++ added := by
  obtain ⟨hne, -, temporary, hcut, hname⟩ := temporaryTarget?_eq_some_iff.mp h
  obtain ⟨added, hadded, rfl⟩ := hcut.exists_append
  refine ⟨hne, ?_⟩
  rcases hname with rfl | rfl
  · exact ⟨added, hadded, rfl⟩
  · exact ⟨added ++ "\n", by simp, String.append_assoc⟩

end Recase.Name
