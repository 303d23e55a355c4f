import Mathlib.Data.List.Nodup
import Recase.Proofs.Tree.Basic

/-!
# Trees after a move

What carrying an entry to another place leaves where.

* `Tree.Carries`: a tree holds below one place what another holds below another place, and the same
  everywhere else. `WellFormed.carries_move`: it does so after a move.
* `WellFormed.node?_below_eq_none`: below what is no directory there is nothing.
* `WellFormed.move`: a tree is well formed after an entry has been carried to a place in a directory
  below which there was nothing, and free of links if it has been (`LinkFree.move`).
  `WellFormed.move_within`: so it is after an entry has got a free name in its directory.
-/

namespace Recase

namespace Place

variable {src dst : Place} {rest : List String}

theorem carried_append (src dst : Place) (rest : List String) :
    Place.carried (src ++ rest) src dst = dst ++ rest := by
  unfold Place.carried
  rw [Place.isPrefixOf?_eq_some_iff.mpr rfl]

theorem carried_of_not_prefix {place : Place} (h : ¬ src <+: place) :
    place.carried src dst = place := by
  unfold Place.carried
  cases hrest : src.isPrefixOf? place with
  | none => rfl
  | some rest =>
    apply absurd _ h
    exact ⟨rest, (Place.isPrefixOf?_eq_some_iff.mp hrest).symm⟩

theorem append_ne_nil_of_not_prefix (h : ¬ src <+: dst) (rest : List String) :
    src ++ rest ≠ [] := by
  intro hnil
  rw [(List.append_eq_nil_iff.mp hnil).1] at h
  exact h List.nil_prefix

end Place

namespace Tree

variable {t : Tree} {src dst place other : Place} {node : Node}

/-- What `t` holds at `src` and below, `after` holds at `dst` and below; it holds nothing at `src`,
and everywhere else what `t` holds. There is nothing below `dst` in `t` that could be lost. -/
structure Carries (t after : Tree) (src dst : Place) : Prop where
  carried : ∀ rest, after.node? (dst ++ rest) = t.node? (src ++ rest)
  left : ∀ rest, after.node? (src ++ rest) = none
  kept : ∀ place, ¬ src <+: place → ¬ dst <+: place → after.node? place = t.node? place
  clear : ∀ rest, rest ≠ [] → t.node? (dst ++ rest) = none

/-- What is neither at `dst` nor below is where it is carried. -/
theorem Carries.node?_carried {after : Tree} (h : t.Carries after src dst)
    (hplace : ¬ dst <+: place) :
    after.node? (place.carried src dst) = t.node? place := by
  by_cases hsrc : src <+: place
  · obtain ⟨rest, rfl⟩ := hsrc
    rw [Place.carried_append, h.carried]
  · rw [Place.carried_of_not_prefix hsrc, h.kept place hsrc hplace]

/-- Below what is no directory there is nothing. -/
theorem WellFormed.node?_below_eq_none (ht : t.WellFormed) (h : t.isDirectory place = false)
    {rest : List String} (hrest : rest ≠ []) : t.node? (place ++ rest) = none := by
  by_contra hnode
  obtain ⟨node, hnode⟩ := Option.ne_none_iff_exists'.mp hnode
  rw [ht.isDirectory_of_append hrest hnode] at h
  cases h

/-- Places none of which lies at `dst` or below are carried to different places. -/
theorem carried_injective (hplace : ¬ dst <+: place) (hother : ¬ dst <+: other)
    (h : place.carried src dst = other.carried src dst) : place = other := by
  by_cases hsrc : src <+: place <;> by_cases hsrc' : src <+: other
  · obtain ⟨rest, rfl⟩ := hsrc
    obtain ⟨rest', rfl⟩ := hsrc'
    rw [Place.carried_append, Place.carried_append] at h
    rw [List.append_cancel_left h]
  · obtain ⟨rest, rfl⟩ := hsrc
    rw [Place.carried_append, Place.carried_of_not_prefix hsrc'] at h
    exact absurd ⟨rest, h⟩ hother
  · obtain ⟨rest, rfl⟩ := hsrc'
    rw [Place.carried_append, Place.carried_of_not_prefix hsrc] at h
    exact absurd ⟨rest, h.symm⟩ hplace
  · rwa [Place.carried_of_not_prefix hsrc, Place.carried_of_not_prefix hsrc'] at h

section Move

variable (ht : t.WellFormed) (hsrc : ¬ src <+: dst) (hdst : ¬ dst <+: src)
  (hbare : ∀ rest, rest ≠ [] → t.node? (dst ++ rest) = none)
include ht hbare

/-- The entries that a move carries or leaves are not at its destination or below. -/
theorem not_prefix_of_mem {e : Place × Node} (he : e ∈ t.entries) (hne : e.1 ≠ dst) :
    ¬ dst <+: e.1 := by
  rintro ⟨rest, hrest⟩
  have hcons : rest ≠ [] := by
    rintro rfl
    apply hne
    simpa using hrest.symm
  have hnone := hbare rest hcons
  rw [hrest, ht.node?_of_mem he] at hnone
  cases hnone

theorem nodup_move : ((t.move src dst).entries.map (·.1)).Nodup := by
  have hmap : (t.move src dst).entries.map (·.1) =
      ((t.entries.filter (·.1 != dst)).map (·.1)).map fun place => place.carried src dst := by
    simp [move, Function.comp_def]
  rw [hmap]
  have hkept : ∀ q ∈ (t.entries.filter (·.1 != dst)).map (·.1), ¬ dst <+: q := by
    intro q hq
    obtain ⟨e, he, rfl⟩ := List.mem_map.mp hq
    obtain ⟨he, hne⟩ := List.mem_filter.mp he
    exact not_prefix_of_mem ht hbare he (bne_iff_ne.mp hne)
  apply List.Nodup.map_on
  · intro q hq q' hq' h
    exact carried_injective (hkept q hq) (hkept q' hq') h
  · exact ht.nodup.sublist (List.filter_sublist.map _)

/-- What is anywhere after a move was carried there. -/
theorem node?_move_iff (hne : place ≠ []) :
    (t.move src dst).node? place = some node ↔
      ∃ source, source ≠ [] ∧ t.node? source = some node ∧ source ≠ dst ∧
        Place.carried source src dst = place := by
  rw [node?_of_ne_nil hne, lookup_eq_some_iff (nodup_move ht hbare)]
  unfold move
  constructor
  · intro hmem
    obtain ⟨⟨source, node'⟩, he, heq⟩ := List.mem_map.mp hmem
    obtain ⟨he, hkept⟩ := List.mem_filter.mp he
    cases heq
    exact ⟨source, ht.ne_top _ he, ht.node?_of_mem he, bne_iff_ne.mp hkept, rfl⟩
  · rintro ⟨source, hsource, hnode, hkept, rfl⟩
    have he := (ht.node?_eq_some_iff hsource).mp hnode
    exact List.mem_map.mpr ⟨_, List.mem_filter.mpr ⟨he, bne_iff_ne.mpr hkept⟩, rfl⟩

include hsrc hdst

/-- A move carries what is at `src` to `dst`, below which there is nothing, and nothing else
anywhere. -/
theorem WellFormed.carries_move : t.Carries (t.move src dst) src dst where
  carried := by
    intro rest
    apply Option.ext
    intro node
    rw [node?_move_iff ht hbare (Place.append_ne_nil_of_not_prefix hdst rest)]
    constructor
    · rintro ⟨source, hsource, hnode, hkept, heq⟩
      by_cases hbelow : src <+: source
      · obtain ⟨rest', rfl⟩ := hbelow
        rw [Place.carried_append] at heq
        rwa [List.append_cancel_left heq] at hnode
      · rw [Place.carried_of_not_prefix hbelow] at heq
        have hmem := (ht.node?_eq_some_iff hsource).mp hnode
        exact absurd ⟨rest, heq.symm⟩ (not_prefix_of_mem ht hbare hmem hkept)
    · intro hnode
      refine ⟨src ++ rest, Place.append_ne_nil_of_not_prefix hsrc rest, hnode, ?_,
        Place.carried_append src dst rest⟩
      exact fun heq => hsrc ⟨rest, heq⟩
  left := by
    intro rest
    have hne := Place.append_ne_nil_of_not_prefix hsrc rest
    apply Option.eq_none_iff_forall_not_mem.mpr
    intro node hnode
    obtain ⟨source, -, -, -, heq⟩ := (node?_move_iff ht hbare hne).mp hnode
    by_cases hbelow : src <+: source
    · obtain ⟨rest', rfl⟩ := hbelow
      rw [Place.carried_append] at heq
      rcases List.append_eq_append_iff.mp heq with ⟨between, hbetween, -⟩ | ⟨between, hbetween, -⟩
      · exact hdst ⟨between, hbetween.symm⟩
      · exact hsrc ⟨between, hbetween.symm⟩
    · rw [Place.carried_of_not_prefix hbelow] at heq
      exact hbelow ⟨rest, heq.symm⟩
  kept := by
    intro place hplace hplace'
    rcases eq_or_ne place [] with rfl | hne
    · simp
    apply Option.ext
    intro node
    rw [node?_move_iff ht hbare hne]
    constructor
    · rintro ⟨source, -, hnode, -, heq⟩
      by_cases hbelow : src <+: source
      · obtain ⟨rest, rfl⟩ := hbelow
        rw [Place.carried_append] at heq
        exact absurd ⟨rest, heq⟩ hplace'
      · rw [Place.carried_of_not_prefix hbelow] at heq
        rwa [← heq]
    · intro hnode
      refine ⟨place, hne, hnode, ?_, Place.carried_of_not_prefix hplace⟩
      rintro rfl
      exact hplace' (List.prefix_refl _)
  clear := hbare

end Move

/-! ## Moves within a directory -/

/-- An entry after a move has been carried or left where it was. -/
theorem mem_move_cases (ht : t.WellFormed) {e : Place × Node} (he : e ∈ (t.move src dst).entries) :
    (∃ rest, e.1 = dst ++ rest ∧ t.node? (src ++ rest) = some e.2) ∨
      e.1 ≠ [] ∧ t.node? e.1 = some e.2 ∧ ¬ src <+: e.1 := by
  obtain ⟨⟨source, node⟩, hmem, rfl⟩ := List.mem_map.mp he
  have hmem := (List.mem_filter.mp hmem).1
  have hnode := ht.node?_of_mem hmem
  by_cases hbelow : src <+: source
  · obtain ⟨rest, rfl⟩ := hbelow
    exact .inl ⟨rest, Place.carried_append src dst rest, hnode⟩
  · refine .inr ?_
    dsimp only
    rw [Place.carried_of_not_prefix hbelow]
    exact ⟨ht.ne_top _ hmem, hnode, hbelow⟩

/-- A tree is well formed after a move to a name in a directory, below which there is nothing. -/
theorem WellFormed.move {above : Place} {y : String} (ht : t.WellFormed)
    (hsrc : ¬ src <+: above ++ [y]) (hdst : ¬ above ++ [y] <+: src)
    (hbare : ∀ rest, rest ≠ [] → t.node? (above ++ [y] ++ rest) = none)
    (habove : t.isDirectory above = true) (hname : isEntryName y = true) :
    (t.move src (above ++ [y])).WellFormed := by
  have hcarries := ht.carries_move hsrc hdst hbare
  -- what is a directory, and neither carried nor replaced, is one still
  have hstays : ∀ place, t.isDirectory place = true → ¬ src <+: place → ¬ above ++ [y] <+: place →
      (t.move src (above ++ [y])).isDirectory place = true := by
    intro place hplace hsrc' hdst'
    rw [isDirectory_iff] at hplace ⊢
    rw [hcarries.kept place hsrc' hdst', hplace]
  refine ⟨nodup_move ht hbare, fun e he => ?_, fun e he => ?_, fun e he name hmem => ?_⟩ <;>
    obtain ⟨rest, hplace, hentry⟩ | ⟨hne, hentry, hsrc'⟩ := mem_move_cases ht he
  · simp [hplace]
  · exact hne
  · rw [hplace]
    rcases List.eq_nil_or_concat rest with rfl | ⟨front, last, rfl⟩
    · rw [List.append_nil, List.dropLast_concat]
      refine hstays above habove (fun hpre => hsrc (hpre.trans (List.prefix_append _ _)))
        fun hpre => ?_
      have hlen := hpre.length_le
      rw [List.length_append, List.length_singleton] at hlen
      omega
    · rw [List.concat_eq_append, ← List.append_assoc] at hentry ⊢
      rw [List.dropLast_concat, isDirectory, hcarries.carried]
      exact ht.isDirectory_of_concat hentry
  · have hdir := ht.parent _ ((ht.node?_eq_some_iff hne).mp hentry)
    refine hstays _ hdir (fun hpre => hsrc' (hpre.trans (List.dropLast_prefix _))) ?_
    rintro ⟨rest, hrest⟩
    have hbelow : e.1 = above ++ [y] ++ (rest ++ [e.1.getLast hne]) := by
      rw [← List.append_assoc, hrest, List.dropLast_append_getLast]
    rw [hbelow, hbare _ (by simp)] at hentry
    cases hentry
  · rw [hplace, List.append_assoc, List.mem_append, List.singleton_append, List.mem_cons] at hmem
    rcases hmem with hmem | rfl | hmem
    · exact ht.entryName (isDirectory_iff.mp habove) hmem
    · exact hname
    · exact ht.entryName hentry (List.mem_append_right _ hmem)
  · exact ht.entryName hentry hmem

theorem LinkFree.move (h : t.LinkFree) (ht : t.WellFormed) : (t.move src dst).LinkFree := by
  refine linkFree_of_entries fun e he target htarget => ?_
  obtain ⟨rest, -, hnode⟩ | ⟨-, hnode, -⟩ := mem_move_cases ht he
  · exact h _ target (htarget ▸ hnode)
  · exact h _ target (htarget ▸ hnode)

section Within

variable {parent : Place} {x y : String} (ht : t.WellFormed)
  (hnode : t.node? (parent ++ [x]) = some node) (hfree : t.node? (parent ++ [y]) = none)
include ht hfree

/-- There is nothing at a free place or below. -/
theorem WellFormed.not_prefix_of_free (hplace : t.node? place ≠ none) :
    ¬ parent ++ [y] <+: place := by
  rintro ⟨rest, rfl⟩
  rcases eq_or_ne rest [] with rfl | hne
  · rw [List.append_nil] at hplace
    exact hplace hfree
  · exact hplace (ht.node?_below_eq_none (by simp [isDirectory, hfree]) hne)

include hnode

/-- An entry that gets a free name in its directory is carried there. -/
theorem WellFormed.carries_within :
    t.Carries (t.move (parent ++ [x]) (parent ++ [y])) (parent ++ [x]) (parent ++ [y]) := by
  have hthere : t.node? (parent ++ [x]) ≠ none := by simp [hnode]
  have hdst := ht.not_prefix_of_free hfree hthere
  refine ht.carries_move (fun hpre => hdst ?_) hdst fun _ =>
    ht.node?_below_eq_none (by simp [isDirectory, hfree])
  have hsame := hpre.eq_of_length (by simp)
  exact hsame ▸ List.prefix_rfl

/-- A tree is well formed after an entry has got a free name in its directory. -/
theorem WellFormed.move_within (hname : isEntryName y = true) :
    (t.move (parent ++ [x]) (parent ++ [y])).WellFormed := by
  have hdst := ht.not_prefix_of_free hfree (by simp [hnode] : t.node? (parent ++ [x]) ≠ none)
  refine ht.move (fun hpre => hdst ?_) hdst
    (fun _ => ht.node?_below_eq_none (by simp [isDirectory, hfree]))
    (ht.isDirectory_of_concat hnode) hname
  have hsame := hpre.eq_of_length (by simp)
  exact hsame ▸ List.prefix_rfl

end Within

end Tree

end Recase
