import Recase.Proofs.Plan.Sequence

/-!
# What conflicts tell

The conflicts among any distinct items, whether they are renamed or not.

* `eraseDups_map`: the keys of a list, each once, are those of the elements that come first with
  them.
* `Item.rivals`: the items of a root whose converted paths are equal without regard to case, in the
  order in which they are given. `Item.leadsRivals`: whether an item is the first of two or more.
* `AreDistinct.find?_keyed`: the item that a conflict is named after is found by its root and path.
* `conflictsOf_eq`: the conflicts are those of the items that lead rivals, in their order.
* `conflictsOf_rivals`: their messages, which tell of all rivals once and of nothing else.
-/

namespace Recase

open Text

/-! ## Keys -/

section Keys

variable {α β : Type} [BEq β] [LawfulBEq β] (f : α → β)

/-- An element that is found among those with another key than some is found among all. -/
theorem find?_filter_key (xs : List α) {a x : α} (h : f a ≠ f x) :
    (xs.filter fun y => !(f y == f a)).find? (f · == f x) = xs.find? (f · == f x) := by
  rw [List.find?_filter]
  congr 1
  funext y
  by_cases hy : f y = f x
  · simp [hy, h.symm]
  · simp [hy]

/-- The keys of a list, each once, are those of the elements that come first with them. -/
theorem eraseDups_map [DecidableEq α] (xs : List α) (h : xs.Nodup) :
    (xs.map f).eraseDups = (xs.filter fun x => xs.find? (f · == f x) == some x).map f := by
  match xs, h with
  | [], _ => rfl
  | a :: rest, h =>
    obtain ⟨hnew, hrest⟩ := List.nodup_cons.mp h
    have hlater := eraseDups_map (rest.filter fun x => !(f x == f a)) (hrest.filter _)
    have hfirst : (a :: rest).filter (fun x => (a :: rest).find? (f · == f x) == some x) =
        a :: rest.filter fun x => (a :: rest).find? (f · == f x) == some x :=
      List.filter_cons_of_pos (by simp)
    -- of those behind the first element, those with its key are left out in either way
    have hfilter : (rest.filter fun x => !(f x == f a)).filter (fun x =>
          (rest.filter fun x => !(f x == f a)).find? (f · == f x) == some x) =
        rest.filter fun x => (a :: rest).find? (f · == f x) == some x := by
      rw [List.filter_filter]
      refine List.filter_congr fun x hx => ?_
      by_cases hkey : f a = f x
      · have hne : a ≠ x := fun he => hnew (he ▸ hx)
        simp [hkey, hne]
      · rw [find?_filter_key f rest hkey, List.find?_cons_of_neg (by simpa using hkey),
          beq_eq_false_iff_ne.mpr (Ne.symm hkey)]
        simp
    rw [List.map_cons, List.eraseDups_cons, List.filter_map, hfirst, List.map_cons,
      ← hfilter, ← hlater]
    rfl
termination_by xs.length
decreasing_by exact Nat.lt_succ_of_le (List.length_filter_le _ _)

end Keys

/-! ## Rivals -/

variable {items : List Item} {item other first : Item}

namespace Item

variable (items)

/-- The items of the root whose converted paths are equal without regard to case, in the order in
which they are given. The item is one of them. -/
def rivals (item : Item) : List Item :=
  items.filter fun other => other.root.toString = item.root.toString ∧
    casefold other.convertedPath = casefold item.convertedPath

/-- Whether the item is the first of two or more rivals. -/
def leadsRivals (item : Item) : Bool :=
  2 ≤ (item.rivals items).length && (item.rivals items).head? == some item

/-- The conflict that tells of the rivals. -/
def conflict (item : Item) : Conflict where
  paths := (item.rivals items).map (·.path)
  convertedPath := item.convertedPath
  root := item.root.toString

end Item

theorem mem_rivals_iff :
    other ∈ item.rivals items ↔ other ∈ items ∧ other.root.toString = item.root.toString ∧
      casefold other.convertedPath = casefold item.convertedPath := by
  rw [Item.rivals, List.mem_filter, decide_eq_true_iff]

/-- All rivals have the same rivals. -/
theorem rivals_eq_of_mem (h : other ∈ item.rivals items) :
    other.rivals items = item.rivals items := by
  obtain ⟨-, hroot, hpath⟩ := mem_rivals_iff.mp h
  rw [Item.rivals, hroot, hpath, Item.rivals]

theorem leadsRivals_iff : first.leadsRivals items = true ↔
    2 ≤ (first.rivals items).length ∧ (first.rivals items).head? = some first := by
  rw [Item.leadsRivals, Bool.and_eq_true, decide_eq_true_iff, beq_iff_eq]

/-- Rivals are the items with one destination key. -/
theorem rivals_eq (items : List Item) (item : Item) :
    item.rivals items = items.filter (·.destinationKey == item.destinationKey) := by
  refine List.filter_congr fun other _ => ?_
  rw [Bool.eq_iff_iff, decide_eq_true_iff, beq_iff_eq, Item.destinationKey, Item.destinationKey,
    Prod.mk.injEq]

/-- Of two or more rivals, one is the first. -/
theorem existsUnique_leadsRivals (h : 2 ≤ (item.rivals items).length) :
    ∃! first, first ∈ items.filter (·.leadsRivals items) ∧
        first.rivals items = item.rivals items := by
  obtain ⟨first, rest, hrivals⟩ :=
    List.exists_cons_of_length_pos (Nat.lt_of_lt_of_le Nat.zero_lt_two h)
  have hmem : first ∈ item.rivals items := hrivals ▸ List.mem_cons_self
  have hsame := rivals_eq_of_mem hmem
  refine ⟨first, ⟨List.mem_filter.mpr ⟨(mem_rivals_iff.mp hmem).1, ?_⟩, hsame⟩, ?_⟩
  · rw [leadsRivals_iff, hsame, hrivals]
    exact ⟨hrivals ▸ h, rfl⟩
  · rintro other ⟨hother, hsame'⟩
    have hhead := (leadsRivals_iff.mp (List.mem_filter.mp hother).2).2
    rw [hsame', hrivals] at hhead
    exact (Option.some.inj hhead).symm

/-! ## Conflicts -/

namespace AreDistinct

/-- The search for an item by the text of its root and its path finds it. -/
theorem find?_keyed (h : AreDistinct items) (hitem : item ∈ items) :
    (items.map (·.keyed)).find?
      (fun (key, other) => key.1 == item.root.toString && other.path == item.path) =
      some item.keyed := by
  rw [List.find?_map]
  cases hfound : items.find? _ with
  | none =>
    exact absurd (List.find?_eq_none.mp hfound item hitem)
      (by simp [Item.keyed, Item.destinationKey])
  | some found =>
    obtain ⟨hroot, hpath⟩ : found.root.toString = item.root.toString ∧ found.path = item.path := by
      simpa [Item.keyed, Item.destinationKey] using List.find?_some hfound
    rw [h.eq_of_path (List.mem_of_find?_eq_some hfound) hitem hroot hpath]
    rfl

/-- The conflict at the key of an item that comes first with it. -/
theorem conflictAt?_destinationKey (h : AreDistinct items) (hitem : item ∈ items)
    (hfirst : (item.rivals items).head? = some item) :
    conflictAt? (items.map (·.keyed)) item.destinationKey =
      if 2 ≤ (item.rivals items).length then some (item.conflict items) else none := by
  have hkeyed : (items.map (·.keyed)).filter (·.1 == item.destinationKey) =
      (item.rivals items).map (·.keyed) := by
    rw [rivals_eq, List.filter_map]
    rfl
  have hfind := h.find?_keyed hitem
  rw [conflictAt?, hkeyed, Item.conflict]
  cases hrivals : item.rivals items with
  | nil => rfl
  | cons leader more =>
    rw [hrivals] at hfirst
    obtain rfl : leader = item := Option.some.inj hfirst
    cases more with
    | nil => rfl
    | cons second more =>
      -- the item that is named is the one that is found, and that is the leader
      have hnamed : (((items.map (·.keyed)).find? fun (key, other) =>
          key.1 == leader.destinationKey.1 && other.path == leader.keyed.2.path).getD
            leader.keyed).2.convertedPath = leader.convertedPath := by
        rw [show leader.destinationKey.1 = leader.root.toString from rfl,
          show leader.keyed.2.path = leader.path from rfl, hfind]
        rfl
      rw [List.map_cons, List.map_cons, if_pos (by simp)]
      dsimp only
      rw [hnamed, ← List.map_cons, ← List.map_cons, List.map_map]
      rfl

end AreDistinct

/-- The conflicts are those of the items that lead rivals, in their order. -/
theorem conflictsOf_eq (h : AreDistinct items) :
    conflictsOf items = (items.filter (·.leadsRivals items)).map (·.conflict items) := by
  have hkeys : ((items.map (·.keyed)).map (·.1)).eraseDups =
      (items.filter fun item => items.find? (·.destinationKey == item.destinationKey) ==
        some item).map (·.destinationKey) := by
    rw [List.map_map]
    exact eraseDups_map (·.destinationKey) items (.of_map _ h)
  have hhead : ∀ item : Item,
      items.find? (·.destinationKey == item.destinationKey) = (item.rivals items).head? := by
    intro item
    rw [rivals_eq, List.head?_filter]
  have hmap : (items.filter (·.leadsRivals items)).map (·.conflict items) =
      items.filterMap fun item =>
        if item.leadsRivals items then some (item.conflict items) else none := by
    rw [← List.filterMap_eq_map', List.filterMap_filter]
  rw [conflictsOf, hkeys, hmap, List.filterMap_map, List.filterMap_filter]
  refine List.filterMap_congr fun item hitem => ?_
  rw [hhead, Item.leadsRivals, Function.comp]
  by_cases hfirst : (item.rivals items).head? = some item
  · rw [hfirst, h.conflictAt?_destinationKey hitem hfirst]
    simp
  · simp [hfirst]

/-- A conflict of a root tells of those items of it that have rivals. -/
theorem not_mem_paths_of_rivals (h : AreDistinct items) (hitem : item ∈ items)
    (halone : item.rivals items = [item]) {c : Conflict} (hc : c ∈ conflictsOf items)
    (hroot : c.root = item.root.toString) : item.path ∉ c.paths := by
  rw [conflictsOf_eq h] at hc
  obtain ⟨first, hfirst, rfl⟩ := List.mem_map.mp hc
  intro hpath
  obtain ⟨other, hother, hpath⟩ := List.mem_map.mp hpath
  obtain ⟨hmem, hsame, -⟩ := mem_rivals_iff.mp hother
  obtain rfl : other = item := h.eq_of_path hmem hitem (hsame.trans hroot) hpath
  have htwo := (leadsRivals_iff.mp (List.mem_filter.mp hfirst).2).1
  rw [← rivals_eq_of_mem hother, halone] at htwo
  exact absurd htwo (by simp)

/-- The conflicts of distinct items are told in one message for each class of two or more rivals, in
the order of the first of them, whose converted path is found and named. An item without rivals is
in none. -/
theorem conflictsOf_rivals (h : AreDistinct items) :
    (conflictsOf items).map (·.message) = (items.filter (·.leadsRivals items)).map (fun first =>
        "Multiple entries have the same destination: " ++
          quotedList ((first.rivals items).map (·.path)) ++
          " -> " ++ first.convertedPath ++ " (in " ++ first.root.toString ++ ")") ∧
      (∀ first ∈ items.filter (·.leadsRivals items),
        (items.map (·.keyed)).find? (fun (key, other) =>
          key.1 == first.root.toString && other.path == first.path) = some first.keyed) ∧
      (∀ item ∈ items, 2 ≤ (item.rivals items).length → ∃! first,
        first ∈ items.filter (·.leadsRivals items) ∧ first.rivals items = item.rivals items) ∧
      ∀ item ∈ items, item.rivals items = [item] → ∀ c ∈ conflictsOf items,
        c.root = item.root.toString → item.path ∉ c.paths := by
  refine ⟨?_, fun first hfirst => ?_, fun item _ => existsUnique_leadsRivals, ?_⟩
  · rw [conflictsOf_eq h, List.map_map]
    rfl
  · exact h.find?_keyed (List.mem_filter.mp hfirst).1
  · exact fun item hitem halone c hc => not_mem_paths_of_rivals h hitem halone hc

/-- Two trees with one name in both, which clashes with another one in the first. -/
def Tree.folding : Tree :=
  ⟨[(["app"], .directory), (["app", "STRASSE.ts"], .file .empty),
    (["app", "straße.ts"], .file .empty),
    (["lib"], .directory), (["lib", "STRASSE.ts"], .file .empty),
    (["lib", "fooBar.ts"], .file .empty)]⟩

/-- The clash is told for the root that it is in. -/
theorem conflictsOf_rivals_folding :
    ∃ items, (scan (World.ofTree .folding).disk [] (["lib", "app"].map .ofText)).items = .ok items ∧
      (conflictsOf items).map (·.message) =
        ["Multiple entries have the same destination: ['STRASSE.ts', 'straße.ts'] -> strasse.ts (in app)"] := by
  obtain ⟨items, hitems, hrivals⟩ : ∃ items : List Item,
      (scan (World.ofTree .folding).disk [] (["lib", "app"].map .ofText)).items = .ok items ∧
      (items.filter (·.leadsRivals items)).map (fun first =>
        "Multiple entries have the same destination: " ++
          quotedList ((first.rivals items).map (·.path)) ++
          " -> " ++ first.convertedPath ++ " (in " ++ first.root.toString ++ ")") =
        ["Multiple entries have the same destination: ['STRASSE.ts', 'straße.ts'] -> strasse.ts (in app)"] :=
    exists_ok_of_any (by decide +kernel)
  exact ⟨items, hitems,
    (conflictsOf_rivals (areDistinct_of_scan (by decide) hitems)).1.trans hrivals⟩

end Recase
