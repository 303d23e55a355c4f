import Recase.Proofs.Plan.Counts

/-!
# The pairs of a plan

* `Item.pairOver`, `Plan.HasPair`: the two moves that take an item over a path between, and a plan
  that has them.
* `lowercase_pathText_concat_iff`: paths that differ in the last name alone are one in lower case if
  these names are, whatever stands before them.
* `pairwise_convertedPath_ne`: no entry is found where one has been taken that has its turn before,
  so that two moves that meet are of one turn (`exists_turn_of_pairOver`).
* `hasPair_iff`: the plan of a preview has a pair for those of its items that change in letter case
  alone, which are those whose names do (`isRecased_iff_of_preview`).
-/

namespace Recase

open Name Text

/-- The two moves that take the item to its converted path over one between. -/
def Item.pairOver (item : Item) (between : String) : List Move :=
  [⟨item.currentPath, between, item.root, true⟩, ⟨between, item.convertedPath, item.root, true⟩]

/-- Two moves of the plan, one right after the other, take the item to its converted path over one
between. -/
inductive Plan.HasPair (p : Plan) (item : Item) : Prop
  | over (between : String) (hmoves : item.pairOver between <:+: p.moves)

variable {w : World} {ignored : List String} {roots : List Root} {plan : Plan}
  {item : Item} {e : Retained} {entries : List Retained} {turns : List (Item × List Move)}

/-! ## Letter case -/

/-- No word goes on behind a slash, so that the last names of paths have the lower-case forms that
they have alone. -/
theorem lowercase_pathText_concat_iff {above : List String} {a b : String} :
    lowercase (pathText (above ++ [a])) = lowercase (pathText (above ++ [b])) ↔
        lowercase a = lowercase b := by
  rcases eq_or_ne above [] with rfl | hne
  · simp
  · have hpath : ∀ name, (lowercase (pathText (above ++ [name]))).toList =
        lowerChars (pathText above).toList ++ '/' :: (lowercase name).toList := by
      intro name
      rw [toList_lowercase, toList_lowercase, ← lowerChars_append_slash,
        pathText_append hne (by simp)]
      simp
    rw [← String.toList_inj, hpath, hpath, List.append_cancel_left_eq, List.cons_inj_right,
      String.toList_inj]

/-- An entry that needs a new name changes in letter case alone if its name does. -/
theorem Retained.IsVisible.isRecased_iff (h : e.IsVisible) (hchanges : e.changes = true) :
    e.item.isRecased = true ↔ lowercase e.item.name = lowercase e.item.convertedName := by
  have hne : e.item.currentPath ≠ e.item.convertedPath := by
    intro heq
    rw [h.item_currentPath] at heq
    have hnames := pathText_injective (h.isPlain_newNames h.isPlain_name)
      (h.isPlain_newNames h.isPlain_newName) heq
    have hname : e.name = e.newName := by simpa using hnames
    exact Retained.changes_iff.mp hchanges hname.symm
  have hcase : lowercase e.item.currentPath = lowercase e.item.convertedPath ↔
      lowercase e.name = lowercase e.newName := by
    rw [h.item_currentPath]
    exact lowercase_pathText_concat_iff
  rw [h.item_name, h.item_convertedName, ← hcase]
  simp [Item.isRecased, differInCase, hne]

/-! ## Turns one after the other -/

/-- No entry is where one has been taken that has its turn before: it would not need a new name
there. -/
theorem pairwise_convertedPath_ne (hvisible : ∀ e ∈ entries, e.IsVisible) :
    (Retained.inOrder entries).Pairwise fun a b => a.item.convertedPath ≠ b.item.currentPath := by
  refine (Retained.inOrder_pairwise entries).imp_of_mem fun {a b} ha hb hle heq => ?_
  obtain ⟨ha, -⟩ := Retained.mem_inOrder_iff.mp ha
  obtain ⟨hb, hchanges⟩ := Retained.mem_inOrder_iff.mp hb
  have hva := hvisible a ha
  have hvb := hvisible b hb
  rw [hvb.item_currentPath] at heq
  have hnames := pathText_injective (hva.isPlain_newNames hva.isPlain_newName)
    (hvb.isPlain_newNames hvb.isPlain_name) heq
  have hname : a.newName = b.name := by simpa using (List.append_inj' hnames rfl).2
  refine Retained.changes_iff.mp hchanges ?_
  rw [Retained.newName, ← hname, Retained.newName]
  -- the one pair of kinds whose rules disagree is that of a file before a directory
  cases hkind : a.kind with
  | directory => exact EntryKind.convert_convert_directory _ _
  | file =>
    cases hkind' : b.kind with
    | file => exact EntryKind.convert_convert _ _
    | directory =>
      have horder : a.item.executionOrder b.item = .gt := by
        simp [Item.executionOrder, Retained.item, hkind, hkind']
      rw [horder] at hle
      cases hle

/-- What turns start with is a move from the place where the item of one of them is. -/
theorem exists_turn_of_first {m : Move} (htold : ∀ turn ∈ turns, turn.1.IsToldTurn turn.2)
    (hfirst : [m] <+: turns.flatMap (·.2)) : ∃ turn ∈ turns, m.source = turn.1.currentPath := by
  cases turns with
  | nil => simp at hfirst
  | cons turn rest =>
    obtain ⟨owner, moves⟩ := turn
    have hturn : owner.IsToldTurn moves := (List.forall_mem_cons.mp htold).1
    rw [List.flatMap_cons] at hfirst
    refine ⟨_, List.mem_cons_self, ?_⟩
    cases hturn with
    | single => rw [(List.cons_prefix_cons.mp hfirst).1]
    | paired => rw [(List.cons_prefix_cons.mp hfirst).1]

/-- Two moves that take an item over a path between, one right after the other, are the turn of an
item with its paths, where none is found at the place to which one before it has been taken. -/
theorem exists_turn_of_pairOver {between : String}
    (htold : ∀ turn ∈ turns, turn.1.IsToldTurn turn.2)
    (hapart : turns.Pairwise fun turn later => turn.1.convertedPath ≠ later.1.currentPath)
    (hpair : item.pairOver between <:+: turns.flatMap (·.2)) :
    ∃ turn ∈ turns, turn.1.isRecased = true ∧ turn.1.currentPath = item.currentPath ∧
      turn.1.convertedPath = item.convertedPath := by
  induction turns with
  | nil => simp [Item.pairOver] at hpair
  | cons turn rest ih =>
    rw [List.forall_mem_cons] at htold
    rw [List.pairwise_cons] at hapart
    have hlater : item.pairOver between <:+: rest.flatMap (·.2) → ∃ turn' ∈ turn :: rest,
        turn'.1.isRecased = true ∧ turn'.1.currentPath = item.currentPath ∧
        turn'.1.convertedPath = item.convertedPath := by
      intro hrest
      obtain ⟨later, hmem, hlater⟩ := ih htold.2 hapart.2 hrest
      exact ⟨later, List.mem_cons_of_mem _ hmem, hlater⟩
    obtain ⟨owner, moves⟩ := turn
    have hturn : owner.IsToldTurn moves := htold.1
    rw [List.flatMap_cons] at hpair
    cases hturn with
    | single hsame =>
      rcases List.infix_cons_iff.mp hpair with hstart | hrest
      · simp [Item.pairOver] at hstart
      · exact hlater hrest
    | paired hrecased =>
      rcases List.infix_cons_iff.mp hpair with hstart | hmiddle
      · obtain ⟨hfirst, hrest⟩ := List.cons_prefix_cons.mp hstart
        obtain ⟨hsecond, -⟩ := List.cons_prefix_cons.mp hrest
        exact ⟨_, List.mem_cons_self, hrecased, (Move.mk.inj hfirst).1.symm,
          (Move.mk.inj hsecond).2.1.symm⟩
      rcases List.infix_cons_iff.mp hmiddle with hstart | hrest
      · -- the second move of this turn and the first one of the next do not meet
        obtain ⟨hsecond, hnext⟩ := List.cons_prefix_cons.mp hstart
        obtain ⟨later, hmem, hsource⟩ := exists_turn_of_first htold.2 hnext
        exact absurd ((Move.mk.inj hsecond).2.1.symm.trans hsource) (hapart.1 later hmem)
      · exact hlater hrest

/-! ## Plans -/

/-- The items of a plan are those of visible entries, which need a new name. -/
theorem exists_of_mem_items (ht : w.disk.tree.WellFormed)
    (hplan : (preview w ignored roots).plan = .ok plan) (hitem : item ∈ plan.items) :
    ∃ e : Retained, e.IsVisible ∧ e.changes = true ∧ e.item = item := by
  obtain ⟨kept, -, hof⟩ := isPlanOf_of_preview ht hplan
  rw [hof.items] at hitem
  obtain ⟨e, he, heq⟩ := List.mem_map.mp hitem
  obtain ⟨hmem, hchanges⟩ := List.mem_filter.mp he
  exact ⟨e, isVisible_of_mem_retained ht e hmem, hchanges, heq⟩

/-- The items that change in letter case alone, as far as their paths tell, are those whose names
do. -/
theorem isRecased_iff_of_preview (ht : w.disk.tree.WellFormed)
    (hplan : (preview w ignored roots).plan = .ok plan) (hitem : item ∈ plan.items) :
    item.isRecased = true ↔ lowercase item.name = lowercase item.convertedName := by
  obtain ⟨e, hvisible, hchanges, rfl⟩ := exists_of_mem_items ht hplan hitem
  exact hvisible.isRecased_iff hchanges

/-- No item of a plan is where one has been taken that has its turn before. -/
theorem pairwise_convertedPath_ne_of_preview (ht : w.disk.tree.WellFormed)
    (hplan : (preview w ignored roots).plan = .ok plan) :
    (inExecutionOrder plan.items).Pairwise fun a b => a.convertedPath ≠ b.currentPath := by
  obtain ⟨items, warnings, hitems, -, rfl⟩ := exists_of_preview hplan
  obtain ⟨kept, -, rfl⟩ := scan_items hitems
  rw [Retained.inExecutionOrder_map_item, List.pairwise_map]
  exact pairwise_convertedPath_ne (isVisible_of_mem_retained ht)

/-- A plan has a pair for those of its items that change in letter case alone. -/
theorem hasPair_iff (ht : w.disk.tree.WellFormed) (htoken : ∀ n, IsToken (w.token n))
    (hplan : (preview w ignored roots).plan = .ok plan) (hitem : item ∈ plan.items) :
    plan.HasPair item ↔ item.isRecased = true := by
  obtain ⟨turns, hturns, hmoves, htold⟩ := exists_toldTurns ht htoken hplan
  constructor
  · rintro ⟨between, hpair⟩
    rw [hmoves] at hpair
    have hapart := pairwise_convertedPath_ne_of_preview ht hplan
    rw [← hturns, List.pairwise_map] at hapart
    obtain ⟨turn, -, hrecased, hcurrent, hconverted⟩ := exists_turn_of_pairOver htold hapart hpair
    have hsame : turn.1.isRecased = item.isRecased := by
      simp only [Item.isRecased, hcurrent, hconverted]
    exact hsame ▸ hrecased
  · intro hrecased
    have hmem : item ∈ turns.map (·.1) := by
      rw [hturns]
      exact (sortBy_perm _ _).mem_iff.mpr hitem
    obtain ⟨⟨owner, moves⟩, hturn, rfl⟩ := List.mem_map.mp hmem
    have hinfix : moves <:+: turns.flatMap (·.2) := by
      rw [List.flatMap_def]
      exact List.infix_of_mem_flatten (List.mem_map_of_mem hturn)
    have howner : owner.IsToldTurn moves := htold _ hturn
    cases howner with
    | single hsame => simp [hsame] at hrecased
    | paired => exact .over _ (hmoves ▸ hinfix)

end Recase
