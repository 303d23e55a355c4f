import Mathlib.Data.List.Nodup
import Recase.Proofs.Plan.Turns
import Recase.Run

/-!
# Plans of roots

* `preview_of_scan`, `exists_of_preview`: a preview gives the plan of the items that the scan has
  found.
* `Retained.IsPlanOf`: what the plan of roots is made of. `isPlanOf_of_preview`: a preview gives
  such a plan.
* `World.ofTree`: a world with nothing in it but a tree.
* `pairwise_of_conflictsOf`, `conflictsOf_of_pairwise`: items have no conflicts if their
  destinations are different, and only then.
-/

namespace Recase

/-- The plan of the roots that are kept: the turns of the retained entries that need a new name,
their items, and the conflicts among all. -/
structure IsPlanOf (w : World) (ignored : List String) (kept : List Path) (plan : Plan) : Prop where
  moves : Turns (fun path => w.disk.hasEntry path.route) w.token
    (Retained.inOrder (retained w.disk ignored kept)) plan.moves
  items : plan.items = ((retained w.disk ignored kept).filter (·.changes)).map (·.item)
  conflicts : plan.conflicts = conflictsOf ((retained w.disk ignored kept).map (·.item))

/-- A world of a tree with the program at its top. -/
def World.ofTree (t : Tree) : World where
  disk := ⟨t, [], []⟩
  git := ⟨[], [], []⟩
  unreadable := []
  unwritable := []
  home := "/home"
  homes := []
  clock := ""
  token := Name.tokenText
  drawn := 0

theorem exists_ok_of_any {ε α : Type} {result : Except ε α} {P : α → Prop} [DecidablePred P]
    (h : result.toOption.any (fun a => P a) = true) : ∃ a, result = .ok a ∧ P a := by
  cases result with
  | error e => cases h
  | ok a => exact ⟨a, rfl, of_decide_eq_true h⟩

variable {w : World} {ignored : List String} {roots : List Root} {plan : Plan}

/-- A preview gives the plan of the items that the scan has found. -/
theorem preview_of_scan {items : List Item} {moves : List Move} {warnings : List TokenWarning}
    {drawn : Nat} (hscan : (scan w.disk ignored roots).items = .ok items)
    (hmoves : planMoves (fun path => w.disk.hasEntry path.route) w.token w.drawn items =
      (moves, drawn))
    (hwarnings : warningsOf moves = .ok warnings) :
    (preview w ignored roots).plan =
        .ok ⟨moves, items.filter (·.changesName), warnings, conflictsOf items, items.length⟩ ∧
      (preview w ignored roots).drawn = drawn := by
  simp only [preview, hscan, buildPlan, hmoves, hwarnings, Except.map, and_self]

/-- A preview that gives a plan has had a scan without a failure. -/
theorem exists_items_of_preview (h : (preview w ignored roots).plan = .ok plan) :
    ∃ items, (scan w.disk ignored roots).items = .ok items := by
  unfold preview at h
  dsimp only at h
  split at h
  · cases h
  · exact ⟨_, by assumption⟩

/-- A preview that gives a plan gives that of the items that the scan has found. -/
theorem exists_of_preview (h : (preview w ignored roots).plan = .ok plan) :
    ∃ items warnings, (scan w.disk ignored roots).items = .ok items ∧
      warningsOf (planMoves (fun path => w.disk.hasEntry path.route) w.token w.drawn items).1 =
        .ok warnings ∧
      plan = ⟨(planMoves (fun path => w.disk.hasEntry path.route) w.token w.drawn items).1,
        items.filter (·.changesName), warnings, conflictsOf items, items.length⟩ := by
  obtain ⟨items, hscan⟩ := exists_items_of_preview h
  cases hwarnings :
      warningsOf (planMoves (fun path => w.disk.hasEntry path.route) w.token w.drawn items).1 with
  | error failure => simp [preview, hscan, buildPlan, hwarnings, Except.map] at h
  | ok warnings =>
    exact ⟨items, warnings, hscan, hwarnings,
      Except.ok.inj (h.symm.trans (preview_of_scan hscan rfl hwarnings).1)⟩

/-- A preview that gives a plan gives that of the roots that are kept. -/
theorem isPlanOf_of_preview (ht : w.disk.tree.WellFormed)
    (h : (preview w ignored roots).plan = .ok plan) :
    ∃ kept, outermostRoots w.disk roots = .ok kept ∧ IsPlanOf w ignored kept plan := by
  obtain ⟨items, warnings, hitems, -, rfl⟩ := exists_of_preview h
  obtain ⟨kept, hkept, rfl⟩ := scan_items hitems
  have hvisible : ∀ e ∈ retained w.disk ignored kept, e.IsVisible := isVisible_of_mem_retained ht
  refine ⟨kept, hkept, turns_planMoves hvisible w.drawn, ?_, rfl⟩
  rw [List.filter_map]
  rfl

/-! ## Conflicts -/

/-- There is no conflict at a key that fewer than two items have. -/
theorem conflictAt?_eq_none_iff {keyed : List ((String × String) × Item)} {key : String × String} :
    conflictAt? keyed key = none ↔ (keyed.filter (·.1 == key)).length < 2 := by
  unfold conflictAt?
  split
  · rename_i hfilter
    simp [hfilter]
  · rename_i hshort
    refine iff_of_true rfl (Nat.lt_of_not_le fun htwo => ?_)
    obtain ⟨first, rest, hfilter⟩ :=
      List.exists_cons_of_length_pos (Nat.lt_of_lt_of_le Nat.zero_lt_two htwo)
    rw [hfilter] at htwo
    obtain ⟨second, more, rfl⟩ := List.exists_cons_of_length_pos (Nat.le_of_succ_le_succ htwo)
    exact hshort _ _ _ hfilter

/-- Items without conflicts have different destinations. -/
theorem pairwise_of_conflictsOf {items : List Item} (h : conflictsOf items = []) :
    items.Pairwise fun a b => a.destinationKey ≠ b.destinationKey := by
  rw [List.pairwise_iff_forall_sublist]
  intro a b hsub heq
  have hnone : conflictAt? (items.map (·.keyed)) a.destinationKey = none := by
    refine List.forall_none_of_filterMap_eq_nil h _ (List.mem_eraseDups.mpr ?_)
    exact List.mem_map.mpr ⟨a.keyed, List.mem_map_of_mem (hsub.subset (by simp)), rfl⟩
  have hpair : [a.keyed, b.keyed].Sublist
      ((items.map (·.keyed)).filter (·.1 == a.destinationKey)) := by
    have hfilter := (hsub.map (·.keyed)).filter (·.1 == a.destinationKey)
    simpa [Item.keyed, heq] using hfilter
  exact absurd hpair.length_le (Nat.not_le.mpr (conflictAt?_eq_none_iff.mp hnone))

/-- Items of different destinations have no conflicts. -/
theorem conflictsOf_of_pairwise {items : List Item}
    (h : items.Pairwise fun a b => a.destinationKey ≠ b.destinationKey) :
    conflictsOf items = [] := by
  have hkeys : (items.map (·.keyed)).Pairwise fun a b => a.1 ≠ b.1 := List.pairwise_map.mpr h
  refine List.filterMap_eq_nil_iff.mpr fun key _ => conflictAt?_eq_none_iff.mpr ?_
  -- those with the key would all be the same
  have hpair := hkeys.filter (·.1 == key)
  have hmem : ∀ e ∈ (items.map (·.keyed)).filter (·.1 == key), e.1 = key :=
    fun e he => beq_iff_eq.mp (List.mem_filter.mp he).2
  cases hfilter : (items.map (·.keyed)).filter (·.1 == key) with
  | nil => simp
  | cons first more =>
    cases more with
    | nil => simp
    | cons second more =>
      rw [hfilter] at hpair hmem
      have hsame := (hmem first (by simp)).trans (hmem second (by simp)).symm
      exact absurd hsame ((List.pairwise_cons.mp hpair).1 second (by simp))

/-- Without conflicts, retained entries have different destinations. -/
theorem eq_of_destinationKey {entries : List Retained} {a b : Retained}
    (h : conflictsOf (entries.map (·.item)) = []) (ha : a ∈ entries) (hb : b ∈ entries)
    (hkey : a.item.destinationKey = b.item.destinationKey) : a = b := by
  have hkeys := List.pairwise_map.mp (pairwise_of_conflictsOf h)
  exact List.inj_on_of_nodup_map (List.pairwise_map.mpr hkeys) ha hb hkey

/-- Without conflicts, retained entries of one directory have different converted names. -/
theorem newName_inj_of_conflictsOf {entries : List Retained} {a b : Retained}
    (h : conflictsOf (entries.map (·.item)) = []) (ha : a ∈ entries) (hb : b ∈ entries)
    (hroot : a.root = b.root) (habove : a.above = b.above) (hname : a.newName = b.newName) :
    a = b := by
  refine eq_of_destinationKey h ha hb ?_
  simp [Item.destinationKey, Retained.item, Retained.newAbove, hroot, habove, hname]

end Recase
