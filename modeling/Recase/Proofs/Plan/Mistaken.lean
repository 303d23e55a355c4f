import Recase.Proofs.Interrupted
import Recase.Proofs.Tokens

/-!
# Moves that are taken for others

A plan warns of each temporary name with a token. A move to a temporary name is told from one that
leaves it by the name from which it starts, and this is not known as a temporary one if there is a
line feed in it.

* `Item.IsMistaken`: the second move of the item is taken for the first, and no warning can be made
  of its target.
* `forall_needsWarning_movesOf`, `exists_warningsOf_planMoves`: warnings can be made of all moves of
  a plan but those of such items.
* `World.FindsMistaken`: a scan finds such an item. `preview_cases`: a preview that has no plan has
  found one, or its scan has failed.
-/

namespace Recase

open Name

/-- The second move of the item is taken for the first, as there is a line feed in the converted
name, and the suffix of temporary names does not occur in its target. -/
structure Item.IsMistaken (item : Item) : Prop where
  changesName : item.changesName = true
  isRecased : item.isRecased = true
  lineFeed : '\n' ∈ item.convertedName.toList
  unmarked : ¬ temporarySuffix.toList <:+: item.convertedPath.toList

/-- A scan of the roots finds an item that is mistaken. -/
def World.FindsMistaken (w : World) (ignored : List String) (roots : List Root) : Prop :=
  ∃ items, (scan w.disk ignored roots).items = .ok items ∧ ∃ item ∈ items, item.IsMistaken

/-- There is nothing through the last occurrence of what does not occur. -/
theorem throughLast?_eq_none_iff {part cs : List Char} :
    throughLast? part cs = none ↔ ¬ part <:+: cs := by
  refine ⟨fun hnone hinfix => throughLast?_ne_none hinfix hnone, fun hnone => ?_⟩
  induction cs with
  | nil =>
    have hne : part.isEmpty = false := by
      cases part with
      | nil => exact absurd List.infix_rfl hnone
      | cons => rfl
    simp [throughLast?, hne]
  | cons c rest ih =>
    have hpre : part.isPrefixOf (c :: rest) = false := by
      rw [Bool.eq_false_iff, ne_eq, List.isPrefixOf_iff_prefix]
      exact fun hpre => hnone hpre.isInfix
    rw [throughLast?, ih fun hrest => hnone (hrest.trans (List.suffix_cons c rest).isInfix)]
    simp [hpre]

/-- Warnings fail in one way only. -/
theorem eq_of_warningsOf {moves : List Move} {failure : Failure}
    (h : warningsOf moves = .error failure) :
    failure = .missingSuffix := by
  induction moves with
  | nil => cases h
  | cons m rest ih =>
    rw [warningsOf] at h
    split at h
    · split at h
      · cases hrest : warningsOf rest with
        | error other =>
          rw [hrest] at h
          cases h
          exact ih hrest
        | ok warnings =>
          rw [hrest] at h
          cases h
      · cases h
        rfl
    · exact ih h

variable {isTaken : Path → Bool} {token : Nat → String} {e : Retained} {entries : List Retained}
  {items : List Item} {w : World} {ignored : List String} {roots : List Root} {failure : Failure}

/-! ## The moves of an item -/

/-- A temporary path has the suffix in it. -/
theorem suffix_infix_temporaryPath {temporary : String}
    (h : IsTemporaryOf token e.newName temporary) :
    temporarySuffix.toList <:+: (pathText (e.newAbove ++ [temporary])).toList := by
  cases h with
  | untokened =>
    rw [← pathText_concat_append, String.toList_append]
    exact (List.suffix_append _ _).isInfix
  | tokened n =>
    rw [← pathText_concat_append, ← pathText_concat_append, ← pathText_concat_append]
    refine ⟨(pathText (e.newAbove ++ [e.newName])).toList, ("-" ++ token n).toList, ?_⟩
    simp

/-- The second of two moves needs a warning if there is a line feed in the converted name. -/
theorem needsWarning_second (hvisible : e.IsVisible) (htoken : ∀ n, IsToken (token n))
    {temporary target : String} (htemporary : IsTemporaryOf token e.newName temporary)
    (root : Path) :
    Move.needsWarning ⟨pathText (e.newAbove ++ [temporary]), target, root, true⟩ = true ↔
      '\n' ∈ e.newName.toList ∧ ¬ temporarySuffix.toList <:+ target.toList := by
  have hplain := htemporary.isPlain htoken hvisible.isPlain_newName hvisible.head_newName
  rw [Move.needsWarning, Move.leavesTemporary, lastName_pathText hplain.slash,
    htemporary.isTemporary_eq htoken hvisible.isPlain_newName.ne_empty]
  simp [← List.isSuffixOf_iff_suffix]

/-- Something can be said of all moves of an entry that need a warning, unless its item is
mistaken. -/
theorem forall_needsWarning_movesOf (hvisible : e.IsVisible) (htoken : ∀ n, IsToken (token n))
    (hchanges : e.item.changesName = true) (drawn : Nat) :
    (∀ m ∈ (movesOf isTaken token drawn e.item).1, m.needsWarning = true →
        throughLast? temporarySuffix.toList m.target.toList ≠ none) ↔ ¬ e.item.IsMistaken := by
  unfold movesOf
  split
  · rename_i hrecased
    obtain ⟨temporary, hpath, htemporary, -⟩ := freePath_cases isTaken token drawn e
    dsimp only
    rw [hpath, List.forall_mem_cons, List.forall_mem_singleton,
      needsWarning_second hvisible htoken htemporary, and_iff_right fun _ =>
      throughLast?_ne_none (suffix_infix_temporaryPath htemporary), ne_eq,
      throughLast?_eq_none_iff]
    constructor
    · rintro hsaid ⟨-, -, hline, hunmarked⟩
      rw [hvisible.item_convertedName] at hline
      exact hsaid ⟨hline, fun hsuffix => hunmarked hsuffix.isInfix⟩ hunmarked
    · rintro hmistaken ⟨hline, -⟩ hunmarked
      rw [← hvisible.item_convertedName] at hline
      exact hmistaken ⟨hchanges, hrecased, hline, hunmarked⟩
  · rename_i hrecased
    have hnever : ¬ e.item.IsMistaken := fun h => hrecased h.isRecased
    simp [hnever, Move.needsWarning]

theorem forall_needsWarning_movesOfAll (hvisible : ∀ e ∈ entries, e.IsVisible)
    (htoken : ∀ n, IsToken (token n)) (hchanges : ∀ e ∈ entries, e.item.changesName = true)
    (drawn : Nat) :
    (∀ m ∈ (movesOfAll isTaken token drawn (entries.map (·.item))).1, m.needsWarning = true →
        throughLast? temporarySuffix.toList m.target.toList ≠ none) ↔
            ∀ e ∈ entries, ¬ e.item.IsMistaken := by
  induction entries generalizing drawn with
  | nil => simp [movesOfAll]
  | cons e rest ih =>
    rw [List.forall_mem_cons] at hvisible hchanges
    rw [List.map_cons, movesOfAll_cons, List.forall_mem_append, List.forall_mem_cons,
      forall_needsWarning_movesOf hvisible.1 htoken hchanges.1, ih hvisible.2 hchanges.2]

/-- What a plan warns of can be told unless an item is mistaken. -/
theorem exists_warningsOf_planMoves (isTaken : Path → Bool) (hvisible : ∀ e ∈ entries, e.IsVisible)
    (htoken : ∀ n, IsToken (token n)) (drawn : Nat) :
    (∃ warnings, warningsOf (planMoves isTaken token drawn (entries.map (·.item))).1 =
      .ok warnings) ↔ ∀ e ∈ entries, ¬ e.item.IsMistaken := by
  have hmem : ∀ e, e ∈ Retained.inOrder entries ↔ e ∈ entries ∧ e.item.changesName = true :=
    fun e => Retained.mem_inOrder_iff
  rw [exists_warningsOf_iff, planMoves, Retained.inExecutionOrder_map_item,
    forall_needsWarning_movesOfAll (fun e he => hvisible e ((hmem e).mp he).1) htoken
      (fun e he => ((hmem e).mp he).2) drawn]
  refine ⟨fun h e he hmistaken => ?_, fun h e he => h e ((hmem e).mp he).1⟩
  exact h e ((hmem e).mpr ⟨he, hmistaken.changesName⟩) hmistaken

/-! ## Previews -/

/-- A preview ends with a missing suffix if the scan finds an item that is mistaken. Otherwise it
ends with the failure of the scan or with a plan. -/
theorem preview_cases (ht : w.disk.tree.WellFormed) (htoken : ∀ n, IsToken (w.token n))
    (ignored : List String) (roots : List Root) :
    (w.FindsMistaken ignored roots ∧ (preview w ignored roots).plan = .error .missingSuffix) ∨
      ¬ w.FindsMistaken ignored roots ∧
        ((∃ plan, (preview w ignored roots).plan = .ok plan) ∨
          ∃ failure, (scan w.disk ignored roots).items = .error failure ∧
            (preview w ignored roots).plan = .error failure) := by
  cases hitems : (scan w.disk ignored roots).items with
  | error failure =>
    refine .inr ⟨fun ⟨items, hok, _⟩ => ?_, .inr ⟨failure, rfl, ?_⟩⟩
    · cases hitems.symm.trans hok
    · simp [preview, hitems]
  | ok items =>
    obtain ⟨kept, hkept, rfl⟩ := scan_items hitems
    have hvisible : ∀ e ∈ retained w.disk ignored kept, e.IsVisible := isVisible_of_mem_retained ht
    have hfinds :
        w.FindsMistaken ignored roots ↔ ∃ e ∈ retained w.disk ignored kept, e.item.IsMistaken := by
      simp [World.FindsMistaken, hitems]
    have hwarned :=
      exists_warningsOf_planMoves (fun path => w.disk.hasEntry path.route) hvisible htoken w.drawn
    cases hwarnings : warningsOf (planMoves (fun path => w.disk.hasEntry path.route) w.token w.drawn
        ((retained w.disk ignored kept).map (·.item))).1 with
    | error failure =>
      refine .inl ⟨?_, ?_⟩
      · rw [hfinds]
        by_contra hnone
        obtain ⟨warnings, hok⟩ := hwarned.mpr fun e he hmistaken => hnone ⟨e, he, hmistaken⟩
        cases hwarnings.symm.trans hok
      · obtain rfl := eq_of_warningsOf hwarnings
        simp [preview, hitems, buildPlan, hwarnings, Except.map]
    | ok warnings =>
      refine .inr ⟨?_, .inl ⟨_, (preview_of_scan hitems rfl hwarnings).1⟩⟩
      rw [hfinds]
      rintro ⟨e, he, hmistaken⟩
      exact hwarned.mp ⟨warnings, hwarnings⟩ e he hmistaken

end Recase
