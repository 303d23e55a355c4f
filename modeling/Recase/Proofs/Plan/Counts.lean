import Recase.Proofs.Interrupted
import Recase.Proofs.Plan.Sequence

/-!
# The counts of a plan

A move that leaves a temporary name is told by the name from which it starts.

* `Item.IsToldTurn`: the moves of the turn of an item, and which of them are told to leave a
  temporary name. `isToldTurn_movesOf`: the moves of a scanned item.
* `Item.IsTellable`: nothing in the names of the item leads that astray.
* `length_flatMap_turns`, `countP_flatMap_turns`: the moves of turns, counted by their items.
* `preview_counts`: the moves of a plan, those that are told to leave a temporary name, and their
  counts.
-/

namespace Recase

open Name

/-- The moves of the turn of an item. The first of two is told to leave a temporary name if the item
has one itself, and the second unless there is a line feed in the converted name. -/
inductive Item.IsToldTurn (item : Item) : List Move → Prop
  | single (hsame : item.isRecased = false) :
      IsToldTurn item [⟨item.currentPath, item.convertedPath, item.root, false⟩]
  | paired {between : String} (hrecased : item.isRecased = true)
      (hfirst : Move.leavesTemporary ⟨item.currentPath, between, item.root, true⟩ =
        isTemporary item.name)
      (hsecond : Move.leavesTemporary ⟨between, item.convertedPath, item.root, true⟩ =
        !item.convertedName.toList.contains '\n') :
      IsToldTurn item [⟨item.currentPath, between, item.root, true⟩,
        ⟨between, item.convertedPath, item.root, true⟩]

/-- If the item takes two moves, it does not have a temporary name itself, and there is no line feed
in the converted one. -/
def Item.IsTellable (item : Item) : Prop :=
  item.isRecased = true → isTemporary item.name = false ∧ '\n' ∉ item.convertedName.toList

variable {w : World} {ignored : List String} {roots : List Root} {plan : Plan}
  {item : Item} {e : Retained} {isTaken : Path → Bool} {token : Nat → String}
  {moves : List Move} {turns : List (Item × List Move)}

theorem isToldTurn_movesOf (hvisible : e.IsVisible) (htoken : ∀ n, IsToken (token n))
    (drawn : Nat) :
    e.item.IsToldTurn (movesOf isTaken token drawn e.item).1 := by
  unfold movesOf
  split
  · rename_i hrecased
    obtain ⟨temporary, hpath, htemporary, -⟩ := freePath_cases isTaken token drawn e
    have hplain := htemporary.isPlain htoken hvisible.isPlain_newName hvisible.head_newName
    dsimp only
    refine .paired hrecased ?_ ?_
    · rw [Move.leavesTemporary, Bool.true_and, hvisible.item_currentPath, hvisible.item_name,
        lastName_pathText hvisible.isPlain_name.slash]
    · rw [Move.leavesTemporary, Bool.true_and, hpath, hvisible.item_convertedName,
        lastName_pathText hplain.slash,
        htemporary.isTemporary_eq htoken hvisible.isPlain_newName.ne_empty]
      simp
  · rename_i hsame
    exact .single (Bool.eq_false_iff.mpr hsame)

/-! ## Counts -/

namespace Item.IsToldTurn

theorem length_eq (h : item.IsToldTurn moves) :
    moves.length = 1 + if item.isRecased then 1 else 0 := by
  cases h with
  | single hsame => simp [hsame]
  | paired hrecased => simp [hrecased]

/-- The moves that count as those of two that are made first. -/
theorem countP_eq (h : item.IsToldTurn moves) :
    moves.countP (fun m => m.isPaired && !m.leavesTemporary) =
      (if item.isRecased && !isTemporary item.name then 1 else 0) +
        if item.isRecased && item.convertedName.toList.contains '\n' then 1 else 0 := by
  cases h with
  | single hsame => simp [hsame]
  | paired hrecased hfirst hsecond =>
    rw [List.countP_cons, List.countP_singleton]
    simp only [hfirst, hsecond, hrecased, Bool.true_and, Bool.not_not]
    exact Nat.add_comm _ _

theorem map_leavesTemporary (h : item.IsToldTurn moves) (htellable : item.IsTellable) :
    moves.map (·.leavesTemporary) = if item.isRecased then [false, true] else [false] := by
  cases h with
  | single hsame => simp [hsame, Move.leavesTemporary]
  | paired hrecased hfirst hsecond =>
    obtain ⟨hname, hline⟩ := htellable hrecased
    simp [hfirst, hsecond, hrecased, hname, hline]

end Item.IsToldTurn

theorem length_flatMap_turns (h : ∀ turn ∈ turns, turn.1.IsToldTurn turn.2) :
    (turns.flatMap (·.2)).length = turns.length + (turns.map (·.1)).countP (·.isRecased) := by
  induction turns with
  | nil => rfl
  | cons turn rest ih =>
    rw [List.forall_mem_cons] at h
    rw [List.flatMap_cons, List.length_append, h.1.length_eq, ih h.2, List.map_cons,
      List.countP_cons, List.length_cons]
    omega

theorem countP_flatMap_turns (h : ∀ turn ∈ turns, turn.1.IsToldTurn turn.2) :
    (turns.flatMap (·.2)).countP (fun m => m.isPaired && !m.leavesTemporary) =
      (turns.map (·.1)).countP (fun item => item.isRecased && !isTemporary item.name) +
        (turns.map (·.1)).countP
            (fun item => item.isRecased && item.convertedName.toList.contains '\n') := by
  induction turns with
  | nil => rfl
  | cons turn rest ih =>
    rw [List.forall_mem_cons] at h
    rw [List.flatMap_cons, List.countP_append, h.1.countP_eq, ih h.2, List.map_cons,
      List.countP_cons, List.countP_cons]
    omega

/-- Where all items are tellable, each that takes two moves is counted once. -/
theorem countP_of_isTellable {items : List Item} (h : ∀ item ∈ items, item.IsTellable) :
    items.countP (fun item => item.isRecased && !isTemporary item.name) +
        items.countP (fun item => item.isRecased && item.convertedName.toList.contains '\n') =
      items.countP (·.isRecased) := by
  have hnames : items.countP (fun item => item.isRecased && !isTemporary item.name) =
      items.countP (·.isRecased) := by
    refine List.countP_congr fun item hitem => ?_
    rw [Bool.and_eq_true, Bool.not_eq_true']
    exact and_iff_left_of_imp fun hrecased => (h item hitem hrecased).1
  have hlines :
      items.countP (fun item => item.isRecased && item.convertedName.toList.contains '\n') = 0 := by
    refine List.countP_eq_zero.mpr fun item hitem hboth => ?_
    rw [Bool.and_eq_true, List.contains_iff_mem] at hboth
    exact (h item hitem hboth.1).2 hboth.2
  rw [hnames, hlines, Nat.add_zero]

/-! ## Plans -/

/-- A plan is made of the turns of its items, in the order of execution. -/
theorem exists_toldTurns (ht : w.disk.tree.WellFormed) (htoken : ∀ n, IsToken (w.token n))
    (hplan : (preview w ignored roots).plan = .ok plan) :
    ∃ turns : List (Item × List Move), turns.map (·.1) = inExecutionOrder plan.items ∧
      plan.moves = turns.flatMap (·.2) ∧ ∀ turn ∈ turns, turn.1.IsToldTurn turn.2 := by
  obtain ⟨items, warnings, hitems, -, rfl⟩ := exists_of_preview hplan
  obtain ⟨kept, -, rfl⟩ := scan_items hitems
  obtain ⟨turns, hturns, hmoves, heach⟩ := exists_movesOf_movesOfAll
    (fun path => w.disk.hasEntry path.route) w.token w.drawn
    (inExecutionOrder (((retained w.disk ignored kept).map (·.item)).filter (·.changesName)))
  refine ⟨turns, hturns, hmoves, fun turn hturn => ?_⟩
  have hmem : turn.1 ∈ turns.map (·.1) := List.mem_map_of_mem hturn
  rw [hturns, Retained.inExecutionOrder_map_item] at hmem
  obtain ⟨e, he, heq⟩ := List.mem_map.mp hmem
  have hvisible := isVisible_of_mem_retained ht e (Retained.mem_inOrder_iff.mp he).1
  obtain ⟨n, hmovesOf⟩ := heach turn hturn
  rw [hmovesOf, ← heq]
  exact isToldTurn_movesOf hvisible htoken n

/-- A plan takes two moves for each item that changes in letter case alone, and one for each other.
They are counted as pairs once for each such item that is not itself named like a temporary entry,
and once more for each with a line feed in the converted name. Where there are neither, the second
of two moves is told to leave a temporary name, and no other. -/
theorem preview_counts (ht : w.disk.tree.WellFormed) (htoken : ∀ n, IsToken (w.token n))
    (hplan : (preview w ignored roots).plan = .ok plan) :
    ∃ turns : List (Item × List Move), turns.map (·.1) = inExecutionOrder plan.items ∧
      plan.moves = turns.flatMap (·.2) ∧ (∀ turn ∈ turns, turn.1.IsToldTurn turn.2) ∧
      plan.moves.length = plan.renameCount + plan.items.countP (·.isRecased) ∧
      plan.temporaryCount =
        plan.items.countP (fun item => item.isRecased && !isTemporary item.name) +
        plan.items.countP (fun item => item.isRecased && item.convertedName.toList.contains '\n') ∧
      ((∀ item ∈ plan.items, item.IsTellable) →
        (∀ turn ∈ turns, turn.2.map (·.leavesTemporary) =
          if turn.1.isRecased then [false, true] else [false]) ∧
        plan.temporaryCount = plan.items.countP (·.isRecased) ∧
        plan.moves.length = plan.renameCount + plan.temporaryCount) := by
  obtain ⟨turns, hturns, hmoves, htold⟩ := exists_toldTurns ht htoken hplan
  have hperm : (turns.map (·.1)).Perm plan.items := hturns ▸ sortBy_perm _ _
  have hlength : plan.moves.length = plan.renameCount + plan.items.countP (·.isRecased) := by
    rw [hmoves, length_flatMap_turns htold, hperm.countP_eq, ← List.length_map,
      hperm.length_eq, Plan.renameCount]
  have hcount : plan.temporaryCount =
      plan.items.countP (fun item => item.isRecased && !isTemporary item.name) +
        plan.items.countP
            (fun item => item.isRecased && item.convertedName.toList.contains '\n') := by
    rw [Plan.temporaryCount, ← List.countP_eq_length_filter, hmoves, countP_flatMap_turns htold,
      hperm.countP_eq, hperm.countP_eq]
  refine ⟨turns, hturns, hmoves, htold, hlength, hcount, fun htellable => ?_⟩
  have hpairs : plan.temporaryCount = plan.items.countP (·.isRecased) := by
    rw [hcount, countP_of_isTellable htellable]
  refine ⟨fun turn hturn => (htold turn hturn).map_leavesTemporary (htellable _ ?_),
    hpairs, hpairs ▸ hlength⟩
  exact hperm.mem_iff.mp (List.mem_map_of_mem hturn)

/-- A directory and two files, two of them with names that change in letter case alone. -/
def Tree.lettered : Tree :=
  ⟨[(["Docs"], .directory), (["Docs", "mainPage.md"], .file .empty), (["README.md"], .file .empty)]⟩

/-- The plan of their three items takes five moves, with two pairs. -/
theorem preview_counts_lettered :
    ∃ plan, (preview (.ofTree .lettered) [] (["."].map .ofText)).plan = .ok plan ∧
      plan.renameCount = 3 ∧ plan.temporaryCount = 2 ∧ plan.moves.length = 5 ∧
      ∃ turns : List (Item × List Move),
        plan.moves = turns.flatMap (·.2) ∧
        turns.map (·.2.map (·.leavesTemporary)) = [[false, true], [false], [false, true]] := by
  obtain ⟨plan, hplan, hcount, hrecased, htellable, horder⟩ : ∃ plan,
      (preview (.ofTree .lettered) [] (["."].map .ofText)).plan = .ok plan ∧ plan.renameCount = 3 ∧
        plan.items.countP (·.isRecased) = 2 ∧
        (∀ item ∈ plan.items, isTemporary item.name = false ∧ '\n' ∉ item.convertedName.toList) ∧
        (inExecutionOrder plan.items).map
          (fun item => if item.isRecased then [false, true] else [false]) =
          [[false, true], [false], [false, true]] :=
    exists_ok_of_any (by decide +kernel)
  obtain ⟨turns, hturns, hmoves, -, -, -, hregular⟩ := preview_counts (w := .ofTree .lettered)
    (by decide) isToken_tokenText hplan
  obtain ⟨hmarks, hpairs, hlength⟩ := hregular fun item hitem _ => htellable item hitem
  have hshape : turns.map (·.2.map (·.leavesTemporary)) =
      (turns.map (·.1)).map fun item => if item.isRecased then [false, true] else [false] := by
    rw [List.map_map, Function.comp_def]
    exact List.map_congr_left hmarks
  rw [hturns, horder] at hshape
  rw [hcount, hpairs, hrecased] at hlength
  exact ⟨plan, hplan, hcount, hpairs.trans hrecased, hlength, turns, hmoves, hshape⟩

/-- A file whose name looks like that of a temporary entry. -/
def Tree.misleading : Tree := ⟨[(["Foo.temp-rename"], .file .empty)]⟩

/-- Both moves of the file are told to leave a temporary name, so that its pair is not counted. -/
theorem preview_misleading :
    ∃ plan, (preview (.ofTree .misleading) [] (["."].map .ofText)).plan = .ok plan ∧
      plan.moves = [⟨"Foo.temp-rename", "foo.temp-rename.temp-rename", ⟨.relative, []⟩, true⟩,
        ⟨"foo.temp-rename.temp-rename", "foo.temp-rename", ⟨.relative, []⟩, true⟩] ∧
      plan.moves.map (·.leavesTemporary) = [true, true] ∧ plan.items.countP (·.isRecased) = 1 ∧
      plan.temporaryCount = 0 ∧ plan.moves.length = plan.renameCount + plan.temporaryCount + 1 :=
  exists_ok_of_any (by decide +kernel)

end Recase
