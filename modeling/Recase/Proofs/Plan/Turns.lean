import Recase.Plan.Basic
import Recase.Proofs.Plan.Order
import Recase.Proofs.Scan

/-!
# The turns of a plan

A plan gives each entry that needs a new name one turn, of one move or of two over a temporary name.

* `Retained.IsVisible`: the names on the way to the entry are plain and do not start with a dot, so
  that the texts of its item are those of names (`item_currentPath`, `item_temporarySite`).
* `Retained.leg`: the move that takes the entry from one name to another; `Legs`: the moves of its
  turn.
* `Turns`: the moves of turns one after the other. `turns_planMoves`: those of a plan.
* `Turns.split`: each move of turns belongs to the turn of an entry.
-/

namespace Recase

open Name Recase.Tree

namespace Retained

/-- The names on the way to the entry are plain and do not start with a dot. -/
structure IsVisible (e : Retained) : Prop where
  isPlain : ∀ n ∈ e.names, IsPlain n
  head : ∀ n ∈ e.names, n.toList.head? ≠ some '.'

/-- Whether the entry needs a new name. -/
def changes (e : Retained) : Bool := e.newName != e.name

/-- The entries that need a new name, in the order in which they get it. -/
def inOrder (entries : List Retained) : List Retained :=
  sortBy (fun a b => (a.item.executionOrder b.item).isLE) (entries.filter (·.changes))

/-- The move that takes the entry from one name to another, once all above it have their names. -/
def leg (e : Retained) (x y : String) (isPaired : Bool) : Move :=
  ⟨pathText (e.newAbove ++ [x]), pathText (e.newAbove ++ [y]), e.root, isPaired⟩

variable {e : Retained}

theorem changes_iff : e.changes = true ↔ e.newName ≠ e.name := by simp [changes]

theorem item_temporaryPath (e : Retained) :
    e.item.temporaryPath = pathText (e.newAbove ++ [e.newName ++ temporarySuffix]) :=
  pathText_concat_append _ _ _

theorem inExecutionOrder_map_item (entries : List Retained) :
    inExecutionOrder ((entries.map (·.item)).filter (·.changesName)) =
      (inOrder entries).map (·.item) := by
  have hfilter : (entries.map (·.item)).filter (·.changesName) =
      (entries.filter (·.changes)).map (·.item) := by
    rw [List.filter_map]
    rfl
  rw [hfilter, inExecutionOrder, sortBy_map, inOrder]

theorem mem_inOrder_iff {entries : List Retained} :
    e ∈ inOrder entries ↔ e ∈ entries ∧ e.changes = true := by
  rw [inOrder, (sortBy_perm _ _).mem_iff, List.mem_filter]

theorem inOrder_pairwise (entries : List Retained) :
    (inOrder entries).Pairwise fun a b => (a.item.executionOrder b.item).isLE = true :=
  sortBy_pairwise (fun a b c => Item.executionOrder_trans a.item b.item c.item)
    (fun a b => Item.executionOrder_total a.item b.item) _

namespace IsVisible

variable (h : e.IsVisible)
include h

theorem isPlain_above : ∀ n ∈ e.above, IsPlain n :=
  fun n hn => h.isPlain n (List.mem_append_left _ hn)

theorem isPlain_name : IsPlain e.name := h.isPlain _ (List.mem_append_right _ List.mem_cons_self)

theorem head_name : e.name.toList.head? ≠ some '.' :=
  h.head _ (List.mem_append_right _ List.mem_cons_self)

theorem isVisible_name : Name.IsVisible e.name.toList := ⟨h.head_name, h.isPlain_name.slash⟩

theorem isPlain_newAbove : ∀ n ∈ e.newAbove, IsPlain n := by
  intro n hn
  obtain ⟨name, hname, rfl⟩ := List.mem_map.mp hn
  exact EntryKind.isPlain_convert (h.isPlain_above name hname)
    (h.head name (List.mem_append_left _ hname))

theorem isPlain_newName : IsPlain e.newName := EntryKind.isPlain_convert h.isPlain_name h.head_name

theorem head_newName : e.newName.toList.head? ≠ some '.' :=
  EntryKind.head?_convert_ne_dot h.head_name

theorem isPlain_newNames {name : String} (hname : IsPlain name) :
    ∀ n ∈ e.newAbove ++ [name], IsPlain n := by
  intro n hn
  rcases List.mem_append.mp hn with hn | hn
  · exact h.isPlain_newAbove n hn
  · rwa [List.mem_singleton.mp hn]

theorem item_name : e.item.name = e.name := lastName_pathText h.isPlain_name.slash

theorem item_convertedName : e.item.convertedName = e.newName :=
  lastName_pathText h.isPlain_newName.slash

theorem segments_path : PathText.segments e.item.path = e.names :=
  segments_pathText (by simp [names]) fun n hn => (h.isPlain n hn).slash

theorem segments_convertedPath :
    PathText.segments e.item.convertedPath = e.newAbove ++ [e.newName] :=
  segments_pathText (by simp) fun n hn => (h.isPlain_newNames h.isPlain_newName n hn).slash

theorem item_depth : e.item.depth = e.names.length := depth_pathText h.isPlain

theorem item_currentPath : e.item.currentPath = pathText (e.newAbove ++ [e.name]) := by
  have hparent : PathText.parentText e.item.convertedPath = pathText e.newAbove :=
    parentText_pathText h.isPlain_newName.slash h.isPlain_newAbove
  rw [Item.currentPath, h.item_name, hparent]
  rcases eq_or_ne e.newAbove [] with hnil | hne
  · simp [hnil]
  · have hnonempty : (pathText e.newAbove).isEmpty = false := by
      rw [Bool.eq_false_iff, ne_eq, String.isEmpty_iff]
      exact fun he =>
        hne (pathText_injective h.isPlain_newAbove (by simp) (he.trans pathText_nil.symm))
    rw [hnonempty]
    exact joinText_pathText h.isPlain_newAbove hne h.isPlain_name

/-- The temporary name without a token. -/
theorem isPlain_temporary : IsPlain (e.newName ++ temporarySuffix) := by
  have htemporary : IsTemporaryOf tokenText e.newName (e.newName ++ temporarySuffix) := .untokened
  exact htemporary.isPlain isToken_tokenText h.isPlain_newName h.head_newName

theorem item_temporarySite :
    e.item.temporarySite = e.root.below (e.above ++ [e.newName ++ temporarySuffix]) := by
  have hparent : PathText.parentText e.item.path = pathText e.above :=
    parentText_pathText h.isPlain_name.slash h.isPlain_above
  have hlast : PathText.lastName e.item.temporaryPath = e.newName ++ temporarySuffix := by
    rw [e.item_temporaryPath]
    exact lastName_pathText h.isPlain_temporary.slash
  have hbelow : (e.root.below e.above).joinText (pathText [e.newName ++ temporarySuffix]) =
      (e.root.below e.above).below [e.newName ++ temporarySuffix] :=
    Path.joinText_pathText _ (by simpa using h.isPlain_temporary)
  rw [pathText_singleton] at hbelow
  rw [Item.temporarySite, hparent, hlast]
  have hroot : e.item.root = e.root := rfl
  rw [hroot, Path.joinText_pathText _ h.isPlain_above, hbelow]
  simp [Path.below]

end IsVisible

end Retained

/-- What the disk retains is visible. -/
theorem Disk.Retains.isVisible {d : Disk} {ignored : List String} {e : Retained}
    (h : d.Retains ignored e) (ht : d.tree.WellFormed) : e.IsVisible := by
  obtain ⟨node, hnode, -⟩ := h.node
  refine ⟨fun n hn => ht.isPlain hnode ?_, fun n hn => ?_⟩
  · rw [e.place_eq]
    exact List.mem_append_right _ hn
  · have hskip : isSkipped ignored n = false := by
      simpa using List.all_eq_true.mp h.visible n hn
    exact head?_ne_dot_of_not_isSkipped hskip

theorem isVisible_of_mem_retained {d : Disk} {ignored : List String} {kept : List Path}
    (ht : d.tree.WellFormed) :
    ∀ e ∈ retained d ignored kept, e.IsVisible :=
  fun _ he => ((mem_retained_iff ht).mp he).2.isVisible ht

/-! ## Turns -/

/-- The moves of the turn of an entry: one, or two over a temporary name. A temporary name without a
token is one that is not taken. -/
inductive Legs (isTaken : Path → Bool) (token : Nat → String) (e : Retained) : List Move → Prop
  | single : Legs isTaken token e [e.leg e.name e.newName false]
  | paired {temporary : String} (htemporary : IsTemporaryOf token e.newName temporary)
      (hfree : temporary = e.newName ++ temporarySuffix → isTaken e.item.temporarySite = false) :
      Legs isTaken token e [e.leg e.name temporary true, e.leg temporary e.newName true]

/-- The moves of the turns of entries. -/
inductive Turns (isTaken : Path → Bool) (token : Nat → String) : List Retained → List Move → Prop
  | nil : Turns isTaken token [] []
  | cons {e : Retained} {rest : List Retained} {legs moves : List Move}
      (hlegs : Legs isTaken token e legs) (hrest : Turns isTaken token rest moves) :
      Turns isTaken token (e :: rest) (legs ++ moves)

variable {isTaken : Path → Bool} {token : Nat → String}

theorem freePath_cases (isTaken : Path → Bool) (token : Nat → String) (drawn : Nat) (e : Retained) :
    ∃ temporary, (freePath isTaken token drawn e.item).1 = pathText (e.newAbove ++ [temporary]) ∧
      IsTemporaryOf token e.newName temporary ∧
      (temporary = e.newName ++ temporarySuffix → isTaken e.item.temporarySite = false) := by
  unfold freePath
  split
  · refine ⟨_, ?_, .tokened (drawn + 1), fun heq => ?_⟩
    · rw [e.item_temporaryPath, pathText_concat_append, pathText_concat_append]
    · have hlen := congrArg (·.toList.length) heq
      simp at hlen
  · rename_i hfree
    exact ⟨_, e.item_temporaryPath, .untokened, fun _ => by simpa using hfree⟩

theorem legs_movesOf {e : Retained} (h : e.IsVisible) (drawn : Nat) :
    Legs isTaken token e (movesOf isTaken token drawn e.item).1 := by
  have hcurrent := h.item_currentPath
  unfold movesOf
  split
  · obtain ⟨temporary, hpath, htemporary, hfree⟩ := freePath_cases isTaken token drawn e
    dsimp only
    rw [hcurrent, hpath]
    exact .paired htemporary hfree
  · rw [hcurrent]
    exact .single

theorem turns_movesOfAll {entries : List Retained} (h : ∀ e ∈ entries, e.IsVisible) (drawn : Nat) :
    Turns isTaken token entries (movesOfAll isTaken token drawn (entries.map (·.item))).1 := by
  induction entries generalizing drawn with
  | nil => exact .nil
  | cons e rest ih =>
    rw [List.map_cons, movesOfAll]
    exact .cons (legs_movesOf (h e (by simp)) drawn) (ih (fun e he => h e (by simp [he])) _)

/-- The moves of a plan are those of the turns of the entries that need a new name. -/
theorem turns_planMoves {entries : List Retained} (h : ∀ e ∈ entries, e.IsVisible) (drawn : Nat) :
    Turns isTaken token (Retained.inOrder entries)
      (planMoves isTaken token drawn (entries.map (·.item))).1 := by
  rw [planMoves, Retained.inExecutionOrder_map_item]
  exact turns_movesOfAll (fun e he => h e (Retained.mem_inOrder_iff.mp he).1) drawn

/-- The moves of a plan are those of the one item that needs a new name, if there is but one. -/
theorem planMoves_of_filter {items : List Item} {item : Item} {moves : List Move}
    {drawn drawn' : Nat} (h : items.filter (·.changesName) = [item])
    (hmoves : movesOf isTaken token drawn item = (moves, drawn')) :
    planMoves isTaken token drawn items = (moves, drawn') := by
  have horder : inExecutionOrder [item] = [item] := rfl
  simp [planMoves, h, horder, movesOfAll, hmoves]

/-- Each move of turns belongs to the turn of an entry, and what comes before it are the turns of
the entries before and the first part of this one. -/
theorem Turns.split {entries : List Retained} {before after : List Move} {m : Move}
    (h : Turns isTaken token entries (before ++ m :: after)) :
    ∃ front e back done first second, entries = front ++ e :: back ∧
      Turns isTaken token front done ∧ Legs isTaken token e (first ++ m :: second) ∧
      before = done ++ first := by
  generalize hall : before ++ m :: after = all at h
  induction h generalizing before with
  | nil => simp at hall
  | @cons e rest legs moves hlegs hrest ih =>
    have hlater : ∀ middle, before = legs ++ middle → middle ++ m :: after = moves →
        ∃ front e' back done first second, e :: rest = front ++ e' :: back ∧
          Turns isTaken token front done ∧ Legs isTaken token e' (first ++ m :: second) ∧
          before = done ++ first := by
      rintro middle rfl hmiddle
      obtain ⟨front, e', back, done, first, second, rfl, hdone, hlegs', rfl⟩ := ih hmiddle
      exact ⟨e :: front, e', back, legs ++ done, first, second, rfl, .cons hlegs hdone, hlegs',
        (List.append_assoc _ _ _).symm⟩
    rcases List.append_eq_append_iff.mp hall with ⟨middle, hlegs', hmiddle⟩ |
      ⟨middle, hbefore, hmiddle⟩
    · rcases List.cons_eq_append_iff.mp hmiddle with ⟨rfl, hmoves⟩ | ⟨second, rfl, -⟩
      · exact hlater [] (by simpa using hlegs'.symm) hmoves.symm
      · exact ⟨[], e, rest, [], before, second, rfl, .nil, hlegs' ▸ hlegs, rfl⟩
    · exact hlater middle hbefore hmiddle.symm

end Recase
