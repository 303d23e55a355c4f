import Recase.Proofs.Plan.Counts
import Recase.Proofs.Plan.Mistaken

/-!
# The warnings of a plan

* `throughLast?_tokened`: the temporary path is read off one with a token.
* `Move.said`: what is said about a move. `eq_flatMap_of_warningsOf`: what is said about moves is
  what is said about each.
* `Item.warnings`, `warningsInTurn`: what is said about an item, and about items that have their
  turn one after the other. `said_movesOf`, `said_movesOfAll`: it is said about their moves.
* `warningsInTurn_of_isTellable`: where all items are tellable, those that draw a token are warned
  of, and no other. `movesOf_of_mem_said`: their moves go over the path with the token.
* `buildPlan_of_scan`: whether the items of a scan have a plan, and what it warns of.
-/

namespace Recase

open Name

variable {d : Disk} {ignored : List String} {roots : List Root} {items : List Item}
  {item : Item} {e : Retained} {entries : List Retained} {isTaken : Path → Bool}
  {token : Nat → String}

/-! ## What is said about a move -/

/-- The last occurrence is the one after which there is no other. -/
theorem throughLast?_append {part after : List Char} (front : List Char) (hne : part ≠ [])
    (hlast : ¬ part <:+: (part ++ after).tail) :
    throughLast? part (front ++ part ++ after) = some (front ++ part) := by
  induction front with
  | nil =>
    obtain ⟨c, rest, rfl⟩ := List.exists_cons_of_ne_nil hne
    have hnone : throughLast? (c :: rest) (rest ++ after) = none :=
      throughLast?_eq_none_iff.mpr hlast
    simp [throughLast?, hnone]
  | cons c front ih =>
    rw [List.cons_append, List.cons_append, throughLast?, ih]

/-- The temporary path is what stands before the token. -/
theorem throughLast?_tokened {text : String} (htoken : IsToken text) (path : String) :
    throughLast? temporarySuffix.toList (path ++ temporarySuffix ++ "-" ++ text).toList =
      some (path ++ temporarySuffix).toList := by
  have hlast :
      ¬ temporarySuffix.toList <:+: (temporarySuffix.toList ++ '-' :: text.toList).tail := by
    intro hinfix
    -- the suffix starts with a dot, and there is none in what follows
    have hdot : '.' ∈ (temporarySuffix.toList ++ '-' :: text.toList).tail :=
      hinfix.subset (by decide)
    rw [show (temporarySuffix.toList ++ '-' :: text.toList).tail = "temp-rename-".toList ++
      text.toList from rfl, List.mem_append] at hdot
    rcases hdot with hdot | hdot
    · exact absurd hdot (by decide)
    · exact absurd (htoken.2 '.' hdot) (by decide)
  have happend := throughLast?_append path.toList (by decide) hlast
  simpa using happend

/-- What is said about a move, where something can be said. -/
def Move.said (m : Move) : List TokenWarning :=
  if m.needsWarning then
    (throughLast? temporarySuffix.toList m.target.toList).toList.map (⟨m.target, String.ofList ·⟩)
  else []

/-- What is said about moves is what is said about each. -/
theorem eq_flatMap_of_warningsOf {moves : List Move} {warnings : List TokenWarning}
    (h : warningsOf moves = .ok warnings) : warnings = moves.flatMap (·.said) := by
  induction moves generalizing warnings with
  | nil => exact (Except.ok.inj h).symm
  | cons m rest ih =>
    rw [List.flatMap_cons, Move.said]
    rw [warningsOf] at h
    by_cases hneeds : m.needsWarning = true
    · rw [if_pos hneeds] at h ⊢
      cases hkept : throughLast? temporarySuffix.toList m.target.toList with
      | none => simp [hkept] at h
      | some kept =>
        cases hrest : warningsOf rest with
        | error failure => simp [hkept, hrest, Except.map] at h
        | ok more =>
          rw [← ih hrest]
          simpa [hkept, hrest, Except.map, eq_comm] using h
    · rw [if_neg hneeds] at h ⊢
      exact ih h

/-! ## What is said about an item -/

namespace Item

/-- The item takes a temporary name with a token. -/
def drawsToken (isTaken : Path → Bool) (item : Item) : Bool :=
  item.isRecased && isTaken item.temporarySite

/-- The warning of an item that takes a temporary name with a token. -/
def tokenWarning (token : Nat → String) (item : Item) (n : Nat) : TokenWarning :=
  ⟨item.temporaryPath ++ "-" ++ token n, item.temporaryPath⟩

/-- What is said about the second move of an item if it is taken for the first: there is a line feed
in the converted name, and the suffix of temporary names occurs in the converted path, but not at
its end. -/
def strayWarnings (item : Item) : List TokenWarning :=
  if item.convertedName.toList.contains '\n' &&
    !temporarySuffix.toList.isSuffixOf item.convertedPath.toList then
    (throughLast? temporarySuffix.toList item.convertedPath.toList).toList.map
      (⟨item.convertedPath, String.ofList ·⟩)
  else []

/-- What is said about an item. A token is warned of unless the item is itself named like a
temporary entry. -/
def warnings (isTaken : Path → Bool) (token : Nat → String) (drawn : Nat) (item : Item) :
    List TokenWarning :=
  (if item.drawsToken isTaken && !isTemporary item.name then
    [item.tokenWarning token (drawn + 1)] else []) ++
    if item.isRecased then item.strayWarnings else []

end Item

/-- What is said about items that have their turn one after the other. -/
def warningsInTurn (isTaken : Path → Bool) (token : Nat → String) :
    Nat → List Item → List TokenWarning
  | _, [] => []
  | drawn, item :: rest => item.warnings isTaken token drawn ++
      warningsInTurn isTaken token (if item.drawsToken isTaken then drawn + 1 else drawn) rest

/-- Nothing is said about a move to a temporary path without a token. -/
theorem said_of_untokened (source : String) (item : Item) :
    Move.said ⟨source, item.temporaryPath, item.root, true⟩ = [] := by
  have hsuffix : temporarySuffix.toList.isSuffixOf item.temporaryPath.toList = true := by
    rw [List.isSuffixOf_iff_suffix, Item.temporaryPath, String.toList_append]
    exact List.suffix_append _ _
  rw [Move.said, Move.needsWarning, hsuffix]
  simp

/-- A token is warned of unless the item is itself named like a temporary entry. -/
theorem said_of_tokened (hvisible : e.IsVisible) (htoken : ∀ n, IsToken (token n)) (n : Nat) :
    Move.said ⟨e.item.currentPath, e.item.temporaryPath ++ "-" ++ token n, e.item.root, true⟩ =
      if isTemporary e.item.name then [] else [e.item.tokenWarning token n] := by
  have hname : PathText.lastName e.item.currentPath = e.item.name := by
    rw [hvisible.item_currentPath, hvisible.item_name,
      lastName_pathText hvisible.isPlain_name.slash]
  have hsuffix : temporarySuffix.toList.isSuffixOf
      (e.item.temporaryPath ++ "-" ++ token n).toList = false := by
    have htokened :
        temporarySuffix.toList.isSuffixOf (e.item.temporaryPath.toList ++ '-' :: (token n).toList) =
        false := isSuffixOf_tokened (htoken n)
    simpa using htokened
  have hkept := throughLast?_tokened (htoken n) e.item.convertedPath
  rw [← Item.temporaryPath] at hkept
  rw [Move.said, Move.needsWarning, Move.leavesTemporary, hname, hsuffix, hkept]
  cases isTemporary e.item.name <;> simp [Item.tokenWarning]

/-- The second move is taken for the first if there is a line feed in the converted name. -/
theorem said_of_second (hvisible : e.IsVisible) (htoken : ∀ n, IsToken (token n))
    {temporary : String} (htemporary : IsTemporaryOf token e.newName temporary) :
    Move.said ⟨pathText (e.newAbove ++ [temporary]), e.item.convertedPath, e.item.root, true⟩ =
      e.item.strayWarnings := by
  rw [Move.said, Item.strayWarnings]
  refine if_congr ?_ rfl rfl
  rw [needsWarning_second hvisible htoken htemporary e.item.root, ← hvisible.item_convertedName]
  simp [← List.isSuffixOf_iff_suffix]

/-! ## Turns -/

theorem movesOf_of_same (token : Nat → String) (drawn : Nat) (h : item.isRecased = false) :
    movesOf isTaken token drawn item =
        ([⟨item.currentPath, item.convertedPath, item.root, false⟩], drawn) := by
  simp [movesOf, h]

theorem movesOf_of_free (token : Nat → String) (drawn : Nat) (h : item.isRecased = true)
    (hfree : isTaken item.temporarySite = false) :
    movesOf isTaken token drawn item = ([⟨item.currentPath, item.temporaryPath, item.root, true⟩,
      ⟨item.temporaryPath, item.convertedPath, item.root, true⟩], drawn) := by
  simp [movesOf, freePath, h, hfree]

theorem movesOf_of_taken (token : Nat → String) (drawn : Nat) (h : item.isRecased = true)
    (htaken : isTaken item.temporarySite = true) :
    movesOf isTaken token drawn item =
      ([⟨item.currentPath, item.temporaryPath ++ "-" ++ token (drawn + 1), item.root, true⟩,
        ⟨item.temporaryPath ++ "-" ++ token (drawn + 1), item.convertedPath, item.root, true⟩],
            drawn + 1) := by
  simp [movesOf, freePath, h, htaken]

/-- A token is drawn for an item that takes it. -/
theorem drawn_movesOf (isTaken : Path → Bool) (token : Nat → String) (drawn : Nat) (item : Item) :
    (movesOf isTaken token drawn item).2 =
      if item.drawsToken isTaken then drawn + 1 else drawn := by
  rw [Item.drawsToken]
  cases hrecased : item.isRecased with
  | false => rw [movesOf_of_same token drawn hrecased]; rfl
  | true =>
    cases htaken : isTaken item.temporarySite with
    | false => rw [movesOf_of_free token drawn hrecased htaken]; rfl
    | true => rw [movesOf_of_taken token drawn hrecased htaken]; rfl

/-- What is said about the moves of a scanned item. -/
theorem said_movesOf (hvisible : e.IsVisible) (htoken : ∀ n, IsToken (token n)) (drawn : Nat) :
    (movesOf isTaken token drawn e.item).1.flatMap (·.said) =
        e.item.warnings isTaken token drawn := by
  rw [Item.warnings, Item.drawsToken]
  cases hrecased : e.item.isRecased with
  | false =>
    rw [movesOf_of_same token drawn hrecased]
    simp [Move.said, Move.needsWarning]
  | true =>
    cases htaken : isTaken e.item.temporarySite with
    | false =>
      have hsecond := said_of_second hvisible htoken (.untokened : IsTemporaryOf token e.newName _)
      rw [← e.item_temporaryPath] at hsecond
      rw [movesOf_of_free token drawn hrecased htaken, List.flatMap_cons,
        List.flatMap_singleton, hsecond, said_of_untokened]
      simp
    | true =>
      have hsecond := said_of_second hvisible htoken (.tokened (drawn + 1))
      rw [← pathText_concat_append, ← pathText_concat_append, ← e.item_temporaryPath] at hsecond
      rw [movesOf_of_taken token drawn hrecased htaken, List.flatMap_cons,
        List.flatMap_singleton, hsecond, said_of_tokened hvisible htoken]
      cases isTemporary e.item.name <;> simp

/-- What is said about the moves of scanned items. -/
theorem said_movesOfAll (hvisible : ∀ e ∈ entries, e.IsVisible) (htoken : ∀ n, IsToken (token n))
    (drawn : Nat) :
    (movesOfAll isTaken token drawn (entries.map (·.item))).1.flatMap (·.said) =
      warningsInTurn isTaken token drawn (entries.map (·.item)) := by
  induction entries generalizing drawn with
  | nil => rfl
  | cons e rest ih =>
    rw [List.forall_mem_cons] at hvisible
    rw [List.map_cons, movesOfAll_cons, List.flatMap_append, said_movesOf hvisible.1 htoken,
      ih hvisible.2, drawn_movesOf, warningsInTurn]

/-! ## Items that are tellable -/

/-- A tellable item has its token warned of, and nothing else. -/
theorem Item.IsTellable.warnings_eq (h : item.IsTellable) (drawn : Nat) :
    item.warnings isTaken token drawn =
      if item.drawsToken isTaken then [item.tokenWarning token (drawn + 1)] else [] := by
  rw [Item.warnings, Item.drawsToken]
  cases hrecased : item.isRecased with
  | false => rfl
  | true =>
    obtain ⟨hname, hline⟩ := h hrecased
    have hnone : item.strayWarnings = [] := by
      rw [strayWarnings, if_neg (by simp [hline])]
    simp [hname, hnone]

/-- The tokens of tellable items are warned of in the order in which they are drawn. -/
theorem warningsInTurn_of_isTellable (h : ∀ item ∈ items, item.IsTellable) (drawn : Nat) :
    warningsInTurn isTaken token drawn items =
      (items.filter (·.drawsToken isTaken)).mapIdx fun k item =>
        item.tokenWarning token (drawn + k + 1) := by
  induction items generalizing drawn with
  | nil => rfl
  | cons item rest ih =>
    rw [List.forall_mem_cons] at h
    have hnumber : ∀ k, drawn + 1 + k + 1 = drawn + (k + 1) + 1 := by omega
    rw [warningsInTurn, h.1.warnings_eq, ih h.2, List.filter_cons]
    split
    · simp only [List.mapIdx_cons, hnumber, Nat.add_zero, List.singleton_append]
    · rw [List.nil_append]

/-- The two moves of a tellable item go over the path that is warned of. -/
theorem movesOf_of_mem_said (hvisible : e.IsVisible) (htoken : ∀ n, IsToken (token n))
    (htellable : e.item.IsTellable) {drawn : Nat} {warning : TokenWarning}
    (h : warning ∈ (movesOf isTaken token drawn e.item).1.flatMap (·.said)) :
    warning.taken = e.item.temporaryPath ∧ e.item.drawsToken isTaken = true ∧
      (movesOf isTaken token drawn e.item).1 =
        [⟨e.item.currentPath, warning.used, e.item.root, true⟩,
        ⟨warning.used, e.item.convertedPath, e.item.root, true⟩] := by
  rw [said_movesOf hvisible htoken, htellable.warnings_eq] at h
  split at h
  · rename_i hdraws
    obtain ⟨hrecased, htaken⟩ := Bool.and_eq_true_iff.mp hdraws
    rw [List.mem_singleton.mp h, movesOf_of_taken token drawn hrecased htaken]
    exact ⟨rfl, hdraws, rfl⟩
  · cases h

/-! ## Plans -/

section Plans

variable {plan : Plan} {failure : Failure} {drawn : Nat}

theorem buildPlan_eq_ok_iff :
    (buildPlan isTaken token drawn items).1 = .ok plan ↔ ∃ warnings,
      warningsOf (planMoves isTaken token drawn items).1 = .ok warnings ∧
        plan = ⟨(planMoves isTaken token drawn items).1, items.filter (·.changesName), warnings,
          conflictsOf items, 0⟩ := by
  unfold buildPlan
  dsimp only
  cases warningsOf (planMoves isTaken token drawn items).1 with
  | error failure => simp [Except.map]
  | ok warnings => simp [Except.map, eq_comm]

theorem failure_of_buildPlan (h : (buildPlan isTaken token drawn items).1 = .error failure) :
    failure = .missingSuffix := by
  unfold buildPlan at h
  dsimp only at h
  cases hwarnings : warningsOf (planMoves isTaken token drawn items).1 with
  | error other =>
    rw [hwarnings] at h
    cases h
    exact eq_of_warningsOf hwarnings
  | ok warnings =>
    rw [hwarnings] at h
    cases h

/-- Visible entries have a plan unless the item of one is mistaken. -/
theorem exists_buildPlan_iff (isTaken : Path → Bool) (drawn : Nat)
    (hvisible : ∀ e ∈ entries, e.IsVisible) (htoken : ∀ n, IsToken (token n)) :
    (∃ plan, (buildPlan isTaken token drawn (entries.map (·.item))).1 = .ok plan) ↔
      ∀ item ∈ entries.map (·.item), ¬ item.IsMistaken := by
  rw [List.forall_mem_map, ← exists_warningsOf_planMoves isTaken hvisible htoken drawn]
  constructor
  · rintro ⟨plan, hplan⟩
    obtain ⟨warnings, hwarnings, -⟩ := buildPlan_eq_ok_iff.mp hplan
    exact ⟨warnings, hwarnings⟩
  · rintro ⟨warnings, hwarnings⟩
    exact ⟨_, buildPlan_eq_ok_iff.mpr ⟨warnings, hwarnings, rfl⟩⟩

/-- The plan of visible entries warns of what is said about their items. -/
theorem warnings_of_buildPlan (hvisible : ∀ e ∈ entries, e.IsVisible)
    (htoken : ∀ n, IsToken (token n))
    (h : (buildPlan isTaken token drawn (entries.map (·.item))).1 = .ok plan) :
    plan.warnings = warningsInTurn isTaken token drawn (inExecutionOrder plan.items) := by
  obtain ⟨warnings, hwarnings, rfl⟩ := buildPlan_eq_ok_iff.mp h
  dsimp only
  rw [eq_flatMap_of_warningsOf hwarnings, planMoves, Retained.inExecutionOrder_map_item]
  exact said_movesOfAll (fun e he => hvisible e (Retained.mem_inOrder_iff.mp he).1) htoken drawn

/-- What the plan of visible and tellable entries warns of is the path over which an item goes. -/
theorem moves_of_mem_warnings (hvisible : ∀ e ∈ entries, e.IsVisible)
    (htoken : ∀ n, IsToken (token n))
    (h : (buildPlan isTaken token drawn (entries.map (·.item))).1 = .ok plan)
    (htellable : ∀ item ∈ plan.items, item.IsTellable) {warning : TokenWarning}
    (hwarning : warning ∈ plan.warnings) :
    ∃ item ∈ plan.items, warning.taken = item.temporaryPath ∧ item.drawsToken isTaken = true ∧
      ⟨item.currentPath, warning.used, item.root, true⟩ ∈ plan.moves ∧
      ⟨warning.used, item.convertedPath, item.root, true⟩ ∈ plan.moves := by
  obtain ⟨warnings, hwarnings, rfl⟩ := buildPlan_eq_ok_iff.mp h
  obtain ⟨turns, hturns, hmoves, heach⟩ := exists_movesOf_movesOfAll isTaken token drawn
    (inExecutionOrder ((entries.map (·.item)).filter (·.changesName)))
  have hwarning : warning ∈ warnings := hwarning
  rw [eq_flatMap_of_warningsOf hwarnings, planMoves, hmoves, List.flatMap_assoc,
    List.mem_flatMap] at hwarning
  obtain ⟨turn, hturn, hsaid⟩ := hwarning
  have hmem : turn.1 ∈ turns.map (·.1) := List.mem_map_of_mem hturn
  rw [hturns, inExecutionOrder, (sortBy_perm _ _).mem_iff] at hmem
  obtain ⟨e, he, heq⟩ := List.mem_map.mp (List.mem_filter.mp hmem).1
  obtain ⟨n, hmovesOf⟩ := heach turn hturn
  rw [hmovesOf, ← heq] at hsaid
  obtain ⟨htaken, hdraws, hpair⟩ :=
    movesOf_of_mem_said (hvisible e he) htoken (heq ▸ htellable _ hmem) hsaid
  have hall : ∀ m ∈ turn.2, m ∈ (planMoves isTaken token drawn (entries.map (·.item))).1 := by
    intro m hm
    rw [planMoves, hmoves]
    exact List.mem_flatMap_of_mem hturn hm
  rw [hmovesOf, ← heq, hpair, List.forall_mem_cons, List.forall_mem_singleton] at hall
  exact ⟨e.item, heq ▸ hmem, htaken, hdraws, hall.1, hall.2⟩

end Plans

/-- Items of a scan have a plan unless one of them is mistaken, and fail in no other way. The plan
warns of what is said about the items in the order of execution. Where those that need a new name
are tellable, there is a plan, and it warns of each temporary path with a token, as they are drawn,
and of nothing else. The item goes over this path. -/
theorem buildPlan_of_scan (ht : d.tree.WellFormed) (htoken : ∀ n, IsToken (token n))
    (hitems : (scan d ignored roots).items = .ok items) (isTaken : Path → Bool) (drawn : Nat) :
    ((∃ plan, (buildPlan isTaken token drawn items).1 = .ok plan) ↔
        ∀ item ∈ items, ¬ item.IsMistaken) ∧
      (∀ failure, (buildPlan isTaken token drawn items).1 = .error failure →
        failure = .missingSuffix) ∧
      (∀ plan, (buildPlan isTaken token drawn items).1 = .ok plan →
        plan.warnings = warningsInTurn isTaken token drawn (inExecutionOrder plan.items)) ∧
      ((∀ item ∈ items, item.changesName = true → item.IsTellable) →
        ∃ plan, (buildPlan isTaken token drawn items).1 = .ok plan ∧
          plan.warnings = ((inExecutionOrder plan.items).filter (·.drawsToken isTaken)).mapIdx
            (fun k item => item.tokenWarning token (drawn + k + 1)) ∧
          ∀ warning ∈ plan.warnings, ∃ item ∈ plan.items, warning.taken = item.temporaryPath ∧
            item.drawsToken isTaken = true ∧
            ⟨item.currentPath, warning.used, item.root, true⟩ ∈ plan.moves ∧
            ⟨warning.used, item.convertedPath, item.root, true⟩ ∈ plan.moves) := by
  obtain ⟨kept, -, rfl⟩ := scan_items hitems
  have hvisible : ∀ e ∈ retained d ignored kept, e.IsVisible :=
    fun e he => ((mem_retained_iff ht).mp he).2.isVisible ht
  have hexists := exists_buildPlan_iff isTaken drawn hvisible htoken
  refine ⟨hexists, fun _ => failure_of_buildPlan, fun _ => warnings_of_buildPlan hvisible htoken,
    fun htellable => ?_⟩
  obtain ⟨plan, hplan⟩ := hexists.mpr fun item hitem hmistaken =>
    (htellable item hitem hmistaken.changesName hmistaken.isRecased).2 hmistaken.lineFeed
  have hchanging : ∀ item ∈ plan.items, item.IsTellable := by
    obtain ⟨-, -, rfl⟩ := buildPlan_eq_ok_iff.mp hplan
    intro item hitem
    exact htellable item (List.mem_filter.mp hitem).1 (List.mem_filter.mp hitem).2
  refine ⟨plan, hplan, ?_, fun warning => moves_of_mem_warnings hvisible htoken hplan hchanging⟩
  rw [warnings_of_buildPlan hvisible htoken hplan]
  refine warningsInTurn_of_isTellable (fun item hitem => hchanging item ?_) drawn
  exact (sortBy_perm _ _).mem_iff.mp hitem

/-- With all temporary names taken, the plan of three items warns of the two that go over one. -/
theorem buildPlan_of_scan_lettered :
    ∃ items plan, (scan (World.ofTree .lettered).disk [] (["."].map .ofText)).items = .ok items ∧
      (buildPlan (fun _ => true) tokenText 4 items).1 = .ok plan ∧ plan.moves.length = 5 ∧
      plan.warnings = [⟨"docs.temp-rename-00000005", "docs.temp-rename"⟩,
        ⟨"readme.md.temp-rename-00000006", "readme.md.temp-rename"⟩] := by
  obtain ⟨items, hitems, htellable, hlength, hdraws⟩ : ∃ items : List Item,
      (scan (World.ofTree .lettered).disk [] (["."].map .ofText)).items = .ok items ∧
      (∀ item ∈ items, isTemporary item.name = false ∧ '\n' ∉ item.convertedName.toList) ∧
      (planMoves (fun _ => true) tokenText 4 items).1.length = 5 ∧
      (((inExecutionOrder (items.filter (·.changesName))).filter
          (·.drawsToken fun _ => true)).mapIdx
          fun k item => item.tokenWarning tokenText (4 + k + 1)) =
        [⟨"docs.temp-rename-00000005", "docs.temp-rename"⟩,
          ⟨"readme.md.temp-rename-00000006", "readme.md.temp-rename"⟩] :=
    exists_ok_of_any (by decide +kernel)
  obtain ⟨-, -, -, hregular⟩ :=
    buildPlan_of_scan (d := (World.ofTree .lettered).disk) (by decide) isToken_tokenText
      hitems (fun _ => true) 4
  obtain ⟨plan, hplan, hwarnings, -⟩ := hregular fun item hitem _ _ => htellable item hitem
  obtain ⟨warnings, -, rfl⟩ := buildPlan_eq_ok_iff.mp hplan
  exact ⟨items, _, hitems, hplan, hlength, hwarnings.trans hdraws⟩

/-- A file with a line feed in its name, which changes in letter case alone. -/
def Tree.lineBroken : Tree := ⟨[(["A\nb"], .file .empty)]⟩

/-- There is no plan for it: the second of its moves is taken for the first, and no suffix is found
in its target. -/
theorem buildPlan_lineBroken :
    ∃ items, (scan (World.ofTree .lineBroken).disk [] (["."].map .ofText)).items = .ok items ∧
      items.map (·.path) = ["A\nb"] ∧
      (buildPlan (fun _ => false) tokenText 0 items).1 = .error .missingSuffix := by
  obtain ⟨items, hitems, hpaths, hmoves⟩ : ∃ items : List Item,
      (scan (World.ofTree .lineBroken).disk [] (["."].map .ofText)).items = .ok items ∧
      items.map (·.path) = ["A\nb"] ∧
      (buildPlan (fun _ => false) tokenText 0 items).1.toOption = none :=
    exists_ok_of_any (by decide +kernel)
  refine ⟨items, hitems, hpaths, ?_⟩
  cases hplan : (buildPlan (fun _ => false) tokenText 0 items).1 with
  | error failure => rw [failure_of_buildPlan hplan]
  | ok plan => rw [hplan] at hmoves; cases hmoves

end Recase
