import Recase.Proofs.Tokens

/-!
# The sequence of a plan

A plan of any items, whether a scan has found them or not.

* `AreDistinct`: no two items have one path below one root, as those of a scan
  (`areDistinct_of_scan`). `AreDistinct.of_isNormal`: roots as they are read are known by their
  texts.
* `Item.Precedes`: a directory comes before all files, and before what lies in it. The order of
  execution puts it there (`Item.Precedes.executionOrder_eq`).
* `inExecutionOrder_perm`: distinct items have one order, however they are given.
* `Item.IsTurn`, `IsSequence`: the turns of items, each of one move or of two that meet, within a
  directory.
* `planMoves_isSequence`: the moves of a plan are those of such turns, the same for all arrangements
  of the items but for tokens.
-/

namespace Recase

open Name Recase.Tree

/-! ## Distinct items -/

/-- No two items have one path below one root, where a root is known by its text. -/
def AreDistinct (items : List Item) : Prop :=
  (items.map fun item => (item.root.toString, item.path)).Nodup

variable {items other : List Item} {a b item : Item}

namespace AreDistinct

theorem eq_of_path (h : AreDistinct items) (ha : a ∈ items) (hb : b ∈ items)
    (hroot : a.root.toString = b.root.toString) (hpath : a.path = b.path) : a = b :=
  List.inj_on_of_nodup_map h ha hb (Prod.ext hroot hpath)

theorem filter (h : AreDistinct items) (p : Item → Bool) : AreDistinct (items.filter p) :=
  h.sublist (List.filter_sublist.map _)

/-- Roots that are read from texts are known by them, so that items are distinct if no two have one
root and one path. -/
theorem of_isNormal (hnormal : ∀ item ∈ items, item.root.IsNormal)
    (h : (items.map fun item => (item.root, item.path)).Nodup) : AreDistinct items := by
  refine List.pairwise_map.mpr
    ((List.pairwise_map.mp h).imp_of_mem fun {a b} ha hb hne heq => hne ?_)
  obtain ⟨hroot, hpath⟩ := Prod.mk.inj heq
  exact Prod.ext (Path.toString_injective (hnormal a ha) (hnormal b hb) hroot) hpath

end AreDistinct

/-- The items of a scan are distinct. -/
theorem areDistinct_of_scan {d : Disk} {ignored texts : List String} (ht : d.tree.WellFormed)
    (h : (scan d ignored (texts.map .ofText)).items = .ok items) : AreDistinct items := by
  obtain ⟨kept, hkept, rfl⟩ := scan_items h
  have hroots := hasRoots_of_outermostRoots ht (isNormal_ofText texts) hkept
  refine .of_isNormal (fun item hitem => ?_) ?_
  · obtain ⟨e, he, rfl⟩ := List.mem_map.mp hitem
    exact hroots.isNormal _ ((mem_retained_iff ht).mp he).1
  · rw [List.map_map, List.Nodup, List.pairwise_map]
    refine (retained_pairwise ht hroots.areApart).imp_of_mem fun {a b} ha hb hplaces hpair => ?_
    obtain ⟨hroot, hpath⟩ := Prod.mk.inj hpair
    have hretains := ((mem_retained_iff ht).mp ha).2
    have hretains' := ((mem_retained_iff ht).mp hb).2
    have hroot : a.root = b.root := hroot
    have hnames : a.names = b.names := by
      rw [← (hretains.isVisible ht).segments_path, hpath, (hretains'.isVisible ht).segments_path]
    refine hplaces ?_
    rw [Retained.place_eq, Retained.place_eq, ← Disk.topAt_eq hretains.top,
      ← Disk.topAt_eq hretains'.top, hroot, hnames]

/-! ## The order of distinct items -/

namespace Item

/-- The names that lead to the item from its root. -/
def names (item : Item) : List String := (Route.ofText item.path).names

theorem depth_eq_length_names (item : Item) : item.depth = item.names.length := by
  rw [names, Route.ofText, List.length_map]
  rfl

/-- The item lies in the other one, at any depth. -/
structure IsBelow (item above : Item) : Prop where
  root : item.root = above.root
  names : ∃ rest, rest ≠ [] ∧ item.names = above.names ++ rest

/-- The item comes before the other: it is a directory, and the other is a file or lies in it. -/
def Precedes (item other : Item) : Prop :=
  item.kind = .directory ∧ (other.kind = .file ∨ other.IsBelow item)

theorem IsBelow.depth_lt (h : a.IsBelow b) : b.depth < a.depth := by
  obtain ⟨rest, hrest, hnames⟩ := h.names
  have hpos := List.length_pos_iff.mpr hrest
  rw [depth_eq_length_names, depth_eq_length_names, hnames, List.length_append]
  omega

theorem Precedes.executionOrder_eq (h : a.Precedes b) : a.executionOrder b = .lt := by
  obtain ⟨hkind, hother⟩ := h
  cases hfile : b.kind with
  | file => simp [executionOrder, hkind, hfile]
  | directory =>
    have hbelow : b.IsBelow a := hother.resolve_left (by simp [hfile])
    have hdepth : compare a.depth b.depth = .lt := Nat.compare_eq_lt.mpr hbelow.depth_lt
    simp [executionOrder, hkind, hfile, hdepth]

end Item

/-- Items that are level in the order are one. -/
theorem AreDistinct.eq_of_executionOrder (h : AreDistinct items) (ha : a ∈ items) (hb : b ∈ items)
    (hab : (a.executionOrder b).isLE = true) (hba : (b.executionOrder a).isLE = true) : a = b := by
  have hlevel : a.executionOrder b = .eq := Std.OrientedCmp.isLE_antisymm hab hba
  rw [Item.executionOrder_eq] at hlevel
  simp only [compareLex_eq_eq, compareOn] at hlevel
  obtain ⟨-, -, hroot, hpath⟩ := hlevel
  exact h.eq_of_path ha hb (Std.LawfulEqOrd.eq_of_compare hroot)
    (Std.LawfulEqOrd.eq_of_compare hpath)

theorem inExecutionOrder_pairwise (items : List Item) :
    (inExecutionOrder items).Pairwise fun a b => (a.executionOrder b).isLE = true :=
  sortBy_pairwise Item.executionOrder_trans Item.executionOrder_total items

/-- What precedes an item does not come after it. -/
theorem inExecutionOrder_precedes (items : List Item) :
    (inExecutionOrder items).Pairwise fun a b => ¬ b.Precedes a := by
  refine (inExecutionOrder_pairwise items).imp fun {a b} hle hprecedes => ?_
  rw [@Std.OrientedCmp.eq_swap _ Item.executionOrder, hprecedes.executionOrder_eq] at hle
  cases hle

/-- Distinct items have one order, however they are given. -/
theorem inExecutionOrder_perm (h : AreDistinct items) (hperm : items.Perm other) :
    inExecutionOrder items = inExecutionOrder other := by
  refine List.Perm.eq_of_pairwise (fun a b ha hb => ?_) (inExecutionOrder_pairwise items)
    (inExecutionOrder_pairwise other) ((sortBy_perm _ _).trans (hperm.trans (sortBy_perm _ _).symm))
  exact h.eq_of_executionOrder ((sortBy_perm _ _).mem_iff.mp ha)
    (hperm.mem_iff.mpr ((sortBy_perm _ _).mem_iff.mp hb))

/-! ## Turns within a directory -/

/-- The moves of the turn of an item: one to its converted path, or one to a path beside that and
one from there. -/
inductive Item.IsTurn (item : Item) : List Move → Prop
  | single : IsTurn item [⟨item.currentPath, item.convertedPath, item.root, false⟩]
  | paired {between : String}
      (hbeside : PathText.parentText between = PathText.parentText item.convertedPath) :
      IsTurn item [⟨item.currentPath, between, item.root, true⟩,
        ⟨between, item.convertedPath, item.root, true⟩]

/-- An item whose turn comes is in the directory that it stays in. -/
theorem Item.parentText_currentPath (item : Item) :
    PathText.parentText item.currentPath = PathText.parentText item.convertedPath := by
  have hname : '/' ∉ item.name.toList := not_mem_lastName item.path
  rw [Item.currentPath]
  split
  · rename_i hempty
    rw [String.isEmpty_iff.mp hempty, ← String.empty_append (s := item.name),
      parentText_append hname]
    rfl
  · rename_i hempty
    exact parentText_joinText hname (by simpa using hempty)

theorem Item.IsTurn.parentText_eq {moves : List Move} (h : item.IsTurn moves) :
    ∀ m ∈ moves, PathText.parentText m.source = PathText.parentText m.target := by
  have hcurrent := item.parentText_currentPath
  cases h with
  | single => simpa using hcurrent
  | paired hbeside => simpa [hbeside] using hcurrent

variable (isTaken : Path → Bool) {token : Nat → String}

/-- A temporary path is beside the converted one. -/
theorem parentText_freePath (htoken : ∀ n, IsToken (token n)) (drawn : Nat) (item : Item) :
    PathText.parentText (freePath isTaken token drawn item).1 =
      PathText.parentText item.convertedPath := by
  have hplain :
      PathText.parentText item.temporaryPath = PathText.parentText item.convertedPath := by
    rw [Item.temporaryPath, parentText_append (by decide)]
  unfold freePath
  split
  · have hslash : '/' ∉ (token (drawn + 1)).toList :=
      fun hm => absurd ((htoken (drawn + 1)).2 '/' hm) (by decide)
    rw [parentText_append hslash, parentText_append (by decide), hplain]
  · exact hplain

theorem isTurn_movesOf (htoken : ∀ n, IsToken (token n)) (drawn : Nat) (item : Item) :
    item.IsTurn (movesOf isTaken token drawn item).1 := by
  unfold movesOf
  split
  · exact .paired (parentText_freePath isTaken htoken drawn item)
  · exact .single

/-- The moves of items are those of each, one after the other. -/
theorem exists_movesOf_movesOfAll (isTaken : Path → Bool) (token : Nat → String) (drawn : Nat)
    (items : List Item) :
    ∃ turns : List (Item × List Move), turns.map (·.1) = items ∧
      (movesOfAll isTaken token drawn items).1 = turns.flatMap (·.2) ∧
      ∀ turn ∈ turns, ∃ n, turn.2 = (movesOf isTaken token n turn.1).1 := by
  induction items generalizing drawn with
  | nil => exact ⟨[], rfl, rfl, by simp⟩
  | cons item rest ih =>
    obtain ⟨turns, hitems, hmoves, hturns⟩ := ih (movesOf isTaken token drawn item).2
    have hturn : ∃ n, (movesOf isTaken token drawn item).1 = (movesOf isTaken token n item).1 :=
      ⟨drawn, rfl⟩
    rw [movesOfAll_cons, hmoves]
    generalize (movesOf isTaken token drawn item).1 = moves at hturn
    exact ⟨(item, moves) :: turns, by rw [List.map_cons, hitems], by rw [List.flatMap_cons],
      List.forall_mem_cons.mpr ⟨hturn, hturns⟩⟩

/-- The moves of items are those of their turns, one after the other. -/
theorem exists_turns_movesOfAll (htoken : ∀ n, IsToken (token n)) (drawn : Nat)
    (items : List Item) :
    ∃ turns : List (Item × List Move), turns.map (·.1) = items ∧
      (movesOfAll isTaken token drawn items).1 = turns.flatMap (·.2) ∧
      ∀ turn ∈ turns, turn.1.IsTurn turn.2 := by
  obtain ⟨turns, hitems, hmoves, hturns⟩ := exists_movesOf_movesOfAll isTaken token drawn items
  refine ⟨turns, hitems, hmoves, fun turn hturn => ?_⟩
  obtain ⟨n, hturn⟩ := hturns turn hturn
  rw [hturn]
  exact isTurn_movesOf isTaken htoken n turn.1

/-- The turns of the items that need a new name, each with its moves. They stay within a directory,
and what precedes an item has its turn before it. -/
structure IsSequence (items : List Item) (turns : List (Item × List Move)) : Prop where
  items : (turns.map (·.1)).Perm (items.filter (·.changesName))
  isTurn : ∀ turn ∈ turns, turn.1.IsTurn turn.2
  parents :
    ∀ turn ∈ turns, ∀ m ∈ turn.2, PathText.parentText m.source = PathText.parentText m.target
  order : turns.Pairwise fun turn later => ¬ later.1.Precedes turn.1

/-- The moves of a plan are those of turns, in which directories come before files and before what
lies in them. Any arrangement of the items has the same moves but for tokens. -/
theorem planMoves_isSequence (htoken : ∀ n, IsToken (token n)) (drawn : Nat)
    (h : AreDistinct items) :
    (∀ other, items.Perm other → ∀ (token' : Nat → String) (drawn' : Nat),
        List.Forall₂ (Move.EqButToken (tokensFrom token drawn) (tokensFrom token' drawn'))
          (planMoves isTaken token drawn items).1 (planMoves isTaken token' drawn' other).1) ∧
      ∃ turns, (planMoves isTaken token drawn items).1 = turns.flatMap (·.2) ∧
          IsSequence items turns := by
  refine ⟨fun other hperm token' drawn' => ?_, ?_⟩
  · have hsame : planMoves isTaken token' drawn' other = planMoves isTaken token' drawn' items := by
      rw [planMoves, planMoves, inExecutionOrder_perm (h.filter _) (hperm.filter _)]
    rw [hsame]
    exact planMoves_eqButToken isTaken token token' drawn drawn' items
  · obtain ⟨turns, hitems, hmoves, hturns⟩ := exists_turns_movesOfAll isTaken htoken drawn
      (inExecutionOrder (items.filter (·.changesName)))
    refine ⟨turns, hmoves, ?_, hturns, fun turn hturn => (hturns turn hturn).parentText_eq, ?_⟩
    · rw [hitems]
      exact sortBy_perm _ _
    · have horder := inExecutionOrder_precedes (items.filter (·.changesName))
      rwa [← hitems, List.pairwise_map] at horder

/-- Two trees side by side, with a name that changes in letter case alone and has its temporary name
taken. -/
def Tree.sideBySide : Tree :=
  ⟨[(["App"], .directory), (["App", "mainPage"], .directory),
    (["App", "mainPage", "README.md"], .file .empty),
    (["App", "mainPage", "readme.md.temp-rename"], .file .empty), (["Lib"], .directory),
    (["Lib", "mainPage.ts"], .file .empty), (["Lib", "srcFiles"], .directory),
    (["Lib", "srcFiles", "V2"], .directory)]⟩

/-- The plan of their items, and that of the same items the other way round. -/
theorem planMoves_isSequence_sideBySide :
    ∃ items, (scan (World.ofTree .sideBySide).disk [] (["Lib", "App"].map .ofText)).items =
        .ok items ∧
      List.Forall₂ (Move.EqButToken (tokensFrom tokenText 0) (tokensFrom tokenText 9))
        (planMoves (fun path => (World.ofTree .sideBySide).disk.hasEntry path.route)
          tokenText 0 items).1
        (planMoves (fun path => (World.ofTree .sideBySide).disk.hasEntry path.route)
          tokenText 9 items.reverse).1 ∧
      ∃ turns, IsSequence items turns ∧ turns.length = 5 ∧ (turns.flatMap (·.2)).length = 7 := by
  obtain ⟨items, hitems, hchanges, hlength⟩ : ∃ items : List Item,
      (scan (World.ofTree .sideBySide).disk [] (["Lib", "App"].map .ofText)).items = .ok items ∧
      (items.filter (·.changesName)).length = 5 ∧
      (planMoves (fun path => (World.ofTree .sideBySide).disk.hasEntry path.route) tokenText 0
        items).1.length = 7 :=
    exists_ok_of_any (by decide +kernel)
  obtain ⟨hsame, turns, hmoves, hturns⟩ := planMoves_isSequence
    (fun path => (World.ofTree .sideBySide).disk.hasEntry path.route) isToken_tokenText 0
    (areDistinct_of_scan (by decide) hitems)
  refine ⟨items, hitems, hsame _ items.reverse_perm.symm _ _, turns, hturns, ?_, ?_⟩
  · rw [← hchanges, ← hturns.items.length_eq, List.length_map]
  · rw [← hmoves, hlength]

end Recase
