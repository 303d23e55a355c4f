import Mathlib.Data.String.Basic
import Recase.Proofs.Occupied

/-!
# Why a plan fails

Why the moves of a plan without conflicts fail on a tree of directories and regular files.

* `Stage.enters`: without links, and roots whose paths have no two dots in them, the way from a root
  stays open through all moves.
* `Retained.Obstacle`: what keeps a move of the turn of an entry from succeeding.
* `execute_failure`: nothing else does. No move finds its source missing, and no retained entry is
  in the way of a converted name.
-/

namespace Recase

open Name Naming Recase.Tree

variable {d₀ d : Disk} {ν : Naming} {gone : List Place} {root : Path} {top : Place}
  {front names : List String} {ignored texts : List String} {e : Retained}

/-- The way from a root stays open. -/
theorem Disk.Stage.enters (hs : d₀.Stage ν gone d) (ht : d₀.tree.WellFormed)
    (hlinks : d₀.tree.LinkFree) (hroot : root.IsNormal) (hdots : ".." ∉ root.segments)
    (htop : d₀.directoryAt? root = some top) (hfixed : ν.relocate top = top)
    (hdir : d.tree.isDirectory (top ++ front) = true) : d.Enters root front (top ++ front) := by
  obtain ⟨hstart, n, -, hleads⟩ := Disk.leads_of_directoryAt? ht htop
  obtain ⟨-, hdown⟩ := (Path.leads_segments hroot hleads).eq_append hlinks hdots
  rw [hroot.filter_segments] at hdown
  have hhere : ν.relocate (root.route.startAt d₀.here) = root.route.startAt d₀.here := by
    rw [hdown, relocate_append] at hfixed
    exact (List.append_inj hfixed (by simp)).1
  rw [hdown, List.append_assoc] at hdir ⊢
  have hwf := hs.wellFormed ht
  refine ⟨?_, 0, Nat.zero_le _, ?_⟩ <;> rw [hs.startAt_eq hstart, hhere]
  · exact hwf.isDirectory_of_isDirectory_append hdir
  · exact leads_below hwf hdir

/-- What keeps a move of the turn of an entry from succeeding. -/
inductive Retained.Obstacle (d : Disk) (ignored : List String) (token : Nat → String) (e : Retained)
    (m : Move) : Prop
  /-- The text of a path is too long. -/
  | pathTooLong (h : (m.root.joinText m.source).route.isTooLong = true ∨
      (m.root.joinText m.target).route.isTooLong = true)
  /-- The move goes to the converted name, and that is too long. -/
  | nameTooLong (htarget : m.target = e.item.convertedPath) (h : nameLimit < e.newName.utf8ByteSize)
  /-- The move goes to the converted name, and what has that name is skipped. -/
  | skipped (htarget : m.target = e.item.convertedPath)
      (hthere : d.tree.node? (e.directory ++ [e.newName]) ≠ none)
      (h : isSkipped ignored e.newName = true)
  /-- The move goes to a temporary name, and that is too long. -/
  | temporaryTooLong {temporary : String} (htemporary : IsTemporaryOf token e.newName temporary)
      (htarget : m.target = pathText (e.newAbove ++ [temporary]))
      (h : nameLimit < temporary.utf8ByteSize)
  /-- The move goes to a temporary name, and that is the converted name of another retained
  entry. -/
  | temporaryConverted {temporary : String} {r : Retained}
      (htemporary : IsTemporaryOf token e.newName temporary)
      (htarget : m.target = pathText (e.newAbove ++ [temporary]))
      (hretains : d.Retains ignored r) (hsibling : r.IsSiblingOf e) (hne : r ≠ e)
      (h : r.newName = temporary)
  /-- The move goes to the temporary name without a token. Something has it, and the text of its
  path was too long to find that out. -/
  | temporaryUnseen (htarget : m.target = e.item.temporaryPath)
      (hthere : d.tree.node? (e.directory ++ [e.newName ++ temporarySuffix]) ≠ none)
      (h : e.item.temporarySite.route.isTooLong = true)

section Moment

variable {kept : List Path} {front back : List Retained} {token : Nat → String} {x y : String}
  {isPaired : Bool} {d' : Disk} {failure : Failure} (h : d₀.HasRoots kept)
  (hlinks : d₀.tree.LinkFree) (hdots : ".." ∉ e.root.segments)
  (hfresh : ∀ above name n,
    d₀.tree.node? (above ++ [name ++ temporarySuffix ++ "-" ++ token n]) = none)
  (horder : Retained.inOrder (retained d₀ ignored kept) = front ++ e :: back)
  (hconflicts : conflictsOf ((retained d₀ ignored kept).map (·.item)) = [])
  (htakes : e.Takes (fun path => d₀.hasEntry path.route) token x y)
  (hdue : e.IsDue d₀ (Function.update (namesAfter front) e.place x))
  (hs : d₀.Stage (Function.update (namesAfter front) e.place x) gone d)
include h hlinks hdots hfresh horder hconflicts htakes hdue hs

/-- What is in the way of an entry when its turn comes. -/
theorem obstacle_of_occupied (hthere : d.tree.node? (e.top ++ e.newAbove ++ [y]) ≠ none) :
    e.Obstacle d₀ ignored token (e.leg x y isPaired) := by
  obtain ⟨source, found, hne, hfound, hname⟩ :=
    exists_of_occupied hs hdue h.wellFormed htakes.ne hthere
  obtain rfl | ⟨rfl, htemporary, hfree⟩ := htakes.target
  · obtain ⟨rfl, hleft⟩ := eq_newName_of_occupied h horder hfound hconflicts hne hname
    rcases hleft with hlink | hskip
    · cases found with
      | link target => exact absurd hfound (hlinks _ _)
      | directory | file => cases hlink
    · exact .skipped rfl (by simp [hfound]) hskip
  · obtain rfl | ⟨r, hr, hsibling, hnew⟩ := eq_or_exists_of_occupied h horder hfound hname
    · cases htemporary with
      | tokened n => rw [hfresh] at hfound; cases hfound
      | untokened =>
        refine .temporaryUnseen e.item_temporaryPath.symm (by simp [hfound]) ?_
        exact isTooLong_temporarySite h.wellFormed hdue.isNormal hdue.top hdue.isVisible hfound
          (hfree rfl)
    · refine .temporaryConverted htemporary rfl
        ((mem_retained_iff h.wellFormed).mp hr).2 hsibling ?_ hnew
      rintro rfl
      exact htemporary.ne hnew.symm

/-- A step of a turn fails for an obstacle. -/
theorem obstacle_of_directMove
    (hmove : directMove (e.leg x y isPaired) e.root d = (d', some failure)) :
    ∃ f, failure = .moveFailed f ∧ f.move = e.leg x y isPaired ∧
      f.exitCode ≠ some (Errno.noEntry.code : Int) ∧ e.Obstacle d₀ ignored token f.move := by
  have ht := h.wellFormed
  have hnul : ∀ {name}, IsPlain name → (e.root.below (e.newAbove ++ [name])).route.hasNul = false :=
    fun hname => Path.hasNul_below (Disk.directoryAt?_eq_some_iff.mp hdue.top).1 (by simp)
      (hdue.isVisible.isPlain_newNames hname)
  have henters := hs.enters ht hlinks hdue.isNormal hdots hdue.top hdue.relocate_top
    (hdue.isDirectory hs ht)
  obtain ⟨node, -, -, hnode⟩ := hdue.node?_place hs ht
  rw [hdue.directory, Function.update_self] at hnode
  have hsrc : e.root.joinText (e.leg x y isPaired).source = e.root.below (e.newAbove ++ [x]) :=
    hdue.joinText_eq htakes.isPlain
  have hdst : e.root.joinText (e.leg x y isPaired).target = e.root.below (e.newAbove ++ [y]) :=
    hdue.joinText_eq htakes.isPlain'
  obtain ⟨f, rfl, hf, hcode, hlong | hlong | hlong | hthere⟩ :=
    directMove_eq_failure (hs.wellFormed ht) htakes.isPlain.isName htakes.isPlain'.isName htakes.ne
      hsrc hdst henters (hnul htakes.isPlain) (hnul htakes.isPlain') hnode hmove
  all_goals refine ⟨f, rfl, hf, hcode, ?_⟩; rw [hf]
  · exact .pathTooLong (.inl (hsrc ▸ hlong))
  · exact .pathTooLong (.inr (hdst ▸ hlong))
  · obtain rfl | ⟨-, htemporary, -⟩ := htakes.target
    · exact .nameTooLong rfl hlong
    · exact .temporaryTooLong htemporary rfl hlong
  · exact obstacle_of_occupied h hlinks hdots hfresh horder hconflicts htakes hdue hs hthere

end Moment

/-- Nothing but an obstacle keeps the moves of a plan without conflicts from succeeding, on a tree
of directories and regular files in which no temporary name has a token yet. No source is
missing. -/
theorem execute_failure {w : World} {plan : Plan} {failure : Failure}
    (ht : w.disk.tree.WellFormed) (hlinks : w.disk.tree.LinkFree)
    (hdots : ∀ text ∈ texts, ".." ∉ (Path.parse text).segments)
    (htoken : ∀ n, IsToken (w.token n))
    (hfresh : ∀ above name n,
      w.disk.tree.node? (above ++ [name ++ temporarySuffix ++ "-" ++ w.token n]) = none)
    (hplan : (preview w ignored (texts.map .ofText)).plan = .ok plan) (hnone : plan.conflicts = [])
    (hfailure : (execute (World.mover false) none plan.moves w).failure? = some failure) :
    ∃ f, failure = .moveFailed f ∧ f.exitCode ≠ some (Errno.noEntry.code : Int) ∧
      ∃ e legs, w.disk.Retains ignored e ∧ e.item ∈ plan.items ∧
        Legs (fun path => w.disk.hasEntry path.route) w.token e legs ∧ f.move ∈ legs ∧
        e.Obstacle w.disk ignored w.token f.move := by
  obtain ⟨kept, hkept, hplanned⟩ := isPlanOf_of_preview ht hplan
  have hnormal := isNormal_ofText texts
  have h := hasRoots_of_outermostRoots ht hnormal hkept
  obtain ⟨before, m, after, w', hmoves, hperformed, hfails⟩ := execute_of_some hfailure
  have hturns := hplanned.moves
  rw [hmoves] at hturns
  obtain ⟨front, e, back, x, y, isPaired, gone, horder, rfl, ⟨legs, hlegs, hm⟩, htakes, hdue, hs⟩ :=
    exists_moment h htoken hturns hperformed.disk.1
  obtain ⟨hretained, hchanges⟩ := mem_of_inOrder horder
  obtain ⟨hroot, hretains⟩ := retains_of_inOrder h horder
  have hitem : e.item ∈ plan.items := by
    rw [hplanned.items]
    exact List.mem_map_of_mem (List.mem_filter.mpr ⟨hretained, hchanges⟩)
  have hrootDots : ".." ∉ e.root.segments := by
    obtain ⟨⟨r, hr, hpath⟩, -⟩ := mem_of_outermostRoots ht hnormal hkept hroot
    obtain ⟨text, htext, rfl⟩ := List.mem_map.mp hr
    exact hpath ▸ hdots text htext
  have hroot : (e.leg x y isPaired).root = e.root := rfl
  rw [World.mover_false, hroot] at hfails
  have hmove : directMove (e.leg x y isPaired) e.root w'.disk =
      ((directMove (e.leg x y isPaired) e.root w'.disk).1, some failure) := by
    rw [← (Prod.mk.inj hfails).2]
  obtain ⟨f, rfl, hf, hcode, hobstacle⟩ := obstacle_of_directMove h hlinks hrootDots hfresh horder
    (hplanned.conflicts.symm.trans hnone) htakes hdue hs hmove
  exact ⟨f, rfl, hcode, e, legs, hretains, hitem, hlegs, hf ▸ hm, hobstacle⟩

theorem execute_failure_crowded :
    ∃ e legs, (World.ofTree .crowded).disk.Retains ["dist"] e ∧
      Legs (fun path => (World.ofTree .crowded).disk.hasEntry path.route) tokenText e legs ∧
      Move.crowded ∈ legs ∧
      e.Obstacle (World.ofTree .crowded).disk ["dist"] tokenText .crowded := by
  obtain ⟨plan, hplan, hnone, hfailure⟩ : ∃ plan,
      (preview (.ofTree .crowded) ["dist"] (["."].map .ofText)).plan = .ok plan ∧
        plan.conflicts = [] ∧
        (execute (World.mover false) none plan.moves (.ofTree .crowded)).failure? =
          some (directFailure .crowded "Destination already exists: dist" none) :=
    exists_ok_of_any (by decide)
  have hfresh : ∀ above name n, Tree.crowded.node?
      (above ++ [name ++ temporarySuffix ++ "-" ++ tokenText n]) = none := by
    intro above name n
    exact Tree.node?_eq_none_of_hyphen (by decide) (by decide) _ (by simp)
  obtain ⟨f, hf, -, e, legs, hretains, -, hlegs, hm, hobstacle⟩ :=
    execute_failure (w := .ofTree .crowded) (by decide)
      (linkFree_of_entries (by simp [World.ofTree, Tree.crowded])) (by decide)
      isToken_tokenText hfresh hplan hnone hfailure
  cases hf
  exact ⟨e, legs, hretains, hlegs, hm, hobstacle⟩

/-! ## A path that becomes too long -/

/-- The names of directories, one in the other, with a path of 3972 bytes. -/
def deepNames : List String := List.replicate 29 (String.ofList (List.replicate 34 '😀'))

def Path.deep : Path := ⟨.relative, deepNames⟩

/-- The name of a file, of 82 bytes. -/
def deepName : String := String.ofList ('a' :: 'B' :: List.replicate 40 'Ⱥ')

theorem toList_deepName : deepName.toList = 'a' :: 'B' :: List.replicate 40 'Ⱥ' :=
  String.toList_ofList

/-- The converted name, of 123 bytes: most of its letters are longer than the capitals. -/
def deepNewName : String := String.ofList ('a' :: '-' :: 'b' :: List.replicate 40 'ⱥ')

/-- The file in the innermost of the directories. -/
def Tree.deep : Tree :=
  ⟨(List.range 29).map (fun n => (deepNames.take (n + 1), .directory)) ++
    [(deepNames ++ [deepName], .file ⟨#[]⟩)]⟩

/-- The move that makes the path of the file too long. -/
def Move.deep : Move := ⟨deepName, deepNewName, .deep, false⟩

def Item.deep : Item := ⟨deepName, deepNewName, .file, true, .deep⟩

theorem length_deepNames : deepNames.length = 29 := List.length_replicate

theorem toList_deepNewName :
    deepNewName.toList = 'a' :: '-' :: 'b' :: List.replicate 40 'ⱥ' :=
  String.toList_ofList

/-- The first of the directories lead one to the next, up to the file. -/
theorem mem_entries_deep {place : Place} {node : Node} :
    (place, node) ∈ Tree.deep.entries ↔
      (∃ n < 29, place = deepNames.take (n + 1) ∧ node = .directory) ∨
        place = deepNames ++ [deepName] ∧ node = .file ⟨#[]⟩ := by
  simp [Tree.deep, eq_comm]

theorem utf8ByteSize_of_mem_deepNames {name : String} (h : name ∈ deepNames) :
    name.utf8ByteSize = 136 := by
  rw [List.eq_of_mem_replicate h]
  exact (String.utf8ByteSize_ofList _).trans (by decide)

theorem isEntryName_of_mem_deepNames {name : String} (h : name ∈ deepNames) :
    isEntryName name = true := by
  refine isEntryName_iff.mpr ⟨?_, by rw [utf8ByteSize_of_mem_deepNames h]; decide⟩
  rw [List.eq_of_mem_replicate h]
  refine isPlain_of_head? ?_ (by decide : '😀' ≠ '.') ?_ ?_ <;> rw [String.toList_ofList] <;> simp

theorem isEntryName_deepName : isEntryName deepName = true := by
  have hsize : deepName.utf8ByteSize = 82 := (String.utf8ByteSize_ofList _).trans (by decide)
  refine isEntryName_iff.mpr ⟨?_, by rw [hsize]; decide⟩
  refine isPlain_of_head? ?_ (by decide : 'a' ≠ '.') ?_ ?_ <;> rw [toList_deepName] <;> simp

theorem wellFormed_deep : Tree.deep.WellFormed := by
  have hlengths : (Tree.deep.entries.map fun e => e.1.length).Nodup := by decide
  have hnodup : (Tree.deep.entries.map (·.1)).Nodup := .of_map List.length (by rwa [List.map_map])
  have hne : ∀ n, deepNames.take (n + 1) ≠ [] := by
    intro n
    rw [ne_eq, List.take_eq_nil_iff, ← List.length_eq_zero_iff, length_deepNames]
    omega
  -- the directories above an entry are there
  have habove : ∀ n ≤ 29, Tree.deep.isDirectory (deepNames.take n) = true := by
    intro n hn
    cases n with
    | zero => exact isDirectory_nil _
    | succ n =>
      rw [isDirectory_iff, node?_of_ne_nil (hne n), lookup_eq_some_iff hnodup, mem_entries_deep]
      exact .inl ⟨n, by omega, rfl, rfl⟩
  refine ⟨hnodup, fun ⟨place, node⟩ he => ?_, fun ⟨place, node⟩ he => ?_,
    fun ⟨place, node⟩ he => ?_⟩ <;> rcases mem_entries_deep.mp he with ⟨n, hn, rfl, -⟩ | ⟨rfl, -⟩
  · exact hne n
  · simp
  · rw [List.take_succ_eq_append_getElem (by rwa [length_deepNames]), List.dropLast_concat]
    exact habove n hn.le
  · rw [List.dropLast_concat, ← List.take_of_length_le length_deepNames.le]
    exact habove 29 le_rfl
  · exact fun name hname => isEntryName_of_mem_deepNames (List.mem_of_mem_take hname)
  · intro name hname
    rcases List.mem_append.mp hname with hname | hname
    · exact isEntryName_of_mem_deepNames hname
    · rw [List.mem_singleton.mp hname]
      exact isEntryName_deepName

theorem size_deepNames : (deepNames.map fun n => n.utf8ByteSize + 1).sum = 3973 := by
  have hsize : (String.ofList (List.replicate 34 '😀')).utf8ByteSize = 136 :=
    utf8ByteSize_of_mem_deepNames (List.mem_replicate.mpr ⟨by decide, rfl⟩)
  rw [deepNames, List.map_replicate, List.sum_replicate_nat, hsize]

theorem directoryAt?_deep : (World.ofTree .deep).disk.directoryAt? .deep = some deepNames := by
  have hne : deepNames ≠ [] := List.ne_nil_of_length_pos (by rw [length_deepNames]; omega)
  have hdir : Tree.deep.isDirectory deepNames = true :=
    wellFormed_deep.isDirectory_of_concat
      (wellFormed_deep.node?_of_mem (mem_entries_deep.mpr (.inr ⟨rfl, rfl⟩)))
  refine Disk.directoryAt?_of_isDirectory wellFormed_deep rfl hne hdir ?_
  have hsize := Path.size_route (p := ⟨.relative, deepNames⟩) rfl hne
  rw [size_deepNames] at hsize
  unfold Route.isTooLong pathLimit
  rw [decide_eq_false_iff_not]
  omega

theorem isPlain_deepNames : ∀ n ∈ deepNames, IsPlain n :=
  fun _ hn => wellFormed_deep.isPlain
    (isDirectory_iff.mp (Disk.directoryAt?_eq_some_iff.mp directoryAt?_deep).2.2.2) hn

/-- Nothing else is in the directory of the file. -/
theorem eq_of_node?_deep {name : String} (h : Tree.deep.node? (deepNames ++ [name]) ≠ none) :
    name = deepName := by
  obtain ⟨node, hnode⟩ := Option.ne_none_iff_exists'.mp h
  have hmem := (wellFormed_deep.node?_eq_some_iff (by simp)).mp hnode
  rcases List.mem_append.mp hmem with hmem | hmem
  · obtain ⟨n, -, heq⟩ := List.mem_map.mp hmem
    have := congrArg (fun e => e.1.length) heq
    simp [length_deepNames] at this
    omega
  · exact (by simpa using hmem : name = deepName ∧ _).1

theorem ofText_deep : Root.ofText (pathText deepNames) = ⟨pathText deepNames, .deep⟩ := by
  rw [Root.ofText, parse_pathText isPlain_deepNames, Path.deep]

/-- Nothing but the file is below the innermost directory. -/
theorem below_deep : Tree.deep.below deepNames = [([deepName], .file ⟨#[]⟩)] := by
  rw [below_eq_filterMap, Tree.deep, List.filterMap_append, List.filterMap_eq_nil_iff.mpr]
  · simp [Place.isPrefixOf?_eq_some_iff.mpr rfl]
  · intro e he
    obtain ⟨n, -, rfl⟩ := List.mem_map.mp he
    refine Option.bind_eq_none_iff.mpr fun names hnames => ?_
    have hlength := congrArg List.length (Place.isPrefixOf?_eq_some_iff.mp hnames)
    rw [List.length_take, List.length_append, length_deepNames] at hlength
    exact if_pos (List.length_eq_zero_iff.mp (by omega))

theorem retained_deep : retained (World.ofTree .deep).disk [] [.deep] =
    [⟨.deep, deepNames, [], deepName, .file⟩] := by
  have hentries : Tree.deep.retainedBelow [] deepNames = [([deepName], .file ⟨#[]⟩)] := by
    have hvisible : isRetained [] [deepName] = true := by
      simp [isRetained, isSkipped, toList_deepName]
    rw [Tree.retainedBelow, below_deep, List.filter_cons, if_pos hvisible, List.filter_nil]
    rfl
  rw [retained_singleton directoryAt?_deep, World.ofTree, hentries]
  rfl

theorem ne_deepNewName : deepName ≠ deepNewName := fun heq => by
  simpa [toList_deepName, toList_deepNewName] using congrArg String.toList heq

theorem item_deep : (⟨.deep, deepNames, [], deepName, .file⟩ : Retained).item = .deep := by
  have hnew : EntryKind.file.convert deepName = deepNewName := by
    rw [← String.toList_inj, EntryKind.toList_convert, toList_deepName, toList_deepNewName]
    rfl
  have hchanges : (deepNewName != deepName) = true := bne_iff_ne.mpr ne_deepNewName.symm
  simp only [Retained.item, Retained.names, Retained.newName, Retained.newAbove, hnew, hchanges,
    List.map_nil, List.nil_append, pathText_singleton]
  rfl

/-- The names differ in more than the case of letters: one has a hyphen where the other has a
letter. -/
theorem differInCase_deep : differInCase deepName deepNewName = false := by
  have hletters :
      Text.lowerChar 'a' = 'a' ∧ Text.lowerChar 'B' = 'b' ∧ Text.lowerChar '-' = '-' := by
    decide
  have hname :
      ∀ xs, Text.lowerChars ('a' :: 'B' :: xs) = 'a' :: 'b' :: Text.lowerFrom ['B', 'a'] xs := by
    intro xs
    simp [Text.lowerChars, Text.lowerFrom, Text.lowerWithin, hletters]
  have hnewName : ∀ xs, Text.lowerChars ('a' :: '-' :: xs) =
      'a' :: '-' :: Text.lowerFrom ['-', 'a'] xs := by
    intro xs
    simp [Text.lowerChars, Text.lowerFrom, Text.lowerWithin, hletters]
  have hne : Text.lowercase deepName ≠ Text.lowercase deepNewName := by
    intro heq
    have hlists := congrArg String.toList heq
    rw [Text.lowercase, Text.lowercase, toList_deepName, toList_deepNewName, hname, hnewName,
      String.toList_ofList, String.toList_ofList] at hlists
    exact absurd (List.cons.inj (List.cons.inj hlists).2).1 (by decide)
  rw [differInCase, beq_false_of_ne hne, Bool.false_and]

theorem isPlain_deepName : IsPlain deepName :=
  wellFormed_deep.isPlain (wellFormed_deep.node?_of_mem (mem_entries_deep.mpr (.inr ⟨rfl, rfl⟩)))
    (List.mem_append_right _ (List.mem_singleton_self _))

theorem movesOf_deep (isTaken : Path → Bool) (token : Nat → String) (drawn : Nat) :
    movesOf isTaken token drawn .deep = ([.deep], drawn) := by
  have hcurrent : Item.deep.currentPath = deepName := by
    have hvisible : (⟨.deep, deepNames, [], deepName, .file⟩ : Retained).IsVisible := by
      refine ⟨fun n hn => ?_, fun n hn => ?_⟩ <;> rw [List.mem_singleton.mp hn]
      · exact isPlain_deepName
      · rw [toList_deepName]
        simp
    rw [← item_deep, hvisible.item_currentPath]
    exact pathText_singleton _
  have hrecased : ¬ Item.deep.isRecased = true := by
    rw [Item.isRecased, hcurrent, Bool.not_eq_true]
    exact differInCase_deep
  rw [movesOf, if_neg hrecased, hcurrent]
  rfl

theorem preview_deep :
    (preview (.ofTree .deep) [] ([pathText deepNames].map .ofText)).plan =
      .ok ⟨[.deep], [.deep], [], [], 1⟩ := by
  have hroots : outermostRoots (World.ofTree .deep).disk ([pathText deepNames].map .ofText) =
      .ok [.deep] := by
    rw [outermostRoots_of_areApart wellFormed_deep (isNormal_ofText _)]
    · simp [ofText_deep]
    · simpa [ofText_deep] using ⟨_, directoryAt?_deep⟩
    · simp [Disk.AreApart]
  obtain ⟨hscan, -⟩ | ⟨e, he, failure, hkind, -⟩ := scan_cases hroots []
  · have hitems : (retained (World.ofTree .deep).disk [] [.deep]).map (·.item) = [.deep] := by
      rw [retained_deep, List.map_singleton, item_deep]
    have hconflicts : conflictsOf [.deep] = [] :=
      conflictsOf_of_pairwise (List.pairwise_singleton _ _)
    have hchanges : [Item.deep].filter (·.changesName) = [.deep] := rfl
    rw [hitems] at hscan
    have hplan := preview_of_scan hscan (planMoves_of_filter hchanges (movesOf_deep _ _ _)) rfl
    rw [hplan.1, hchanges, hconflicts, List.length_singleton]
  · rw [retained_deep, List.mem_singleton] at he
    rw [he] at hkind
    cases hkind

theorem linkFree_deep : Tree.deep.LinkFree := by
  refine linkFree_of_entries fun e he => ?_
  rcases List.mem_append.mp he with he | he
  · obtain ⟨n, -, rfl⟩ := List.mem_map.mp he
    simp
  · simp [List.mem_singleton.mp he]

/-- No name in the tree has a hyphen. -/
theorem node?_deep_of_mem {place : Place} {name : String} (hname : name ∈ place)
    (hhyphen : '-' ∈ name.toList) : Tree.deep.node? place = none := by
  by_contra hthere
  obtain ⟨node, hnode⟩ := Option.ne_none_iff_exists'.mp hthere
  have hmem := (wellFormed_deep.node?_eq_some_iff (List.ne_nil_of_mem hname)).mp hnode
  have hnames : name ∈ deepNames ++ [deepName] := by
    rcases List.mem_append.mp hmem with hmem | hmem
    · obtain ⟨n, -, heq⟩ := List.mem_map.mp hmem
      rw [← (Prod.mk.inj heq).1] at hname
      exact List.mem_append_left _ (List.mem_of_mem_take hname)
    · rwa [← (Prod.mk.inj (List.mem_singleton.mp hmem)).1]
  rcases List.mem_append.mp hnames with hnames | hnames
  · rw [List.eq_of_mem_replicate hnames, String.toList_ofList] at hhyphen
    exact absurd (List.eq_of_mem_replicate hhyphen) (by decide)
  · rw [List.mem_singleton.mp hnames, toList_deepName] at hhyphen
    simp at hhyphen

/-- The path of the file becomes one byte too long. -/
theorem isTooLong_deep : (Path.deep.below [deepNewName]).route.isTooLong = true := by
  have hname : deepNewName.utf8ByteSize = 123 := (String.utf8ByteSize_ofList _).trans (by decide)
  have hsize := Path.size_route (p := Path.deep.below [deepNewName]) rfl
    (List.append_ne_nil_of_right_ne_nil _ (by simp))
  have hsum :
      ((Path.deep.below [deepNewName]).segments.map fun n => n.utf8ByteSize + 1).sum = 4097 := by
    rw [Path.below, Path.deep, List.map_append, List.sum_append, size_deepNames, List.map_singleton,
      hname]
    rfl
  rw [hsum] at hsize
  unfold Route.isTooLong pathLimit
  rw [decide_eq_true_eq]
  omega

/-- The move is refused. -/
theorem directMove_deep : ∃ f,
    directMove .deep Move.deep.root (World.ofTree .deep).disk =
        ((World.ofTree .deep).disk, some (.moveFailed f)) ∧
      f.move = .deep ∧ f.exitCode = some 36 := by
  have hnode : Tree.deep.node? (deepNames ++ [deepName]) = some (.file ⟨#[]⟩) :=
    wellFormed_deep.node?_of_mem (mem_entries_deep.mpr (.inr ⟨rfl, rfl⟩))
  have hy : IsPlain deepNewName := by
    refine isPlain_of_head? ?_ (by decide : 'a' ≠ '.') ?_ ?_ <;> rw [toList_deepNewName] <;> simp
  have hroot : Path.deep.IsNormal := fun s hs =>
    ⟨(isPlain_deepNames s hs).isName.isTaken, (isPlain_deepNames s hs).slash⟩
  have hnul : ∀ name, IsPlain name → (Path.deep.below ([] ++ [name])).route.hasNul = false :=
    fun name hname => Path.hasNul_below (Disk.directoryAt?_eq_some_iff.mp directoryAt?_deep).1
      (by simp) (by simpa using hname)
  have hsrc : Path.deep.joinText deepName = Path.deep.below ([] ++ [deepName]) :=
    Path.joinText_name _ isPlain_deepName
  have hdst : Path.deep.joinText deepNewName = Path.deep.below ([] ++ [deepNewName]) :=
    Path.joinText_name _ hy
  exact directMove_of_isTooLong wellFormed_deep isPlain_deepName.isName hy.isName
    ne_deepNewName hsrc hdst (Disk.enters_of_directoryAt? wellFormed_deep hroot directoryAt?_deep)
    (hnul _ isPlain_deepName)
    (hnul _ hy) hnode isTooLong_deep

theorem execute_deep :
    Tree.deep.LinkFree ∧ ".." ∉ (Path.parse (pathText deepNames)).segments ∧
      (∀ above name n,
        Tree.deep.node? (above ++ [name ++ temporarySuffix ++ "-" ++ tokenText n]) = none) ∧
      ∃ plan, (preview (.ofTree .deep) [] ([pathText deepNames].map .ofText)).plan = .ok plan ∧
        plan.conflicts = [] ∧ plan.items = [.deep] ∧
        ∃ f, (execute (World.mover false) none plan.moves (.ofTree .deep)).failure? =
            some (.moveFailed f) ∧ f.move = .deep ∧ f.exitCode = some 36 ∧
          (∀ name, Tree.deep.node? (deepNames ++ [name]) ≠ none → name = deepName) ∧
          (deepNewName ++ temporarySuffix).utf8ByteSize ≤ nameLimit := by
  refine ⟨linkFree_deep, fun hdots => ?_, fun above name n => ?_, _, preview_deep, rfl, rfl, ?_⟩
  · have hpath : Path.parse (pathText deepNames) = .deep := congrArg (·.path) ofText_deep
    have hmem : ".." ∈ deepNames := by rwa [hpath] at hdots
    exact (isPlain_deepNames _ hmem).ne_dots rfl
  · exact node?_deep_of_mem (List.mem_append_right _ List.mem_cons_self) (by simp)
  · obtain ⟨f, hmove, hf, hcode⟩ := directMove_deep
    have hmover : World.mover false .deep Move.deep.root (.ofTree .deep) =
        (.ofTree .deep, some (.moveFailed f)) := by
      rw [World.mover_false, hmove]
    exact ⟨f, execute_cons_of_some hmover, hf, hcode, fun name => eq_of_node?_deep,
      by decide +kernel⟩

end Recase
