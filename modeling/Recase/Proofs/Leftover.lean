import Recase.Proofs.Interrupted
import Recase.Proofs.Kept
import Recase.Proofs.Occupied

/-!
# What a failing move reports as left behind

* `IsHonest`: a mover that makes a move or fails without effect, plainly or by a tool
  (`IsHonestTool`).
* `IsRouteTo`: the routes by which an honest mover reaches an entry. `IsHonest.rename_of_none` and
  `IsHonest.of_some`: what it has done. `IsHonest.wellFormed`: trees stay well formed under its
  moves.
* `Disk.Waits`: an entry has been moved to another name in its directory.
* `leftover_of_execute`: what is reported for each move of a plan that can fail. The second of two
  moves leaves its temporary path behind, which is reported unless there is a line feed in the new
  name; a first move leaves nothing, but its source is reported if it is named like a temporary
  entry.
-/

namespace Recase

open Name Recase.Tree

variable {σ : Type} {disk : σ → Disk} {mover : Mover σ} {s s' : σ} {d d' : Disk} {root : Path}
  {front names names' : List String} {x y : String} {m : Move} {moves : List Move}
    {failure : Failure}
  {parent : Place} {route src dst : Route}

/-! ## Honest movers -/

/-- A tool that has renamed what it says it has moved, and leaves the disk as it was otherwise. -/
def IsHonestTool (disk : σ → Disk) (tool : MoveCall → σ → MoveReply × σ) : Prop :=
  ∀ call s,
    (∃ stderr stdout, (tool call s).1 = .ended 0 stderr stdout ∧
      (disk s).rename (.ofText (PathText.joinText call.directory call.source))
        (.ofText (PathText.joinText call.directory call.target)) = .ok (disk (tool call s).2)) ∨
      (∀ stderr stdout, (tool call s).1 ≠ .ended 0 stderr stdout) ∧ disk (tool call s).2 = disk s

/-- A mover that makes a move or fails without effect: by the disk's own renaming, or by an honest
tool. -/
inductive IsHonest (disk : σ → Disk) : Mover σ → Prop
  | plain {mover : Mover σ} (h : ∀ m directory s, directMove m directory (disk s) =
      (disk (mover m directory s).1, (mover m directory s).2)) : IsHonest disk mover
  | versioned {tool : MoveCall → σ → MoveReply × σ} (h : IsHonestTool disk tool) :
    IsHonest disk (versionedMove tool)

theorem isHonest_directMove : IsHonest World.disk (World.mover false) :=
  .plain fun m directory w => by rw [World.mover_false]

theorem isHonestTool_toolMove : IsHonestTool id fun call d => d.toolMove call := by
  intro call d
  unfold Disk.toolMove
  dsimp only [id]
  split
  · exact .inr ⟨fun _ _ => nofun, rfl⟩
  split
  · exact .inr ⟨fun _ _ => nofun, rfl⟩
  split
  · rename_i hrename
    exact .inl ⟨"", "", rfl, hrename⟩
  · exact .inr ⟨fun _ _ => nofun, rfl⟩
  · exact .inr ⟨fun _ _ => nofun, rfl⟩

/-- The routes to what names lead to below a root. -/
inductive IsRouteTo (root : Path) (names : List String) : Route → Prop
  | below : IsRouteTo root names (root.below names).route
  | walked : IsRouteTo root names (root.walkedRoute names)

theorem IsRouteTo.lastName? (h : IsRouteTo root (front ++ [x]) route)
    (hx : ∀ n ∈ front ++ [x], IsPlain n) :
    route.lastName? = some x := by
  cases h with
  | below => exact Disk.lastName?_below (hx x (by simp)).isName
  | walked => exact Path.lastName?_walkedRoute hx

theorem IsRouteTo.enters (h : IsRouteTo root (front ++ [x]) route) (ht : d.tree.WellFormed)
    (hroot : root.IsNormal) (hx : ∀ n ∈ front ++ [x], IsPlain n)
    (hparent : d.tree.parentOf d.here route = .ok parent) : d.Enters root front parent := by
  cases h with
  | below => exact ((Disk.parentOf_eq_ok_iff ht).mp hparent).2
  | walked => exact (Disk.enters_of_parentOf_walked ht hroot hx hparent).2

/-- A renaming that gives an entry a name of a plan keeps the tree well formed. -/
theorem IsRouteTo.wellFormed (h : IsRouteTo root (front ++ [y]) dst)
    (hy : ∀ n ∈ front ++ [y], IsPlain n) (ht : d.tree.WellFormed)
    (hrename : d.rename src dst = .ok d') : d'.tree.WellFormed := by
  refine Disk.wellFormed_rename ht hrename fun name hname => ?_
  obtain rfl := Option.some.inj ((h.lastName? hy).symm.trans hname)
  exact hy _ (by simp)

namespace IsHonest

variable (h : IsHonest disk mover)
include h

/-- A move that succeeds is a renaming. -/
theorem rename_of_none {isPaired : Bool} (hnames : ∀ n ∈ names, IsPlain n)
    (hnames' : ∀ n ∈ names', IsPlain n) (hne : names ≠ []) (hne' : names' ≠ [])
    (hmove : mover ⟨pathText names, pathText names', root, isPaired⟩ root s = (s', none)) :
    ∃ src dst, IsRouteTo root names src ∧ IsRouteTo root names' dst ∧
      (disk s).rename src dst = .ok (disk s') := by
  cases h with
  | plain hplain =>
    have hdirect := hplain ⟨pathText names, pathText names', root, isPaired⟩ root s
    rw [hmove] at hdirect
    have hrename := (rename_of_directMove hdirect).2
    rw [Path.joinText_pathText root hnames, Path.joinText_pathText root hnames'] at hrename
    exact ⟨_, _, .below, .below, hrename⟩
  | @versioned tool htool =>
    obtain ⟨hstate, hnone⟩ := Prod.mk.inj hmove
    obtain ⟨_, _, -, hrename⟩ | ⟨hfailed, -⟩ :=
      htool ⟨pathText names, pathText names', root.toString⟩ s
    · rw [hstate, ← Path.walkedRoute_eq hne, ← Path.walkedRoute_eq hne'] at hrename
      exact ⟨_, _, .walked, .walked, hrename⟩
    · exfalso
      unfold MoveReply.failure? at hnone
      split at hnone
      · rename_i hended
        exact hfailed _ _ hended
      · cases hnone
      · cases hnone
      · cases hnone

/-- A move that fails leaves the disk, and the failure is its own. -/
theorem of_some {directory : Path} (hmove : mover m directory s = (s', some failure)) :
    disk s' = disk s ∧ ∀ f, failure = .moveFailed f → f.move = m := by
  cases h with
  | plain hplain =>
    have hdirect := hplain m directory s
    rw [hmove] at hdirect
    refine ⟨directMove_eq_of_some hdirect, ?_⟩
    rintro f rfl
    obtain ⟨_, hblocked, hsome⟩ | ⟨-, hsome⟩ | ⟨-, ⟨-, hsome⟩ | ⟨-, hsome⟩ | ⟨_, _, -, hsome⟩⟩ :=
      directMove_cases hdirect
    · cases (Option.some.inj hsome).trans (failure_of_isBlocked hblocked)
    all_goals cases hsome
    all_goals rfl
  | @versioned tool htool =>
    obtain ⟨hstate, hsome⟩ := Prod.mk.inj hmove
    obtain ⟨_, _, hended, -⟩ | ⟨-, hsame⟩ := htool ⟨m.source, m.target, directory.toString⟩ s
    · rw [hended] at hsome
      cases hsome
    · refine ⟨hstate ▸ hsame, ?_⟩
      rintro f rfl
      unfold MoveReply.failure? at hsome
      split at hsome <;> cases hsome <;> rfl

end IsHonest

/-! ## What moves leave -/

/-- What is renamed to another name in its directory is there. -/
theorem Disk.exists_renamed (ht : d.tree.WellFormed) (hroot : root.IsNormal)
    (hx : ∀ n ∈ front ++ [x], IsPlain n) (hy : ∀ n ∈ front ++ [y], IsPlain n)
    (hxy : x ≠ y) (hsrc : IsRouteTo root (front ++ [x]) src)
    (hdst : IsRouteTo root (front ++ [y]) dst) (h : d.rename src dst = .ok d') :
    ∃ parent node, d.Enters root front parent ∧ d.tree.node? (parent ++ [x]) = some node ∧
      d'.tree.node? (parent ++ [y]) = some node := by
  obtain ⟨-, -, places, hplaces, rfl⟩ := renamePlaces_of_rename h
  obtain ⟨parent, parent', x', y', node, hparent, hparent', hlast, hlast', hnode,
      -, hbelow, hbelow', hcases⟩ :=
    exists_of_renamePlaces hplaces
  obtain rfl := Option.some.inj ((hsrc.lastName? hx).symm.trans hlast)
  obtain rfl := Option.some.inj ((hdst.lastName? hy).symm.trans hlast')
  have henters := hsrc.enters ht hroot hx hparent
  obtain rfl := henters.unique (hdst.enters ht hroot hy hparent')
  obtain ⟨hsame, -⟩ | ⟨hne, hreplacing, rfl⟩ := hcases
  · exact absurd (by simpa using hsame) hxy
  have hcarries := ht.carries_move (fun hpre => (List.prefix_concat_iff.mp hpre).elim hne hbelow)
    (fun hpre => (List.prefix_concat_iff.mp hpre).elim (fun heq => hne heq.symm) hbelow')
    fun _ => ht.bare_of_replacing hreplacing
  exact ⟨parent, node, henters, hnode,
    by simpa [Disk.commit, Tree.apply, hnode] using hcarries.carried []⟩

/-- Trees stay well formed while an honest mover makes moves within directories. -/
theorem IsHonest.wellFormed {kept : List Path} (h : IsHonest disk mover)
    (hmoves : ∀ m ∈ moves, m.IsWithin kept) (hperformed : Performed mover moves s s')
    (ht : (disk s).tree.WellFormed) : (disk s').tree.WellFormed := by
  induction hperformed with
  | nil => exact ht
  | cons hmove _ ih =>
    rw [List.forall_mem_cons] at hmoves
    refine ih hmoves.2 ?_
    obtain ⟨-, hx, hy, -⟩ := hmoves.1
    obtain ⟨src, dst, -, hdst, hrename⟩ := h.rename_of_none hx hy (by simp) (by simp) hmove
    exact hdst.wellFormed hy ht hrename

/-- An entry waits under another name in its directory: what had the name `x` on one disk has the
name `y` on another. -/
def Disk.Waits (d : Disk) (root : Path) (front : List String) (x y : String) (d' : Disk) : Prop :=
  ∃ parent node, d.Enters root front parent ∧ d.tree.node? (parent ++ [x]) = some node ∧
    d'.tree.node? (parent ++ [y]) = some node

/-! ## What is reported -/

/-- The source of a paired move is reported if it is named like a temporary entry. -/
theorem leftover?_of_leg {f : MoveFailure} {e : Retained} (hmove : f.move = e.leg x y true)
    (hslash : '/' ∉ x.toList) :
    f.leftover? = if isTemporary x then some f.move.source else none := by
  have hlast : PathText.lastName (e.leg x y true).source = x := lastName_pathText hslash
  rw [MoveFailure.leftover?, Move.leavesTemporary, hmove, hlast]
  rfl

/-- The first of the two moves of an entry takes it to its temporary name. -/
theorem IsHonest.waits {isTaken : Path → Bool} {token : Nat → String} {e : Retained}
    {isPaired : Bool} (h : IsHonest disk mover) (ht : (disk s).tree.WellFormed)
    (hroot : e.root.IsNormal) (hvisible : e.IsVisible)
    (htakes : e.Takes isTaken token x y)
    (hmove : mover (e.leg x y isPaired) e.root s = (s', none)) :
    (disk s).Waits e.root e.newAbove x y (disk s') := by
  have hx := hvisible.isPlain_newNames htakes.isPlain
  have hy := hvisible.isPlain_newNames htakes.isPlain'
  obtain ⟨src, dst, hsrc, hdst, hrename⟩ := h.rename_of_none hx hy (by simp) (by simp) hmove
  exact Disk.exists_renamed ht hroot hx hy htakes.ne hsrc hdst hrename

section Plan

variable {w : World} {ignored texts : List String} {plan : Plan} {f : MoveFailure}

/-- A move of a plan that fails is the only one of an item, the first of two, or the second of two
after the first has been made. -/
theorem leftover_of_execute (ht : w.disk.tree.WellFormed) (htoken : ∀ n, IsToken (w.token n))
    (hplan : (preview w ignored (texts.map .ofText)).plan = .ok plan) (hmover : IsHonest disk mover)
    (hs : (disk s).tree.WellFormed)
    (hfails : (execute mover none plan.moves s).failure? = some (.moveFailed f)) :
    ∃ before after, plan.moves = before ++ f.move :: after ∧ ∃ e : Retained, e.item ∈ plan.items ∧
      (f.move = e.leg e.name e.newName false ∧ f.leftover? = none ∨
        ∃ temporary, IsTemporaryOf w.token e.newName temporary ∧
          (f.move = e.leg e.name temporary true ∧
              f.leftover? = (if isTemporary e.name then some f.move.source else none) ∨
            ∃ done middle, before = done ++ [e.leg e.name temporary true] ∧
              f.move = e.leg temporary e.newName true ∧
              f.leftover? = (if '\n' ∈ e.newName.toList then none else some f.move.source) ∧
              Performed mover done s middle ∧ (disk middle).Waits e.root e.newAbove e.name temporary
                (disk (execute mover none plan.moves s).state))) := by
  obtain ⟨kept, hkept, hplanned⟩ := isPlanOf_of_preview ht hplan
  obtain ⟨before, m, after, s', hmoves, hperformed, hfailed⟩ := execute_of_some hfails
  obtain ⟨hsame, hmove⟩ := hmover.of_some hfailed
  obtain rfl := hmove f rfl
  refine ⟨before, after, hmoves, ?_⟩
  have hwithin := hplanned.isWithin ht htoken
  have hturns := hplanned.moves
  rw [hmoves] at hturns hwithin
  obtain ⟨front, e, back, done, first, second, horder, -, hlegs, rfl⟩ := hturns.split
  obtain ⟨he, hchanges⟩ := Retained.mem_inOrder_iff.mp
    (horder ▸ (by simp : e ∈ front ++ e :: back))
  obtain ⟨hroot, hretains⟩ := (mem_retained_iff ht).mp he
  have hvisible := hretains.isVisible ht
  have hnormal := isNormal_of_mem_outermostRoots ht (isNormal_ofText texts) hkept hroot
  refine ⟨e, hplanned.items ▸ List.mem_map_of_mem (List.mem_filter.mpr ⟨he, hchanges⟩), ?_⟩
  generalize hall : first ++ f.move :: second = legs at hlegs
  cases hlegs with
  | single =>
    obtain ⟨-, hsingle, -⟩ : first = [] ∧ f.move = e.leg e.name e.newName false ∧ second = [] := by
      simpa [List.append_eq_singleton_iff] using hall
    refine .inl ⟨hsingle, ?_⟩
    rw [MoveFailure.leftover?, Move.leavesTemporary, hsingle]
    rfl
  | @paired temporary htemporary hfree =>
    have htakes : e.Takes (fun path => w.disk.hasEntry path.route) w.token e.name temporary :=
      (Retained.takes_of_temporary htemporary (by exact hfree) htoken hvisible).1
    refine .inr ⟨temporary, htemporary, ?_⟩
    rcases first with _ | ⟨_, first⟩
    · rw [List.nil_append, List.cons.injEq] at hall
      exact .inl ⟨hall.1, leftover?_of_leg hall.1 hvisible.isPlain_name.slash⟩
    rw [List.cons_append, List.cons.injEq] at hall
    obtain ⟨rfl, hall⟩ := hall
    obtain ⟨rfl, hsecond, -⟩ :
        first = [] ∧ f.move = e.leg temporary e.newName true ∧ second = [] := by
      simpa [List.append_eq_singleton_iff] using hall
    -- the first of the two moves has been made, and the second has changed nothing
    obtain ⟨middle, hdone, hmade⟩ := performed_append_iff.mp hperformed
    refine .inr ⟨done, middle, rfl, hsecond, ?_, hdone, ?_⟩
    · rw [leftover?_of_leg hsecond htakes.isPlain'.slash,
        htemporary.isTemporary_eq htoken hvisible.isPlain_newName.ne_empty]
      simp
    · cases hmade with
      | cons hfirst hnil =>
        cases hnil
        have hmiddle := hmover.wellFormed (fun m hm => hwithin m (by simp [hm])) hdone hs
        rw [hsame]
        exact hmover.waits hmiddle hnormal hvisible htakes hfirst

end Plan

/-- The second of the two moves of a directory fails, which waits at its temporary path. -/
theorem leftover_of_execute_crowded :
    ∃ plan f, (preview (.ofTree .crowded) ["dist"] (["."].map .ofText)).plan = .ok plan ∧
      (execute (World.mover false) none plan.moves (.ofTree .crowded)).failure? =
        some (.moveFailed f) ∧
      f.leftover? = some "dist.temp-rename" ∧
      ∃ (e : Retained) (middle : World) (temporary : String),
        f.move = e.leg temporary e.newName true ∧
        middle.disk.Waits e.root e.newAbove e.name temporary
          (execute (World.mover false) none plan.moves (.ofTree .crowded)).state.disk := by
  obtain ⟨plan, hplan, hfailure⟩ : ∃ plan,
      (preview (.ofTree .crowded) ["dist"] (["."].map .ofText)).plan = .ok plan ∧
        (execute (World.mover false) none plan.moves (.ofTree .crowded)).failure? =
          some (directFailure .crowded "Destination already exists: dist" none) :=
    exists_ok_of_any (by decide)
  obtain ⟨before, after, -, e, -, ⟨hsingle, -⟩ | ⟨temporary, htemporary, hpair⟩⟩ :=
    leftover_of_execute (w := .ofTree .crowded)
      (by decide) isToken_tokenText hplan isHonest_directMove (by decide) hfailure
  · cases congrArg Move.isPaired hsingle
  refine ⟨plan, _, hplan, hfailure, by decide, e, ?_⟩
  obtain ⟨hfirst, -⟩ | ⟨done, middle, -, hsecond, -, -, hwaits⟩ := hpair
  · -- a first move would have a temporary target
    have htarget : "dist" = pathText (e.newAbove ++ [temporary]) := congrArg Move.target hfirst
    obtain ⟨rest, hrest⟩ : ∃ rest, temporary = e.newName ++ temporarySuffix ++ rest := by
      cases htemporary with
      | untokened => exact ⟨"", by simp⟩
      | tokened n =>
        exact ⟨"-" ++ (World.ofTree .crowded).token n, by simp only [String.append_assoc]⟩
    rw [hrest, String.append_assoc, ← pathText_concat_append] at htarget
    have hlen := congrArg (·.toList.length) htarget
    simp [temporarySuffix] at hlen
    omega
  · exact ⟨middle, temporary, hsecond, hwaits⟩

/-- A file that is named like a temporary entry, and a directory whose converted name is that of a
temporary entry of the file. -/
def Tree.disguised : Tree :=
  ⟨[(["foo.temp-rename.tempRename"], .directory), (["Foo.temp-rename"], .file ⟨#[]⟩)]⟩

/-- The first of the two moves of the file. -/
def Move.disguised : Move :=
  ⟨"Foo.temp-rename", "foo.temp-rename.temp-rename", ⟨.relative, []⟩, true⟩

/-- The plan has no conflict. The first move of the file fails, and the path of the file is
reported, though it does not wait for a second move. -/
theorem execute_disguised :
    ∃ plan f, (preview (.ofTree .disguised) ["dist"] (["."].map .ofText)).plan = .ok plan ∧
      plan.conflicts = [] ∧ plan.moves =
        [⟨"foo.temp-rename.tempRename", "foo.temp-rename.temp-rename", ⟨.relative, []⟩, false⟩,
          .disguised, ⟨"foo.temp-rename.temp-rename", "foo.temp-rename", ⟨.relative, []⟩, true⟩] ∧
      (execute (World.mover false) none plan.moves (.ofTree .disguised)).failure? =
        some (.moveFailed f) ∧
      f.move = .disguised ∧ f.leftover? = some "Foo.temp-rename" := by
  obtain ⟨plan, hplan, hnone, hmoves, hfailure⟩ : ∃ plan,
      (preview (.ofTree .disguised) ["dist"] (["."].map .ofText)).plan = .ok plan ∧
        plan.conflicts = [] ∧ plan.moves =
          [⟨"foo.temp-rename.tempRename", "foo.temp-rename.temp-rename", ⟨.relative, []⟩, false⟩,
            .disguised, ⟨"foo.temp-rename.temp-rename", "foo.temp-rename", ⟨.relative, []⟩, true⟩] ∧
        (execute (World.mover false) none plan.moves (.ofTree .disguised)).failure? =
          some (directFailure .disguised
              "Destination already exists: foo.temp-rename.temp-rename" none) :=
    exists_ok_of_any (by decide +kernel)
  exact ⟨plan, _, hplan, hnone, hmoves, hfailure, rfl, by decide⟩

end Recase
