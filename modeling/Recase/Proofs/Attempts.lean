import Recase.Proofs.Execute
import Recase.Proofs.Frame

/-!
# Moves attempted up to the first that fails

Any moves one after the other: their sources may be missing and their targets taken, and earlier
moves may have changed what they name.

* `Failure.IsOf`: the failure of a move. A mover whose failures are of the move that it makes:
  `failure_of_directMove`, `MoveReply.isOf_of_failure?`.
* `Move.callIn`, `recorded`: the call of a tool for a move, and a tool that keeps a record of the
  calls. `Performed.calls_eq`: the calls for moves that are performed.
* `Disk.MovesBy`, `Disk.MovesAll`: what moves have done that have succeeded one after the other in a
  tree without links. `Performed.movesAll`: so plain moves do.
* `execute_failFast`: an execution announces and attempts moves one after the other up to the first
  that fails. A plain move that fails has changed nothing, and a tool is called for the moves that
  are attempted.
-/

namespace Recase

open Name Recase.Tree

variable {σ : Type} {tool : MoveCall → σ → MoveReply × σ} {directory? : Option Path}
  {directory : Path} {m : Move} {moves : List Move} {failure : Failure} {d d' : Disk}

/-- The failure is that of the move, or the move cannot be asked for at all. -/
def Failure.IsOf (failure : Failure) (m : Move) : Prop :=
  (∃ f, failure = .moveFailed f ∧ f.move = m) ∨ failure = .embeddedNul

theorem failure_of_directMove (h : directMove m directory d = (d', some failure)) :
    failure.IsOf m := by
  obtain ⟨other, hblocked, hsome⟩ | ⟨-, hsome⟩ |
      ⟨-, ⟨-, hsome⟩ | ⟨-, hsome⟩ | ⟨errno, text, -, hsome⟩⟩ :=
    directMove_cases h
  · -- what is in the way cannot be looked up
    obtain rfl := Option.some.inj hsome
    unfold isBlocked at hblocked
    split at hblocked
    · cases hblocked
    · split at hblocked <;> cases hblocked
      exact .inr rfl
  · exact .inl ⟨_, Option.some.inj hsome, rfl⟩
  · cases hsome
  · exact .inr (Option.some.inj hsome)
  · exact .inl ⟨_, Option.some.inj hsome, rfl⟩

theorem MoveReply.isOf_of_failure? {reply : MoveReply} (h : reply.failure? m = some failure) :
    failure.IsOf m := by
  unfold failure? at h
  split at h
  · cases h
  · exact .inl ⟨_, (Option.some.inj h).symm, rfl⟩
  · exact .inl ⟨_, (Option.some.inj h).symm, rfl⟩
  · exact .inr (Option.some.inj h).symm

/-! ## Calls of a tool -/

/-- The call of a tool for a move in the directory, if one is given, and in the root of the move
otherwise. -/
def Move.callIn (directory? : Option Path) (m : Move) : MoveCall :=
  ⟨m.source, m.target, (directory?.getD m.root).toString⟩

/-- The tool with a record of the calls made of it, oldest first. -/
def recorded (tool : MoveCall → σ → MoveReply × σ) (call : MoveCall) :
    σ × List MoveCall → MoveReply × σ × List MoveCall
  | (s, calls) => ((tool call s).1, (tool call s).2, calls ++ [call])

theorem calls_of_versionedMove {s s' : σ × List MoveCall} {failure? : Option Failure}
    (h : versionedMove (recorded tool) m (directory?.getD m.root) s = (s', failure?)) :
    s'.2 = s.2 ++ [m.callIn directory?] := by
  cases h
  rfl

theorem Performed.calls_eq {s s' : σ × List MoveCall}
    (h : Performed (Mover.within (versionedMove (recorded tool)) directory?) moves s s') :
    s'.2 = s.2 ++ moves.map (·.callIn directory?) := by
  induction h with
  | nil s => simp
  | cons hmove _ ih =>
    rw [ih, calls_of_versionedMove hmove, List.map_cons, List.append_assoc, List.singleton_append]

/-! ## Plain moves in a tree without links -/

/-- The move has carried an entry from the end of its source to the end of its target, where there
was nothing; or both are one place, and nothing has changed. -/
def Disk.MovesBy (d : Disk) (m : Move) (directory : Path) (d' : Disk) : Prop :=
  ∃ src dst, d.EndsAt (directory.joinText m.source) src ∧
    d.EndsAt (directory.joinText m.target) dst ∧ d.tree.node? src ≠ none ∧
      (src = dst ∧ d' = d ∨ d.tree.node? dst = none ∧ d' = d.commit (.moved src dst))

/-- The moves have done so one after the other. -/
inductive Disk.MovesAll (directory? : Option Path) : List Move → Disk → Disk → Prop
  | nil (d : Disk) : MovesAll directory? [] d d
  | cons {m : Move} {rest : List Move} {d d' d'' : Disk}
      (hmove : d.MovesBy m (directory?.getD m.root) d') (hrest : MovesAll directory? rest d' d'') :
      MovesAll directory? (m :: rest) d d''

theorem Path.isPlain_of_lastName? {path : Path} {name : String} (h : path.IsNormal)
    (hnul : path.route.hasNul = false) (hname : path.route.lastName? = some name) :
    IsPlain name := by
  obtain ⟨hlast, heq⟩ := Path.eq_below_of_lastName? h hname
  have hmem : name ∈ path.segments := by
    rw [heq]
    simp [Path.below]
  have hnames : path.route.names = path.segments := if_neg (by simp [List.ne_nil_of_mem hmem])
  rw [Route.hasNul, hnames, List.any_eq_false] at hnul
  exact ⟨hlast.1, hlast.2, hlast.3, (h name hmem).2, by simpa using hnul name hmem⟩

/-- A plain move that succeeds in a tree without links leaves one. -/
theorem movesBy_of_directMove (ht : d.tree.WellFormed) (hlinks : d.tree.LinkFree)
    (hdirectory : directory.IsNormal) (h : directMove m directory d = (d', none)) :
    d.MovesBy m directory d' ∧ d'.tree.WellFormed ∧ d'.tree.LinkFree := by
  obtain ⟨hblocked, hrename⟩ := rename_of_directMove h
  have hsource := joinText_isNormal hdirectory m.source
  have htarget := joinText_isNormal hdirectory m.target
  obtain ⟨-, hnul, -⟩ := Disk.renamePlaces_of_rename hrename
  have ht' := Disk.wellFormed_rename ht hrename fun name => Path.isPlain_of_lastName? htarget hnul
  obtain ⟨src, dst, node, hsrc, hdst, hnode, ⟨hsame, rfl⟩ | ⟨hbelow, -, -, rfl⟩⟩ :=
    Disk.exists_of_rename_eq_ok ht hsource htarget hrename
  · exact ⟨⟨src, dst, hsrc, hdst, by simp [hnode], .inl ⟨hsame, rfl⟩⟩, ht', hlinks⟩
  · refine ⟨⟨src, dst, hsrc, hdst, by simp [hnode], .inr ⟨?_, rfl⟩⟩, ht', hlinks.move ht⟩
    -- what is there could only be what is moved, seen through a link
    by_contra hthere
    obtain ⟨other, hother⟩ := Option.ne_none_iff_exists'.mp hthere
    have hsame :=
      (isBlocked_eq_ok_false hblocked).resolve_left (by simp [hdst.hasEntry_eq.mpr hthere])
    have hne : src ≠ dst := fun he => hbelow (he ▸ List.prefix_rfl)
    obtain ⟨target, rfl⟩ | ⟨target, rfl⟩ :=
      exists_link_of_isSameEntry ht hsrc hdst hne hnode hother hsame
    · exact hlinks src target hnode
    · exact hlinks dst target hother

theorem Performed.movesAll (h : Performed (Mover.within directMove directory?) moves d d')
    (ht : d.tree.WellFormed) (hlinks : d.tree.LinkFree)
    (hdirectories : ∀ m ∈ moves, (directory?.getD m.root).IsNormal) :
    Disk.MovesAll directory? moves d d' := by
  induction h with
  | nil d => exact .nil d
  | cons hmove _ ih =>
    obtain ⟨hdirectory, hrest⟩ := List.forall_mem_cons.mp hdirectories
    obtain ⟨hmoves, ht', hlinks'⟩ := movesBy_of_directMove ht hlinks hdirectory hmove
    exact .cons hmoves (ih ht' hlinks' hrest)

/-! ## Executions -/

/-- An execution announces moves by their numbers and attempts them one after the other, all of them
or those up to the first that fails, and the failure is of that move. Where moves are plain, the
failed one has changed nothing, and in a tree without links those before it have carried entries to
free places. Where moves are asked of a tool, the calls are those for the moves that are attempted,
each in its directory. -/
theorem execute_failFast (tool : MoveCall → σ → MoveReply × σ) (directory? : Option Path)
    (moves : List Move) (d : Disk) (s : σ) :
    let plain := execute directMove directory? moves d
    let asked := execute (versionedMove (recorded tool)) directory? moves (s, [])
    let isStraight :=
      d.tree.WellFormed ∧ d.tree.LinkFree ∧ ∀ m ∈ moves, (directory?.getD m.root).IsNormal
    (plain.failure? = none → plain.announced = announcements moves.length 0 moves ∧
        Performed (Mover.within directMove directory?) moves d plain.state ∧
        (isStraight → Disk.MovesAll directory? moves d plain.state)) ∧
      (∀ failure, plain.failure? = some failure → ∃ before m after, moves = before ++ m :: after ∧
        plain.announced = announcements moves.length 0 (before ++ [m]) ∧
        Performed (Mover.within directMove directory?) before d plain.state ∧
        (isStraight → Disk.MovesAll directory? before d plain.state) ∧
        directMove m (directory?.getD m.root) plain.state = (plain.state, some failure) ∧
        failure.IsOf m) ∧
      (asked.failure? = none → asked.announced = announcements moves.length 0 moves ∧
        Performed (Mover.within (versionedMove (recorded tool)) directory?) moves
          (s, []) asked.state ∧
        asked.state.2 = moves.map (·.callIn directory?)) ∧
      ∀ failure, asked.failure? = some failure → ∃ before m after reached,
        moves = before ++ m :: after ∧
        asked.announced = announcements moves.length 0 (before ++ [m]) ∧
        Performed (Mover.within (versionedMove (recorded tool)) directory?) before (s, []) reached ∧
        versionedMove (recorded tool) m (directory?.getD m.root) reached =
          (asked.state, some failure) ∧
        asked.state.2 = (before ++ [m]).map (·.callIn directory?) ∧ failure.IsOf m := by
  intro plain asked isStraight
  refine ⟨fun hnone => ?_, fun failure hfails => ?_, fun hnone => ?_, fun failure hfails => ?_⟩
  · obtain ⟨hannounced, hperformed⟩ := execute_performs hnone
    exact ⟨hannounced, hperformed,
      fun ⟨ht, hlinks, hnormal⟩ => hperformed.movesAll ht hlinks hnormal⟩
  · obtain ⟨before, m, after, reached, hsplit, hannounced, hperformed, hmove⟩ :=
      execute_stops hfails
    obtain rfl : plain.state = reached := directMove_eq_of_some hmove
    refine ⟨before, m, after, hsplit, hannounced, hperformed,
      fun ⟨ht, hlinks, hnormal⟩ => ?_, hmove, failure_of_directMove hmove⟩
    exact hperformed.movesAll ht hlinks fun m' hm' => hnormal m' (by simp [hsplit, hm'])
  · obtain ⟨hannounced, hperformed⟩ := execute_performs hnone
    exact ⟨hannounced, hperformed, by simpa using hperformed.calls_eq⟩
  · obtain ⟨before, m, after, reached, hsplit, hannounced, hperformed, hmove⟩ :=
      execute_stops hfails
    refine ⟨before, m, after, reached, hsplit, hannounced, hperformed, hmove, ?_,
      MoveReply.isOf_of_failure? (congrArg Prod.snd hmove)⟩
    rw [calls_of_versionedMove hmove, hperformed.calls_eq]
    simp

/-- Two files. -/
def Tree.twoFiles : Tree := ⟨[(["first.ts"], .file ⟨#[]⟩), (["secondFile.ts"], .file ⟨#[]⟩)]⟩

/-- Moves of two files, and between them one whose source is missing. -/
def Move.withMissing : List Move :=
  [⟨"first.ts", "firstRenamed.ts", ⟨.relative, []⟩, false⟩,
    ⟨"missing.ts", "none.ts", ⟨.relative, []⟩, false⟩,
    ⟨"secondFile.ts", "second-file.ts", ⟨.relative, []⟩, false⟩]

/-- A tool that fails at its second call, on states that count the calls. -/
def failingSecond (_ : MoveCall) (count : Nat) : MoveReply × Nat :=
  (.ended (if count = 1 then 128 else 0) "" "", count + 1)

theorem execute_failFast_withMissing :
    let d := (World.ofTree .twoFiles).disk
    let plain := execute directMove none Move.withMissing d
    let asked := execute (versionedMove (recorded failingSecond)) none Move.withMissing (0, [])
    (∃ failure, plain.failure? = some failure ∧ ∃ before m after,
        Move.withMissing = before ++ m :: after ∧
        plain.announced = announcements 3 0 (before ++ [m]) ∧
        Performed (Mover.within directMove none) before d plain.state ∧
        Disk.MovesAll none before d plain.state ∧ failure.IsOf m) ∧
      plain.announced.length = 2 ∧
      (∃ failure, asked.failure? = some failure ∧ ∃ before m after,
        Move.withMissing = before ++ m :: after ∧
        asked.announced = announcements 3 0 (before ++ [m]) ∧
        asked.state.2 = (before ++ [m]).map (·.callIn none) ∧ failure.IsOf m) ∧
      asked.state =
        (2, [⟨"first.ts", "firstRenamed.ts", "."⟩, ⟨"missing.ts", "none.ts", "."⟩]) := by
  intro d plain asked
  obtain ⟨-, hplain, -, hasked⟩ := execute_failFast failingSecond none Move.withMissing d 0
  refine ⟨?_, by decide +kernel, ?_, rfl⟩
  · obtain ⟨failure, hfails⟩ : ∃ failure, plain.failure? = some failure :=
      Option.isSome_iff_exists.mp (by decide +kernel)
    obtain ⟨before, m, after, hsplit, hannounced, hperformed, hmoves, -, hof⟩ :=
      hplain failure hfails
    refine ⟨failure, hfails, before, m, after, hsplit, hannounced, hperformed,
      hmoves ⟨by decide, ?_, ?_⟩, hof⟩
    · exact linkFree_of_entries (by simp [d, World.ofTree, Tree.twoFiles])
    · simp [Move.withMissing, Path.IsNormal]
  · obtain ⟨failure, hfails⟩ : ∃ failure, asked.failure? = some failure := ⟨_, rfl⟩
    obtain ⟨before, m, after, -, hsplit, hannounced, -, -, hcalls, hof⟩ := hasked failure hfails
    exact ⟨failure, hfails, before, m, after, hsplit, hannounced, hcalls, hof⟩

end Recase
