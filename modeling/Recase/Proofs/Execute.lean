import Recase.Execute

/-!
# Moves one after the other

* `Performed`: moves that have all succeeded, from one state to another.
* `Mover.within`: moves made in one directory. `announcements`: moves announced by their numbers.
* `executeFrom_cases`: an execution announces and performs all of its moves, or those up to one that
  fails. `execute_performs`, `execute_stops`: the two cases, by how the execution ends;
  `execute_of_none` and `execute_of_some` where each move is made in its own root.
* `Performed.execute_eq`: an execution of moves that can be performed ends without a failure.
* `Performed.disk`: what is performed in a world is performed on its disk, and changes nothing else.
-/

namespace Recase

variable {σ : Type} {mover : Mover σ} {s s' s'' : σ} {m : Move} {moves more : List Move}

/-- The moves have all succeeded, each in its own root. -/
inductive Performed (mover : Mover σ) : List Move → σ → σ → Prop
  | nil (s : σ) : Performed mover [] s s
  | cons {m : Move} {rest : List Move} {s s' s'' : σ} (hmove : mover m m.root s = (s', none))
      (hrest : Performed mover rest s' s'') : Performed mover (m :: rest) s s''

theorem Performed.append (h : Performed mover moves s s') (h' : Performed mover more s' s'') :
    Performed mover (moves ++ more) s s'' := by
  induction h with
  | nil => exact h'
  | cons hmove _ ih => exact .cons hmove (ih h')

theorem performed_append_iff :
    Performed mover (moves ++ more) s s'' ↔
      ∃ s', Performed mover moves s s' ∧ Performed mover more s' s'' := by
  constructor
  · intro h
    induction moves generalizing s with
    | nil => exact ⟨s, .nil s, h⟩
    | cons m rest ih =>
      cases h with
      | cons hmove hrest =>
        obtain ⟨s', hfirst, hsecond⟩ := ih hrest
        exact ⟨s', .cons hmove hfirst, hsecond⟩
  · rintro ⟨s', h, h'⟩
    exact h.append h'

/-- The mover that moves in the directory, if one is given, and where it is asked to otherwise. -/
def Mover.within (mover : Mover σ) (directory? : Option Path) : Mover σ :=
  fun m root => mover m (directory?.getD root)

/-- The announcements of moves, of `total` of which `done` come before them. -/
def announcements (total done : Nat) (moves : List Move) : List Announcement :=
  moves.mapIdx fun i m => ⟨done + i + 1, total, m.source ++ " -> " ++ m.target⟩

theorem announcements_cons (total done : Nat) (m : Move) (moves : List Move) :
    announcements total done (m :: moves) =
      ⟨done + 1, total, m.source ++ " -> " ++ m.target⟩ ::
          announcements total (done + 1) moves := by
  have hnumber : ∀ i, done + (i + 1) + 1 = done + 1 + i + 1 := by omega
  simp only [announcements, List.mapIdx_cons, hnumber, Nat.add_zero]

section Execute

variable {failure : Failure} {directory? : Option Path}

/-- An execution announces and performs all of its moves, or those before one that it announces and
that fails. -/
theorem executeFrom_cases (mover : Mover σ) (directory? : Option Path) (total done : Nat)
    (moves : List Move) (s : σ) :
    (∃ s', Performed (mover.within directory?) moves s s' ∧
        executeFrom mover directory? total done moves s =
          ⟨s', announcements total done moves, none⟩) ∨
      ∃ before m after reached ended failure, moves = before ++ m :: after ∧
        Performed (mover.within directory?) before s reached ∧
        mover m (directory?.getD m.root) reached = (ended, some failure) ∧
        executeFrom mover directory? total done moves s =
          ⟨ended, announcements total done (before ++ [m]), some failure⟩ := by
  induction moves generalizing done s with
  | nil => exact .inl ⟨s, .nil s, rfl⟩
  | cons m rest ih =>
    rw [executeFrom]
    rcases hmove : mover m (directory?.getD m.root) s with ⟨s', _ | failure⟩
    · dsimp only
      obtain ⟨s'', hperformed, hrest⟩ |
          ⟨before, m', after, reached, ended, failure, rfl, hperformed, hfails, hrest⟩ :=
        ih (done + 1) s'
      · refine .inl ⟨s'', .cons hmove hperformed, ?_⟩
        rw [announcements_cons, hrest]
      · refine .inr ⟨m :: before, m', after, reached, ended, failure, rfl,
          .cons hmove hperformed, hfails, ?_⟩
        rw [List.cons_append, announcements_cons, hrest]
    · exact .inr ⟨[], m, rest, s, s', failure, rfl, .nil s, hmove, rfl⟩

/-- An execution ends with its first move if that fails. -/
theorem execute_cons_of_some (h : mover m m.root s = (s', some failure)) :
    (execute mover none (m :: more) s).failure? = some failure := by
  rw [execute, executeFrom, Option.getD_none, h]

/-- An execution that ends without a failure has announced and performed its moves. -/
theorem execute_performs (h : (execute mover directory? moves s).failure? = none) :
    (execute mover directory? moves s).announced = announcements moves.length 0 moves ∧
      Performed (mover.within directory?) moves s (execute mover directory? moves s).state := by
  rw [execute] at h ⊢
  obtain ⟨s', hperformed, heq⟩ | ⟨_, _, _, _, _, failure, -, -, -, heq⟩ :=
    executeFrom_cases mover directory? moves.length 0 moves s
  · rw [heq]
    exact ⟨rfl, hperformed⟩
  · rw [heq] at h
    cases h

/-- An execution that ends with a failure has announced the moves up to the one that fails, and
performed all before. -/
theorem execute_stops (h : (execute mover directory? moves s).failure? = some failure) :
    ∃ before m after reached, moves = before ++ m :: after ∧
      (execute mover directory? moves s).announced = announcements moves.length 0 (before ++ [m]) ∧
      Performed (mover.within directory?) before s reached ∧
      mover m (directory?.getD m.root) reached =
          ((execute mover directory? moves s).state, some failure) := by
  rw [execute] at h ⊢
  obtain ⟨s', -, heq⟩ | ⟨before, m, after, reached, ended, other, hsplit, hperformed,
      hfails, heq⟩ :=
    executeFrom_cases mover directory? moves.length 0 moves s
  · rw [heq] at h
    cases h
  · rw [heq] at h ⊢
    cases h
    exact ⟨before, m, after, reached, hsplit, rfl, hperformed, hfails⟩

theorem execute_of_none (h : (execute mover none moves s).failure? = none) :
    Performed mover moves s (execute mover none moves s).state :=
  (execute_performs h).2

theorem execute_of_some (h : (execute mover none moves s).failure? = some failure) :
    ∃ before m after s', moves = before ++ m :: after ∧ Performed mover before s s' ∧
      mover m m.root s' = ((execute mover none moves s).state, some failure) := by
  obtain ⟨before, m, after, s', hsplit, -, hperformed, hfails⟩ := execute_stops h
  exact ⟨before, m, after, s', hsplit, hperformed, hfails⟩

theorem Performed.executeFrom_eq (h : Performed mover moves s s') (total done : Nat) :
    (executeFrom mover none total done moves s).state = s' ∧
      (executeFrom mover none total done moves s).failure? = none := by
  induction h generalizing done with
  | nil s => exact ⟨rfl, rfl⟩
  | cons hmove _ ih =>
    rw [executeFrom, Option.getD_none, hmove]
    exact ih (done + 1)

/-- An execution performs moves that can be performed, and ends without a failure. -/
theorem Performed.execute_eq (h : Performed mover moves s s') :
    (execute mover none moves s).state = s' ∧ (execute mover none moves s).failure? = none :=
  h.executeFrom_eq _ _

end Execute

/-- A run that makes moves itself makes them on its disk. -/
theorem World.mover_false (m : Move) (directory : Path) (w : World) :
    World.mover false m directory w =
      ({ w with disk := (Recase.directMove m directory w.disk).1 },
        (Recase.directMove m directory w.disk).2) := by
  rw [World.mover, if_neg Bool.false_ne_true, World.directMove]

/-- A run that does not make moves itself asks the tool for them. -/
theorem World.mover_true (m : Move) (directory : Path) (w : World) :
    World.mover true m directory w =
      ((World.callTool ⟨m.source, m.target, directory.toString⟩ w).2,
        (World.callTool ⟨m.source, m.target, directory.toString⟩ w).1.failure? m) := by
  rw [World.mover, if_pos rfl, versionedMove]

/-- The disk after a call of the tool is that of a move, or what it was. -/
theorem World.disk_callTool (call : MoveCall) (w : World) :
    (World.callTool call w).2.disk = w.disk ∨
      (World.callTool call w).2.disk = (w.disk.toolMove call).2 := by
  unfold callTool
  dsimp only
  split
  · exact .inl rfl
  · exact .inr rfl

/-- What is performed in a world is performed on its disk, and changes nothing else. -/
theorem Performed.disk {w w' : World} (h : Performed (World.mover false) moves w w') :
    Performed directMove moves w.disk w'.disk ∧ w' = { w with disk := w'.disk } := by
  induction h with
  | nil w => exact ⟨.nil _, rfl⟩
  | @cons m rest w w' w'' hmove _ ih =>
    obtain ⟨hrest, hsame⟩ := ih
    rw [World.mover_false] at hmove
    obtain ⟨rfl, hnone⟩ := Prod.mk.inj hmove
    have hmoved : directMove m m.root w.disk = ((directMove m m.root w.disk).1, none) := by
      rw [← hnone]
    exact ⟨.cons hmoved hrest, hsame⟩

end Recase
