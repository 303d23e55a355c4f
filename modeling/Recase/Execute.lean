import Recase.World

/-!
# Carrying out moves

* `Mover`: one way to make a move in a directory, on states of any kind. It gives the state after
  it and the failure, if it fails.
* `directMove`: the disk's own renaming, which takes care not to replace anything.
* `versionedMove`: the move asked of a version-control tool.
* `execute`: moves one after the other up to the first that fails. Each is announced before it is
  tried.
-/

namespace Recase

/-- A way to make a move in a directory. -/
abbrev Mover (σ : Type) := Move → Path → σ → σ × Option Failure

/-- The failure of a plain move. -/
def directFailure (m : Move) (stderr : String) (exitCode : Option Int) : Failure :=
  .moveFailed ⟨m, m.shellText false, stderr, "", exitCode, none⟩

/-- Whether something other than the source is in the way at the target. -/
def isBlocked (d : Disk) (src dst : Path) : Except Failure Bool :=
  if !d.hasEntry dst.route then .ok false
  else
    match d.isSameEntry src dst with
    | .ok same => .ok (!same)
    | .error .embeddedNul => .error .embeddedNul
    | .error (.refused _) => .ok true

/-- A move by the disk's own renaming. -/
def directMove : Mover Disk := fun m directory d =>
  let src := directory.joinText m.source
  let dst := directory.joinText m.target
  match isBlocked d src dst with
  | .error failure => (d, some failure)
  | .ok true => (d, some (directFailure m ("Destination already exists: " ++ dst.toString) none))
  | .ok false =>
    match d.rename src.route dst.route with
    | .ok moved => (moved, none)
    | .error .embeddedNul => (d, some .embeddedNul)
    | .error (.refused errno) =>
      let refusal := Failure.system errno src.toString (some dst.toString)
      (d, some (directFailure m refusal.message (some errno.code)))

/-- The failure that the reply of a tool stands for, if it failed. -/
def MoveReply.failure? (reply : MoveReply) (m : Move) : Option Failure :=
  match reply with
  | .ended 0 _ _ => none
  | .ended code stderr stdout =>
    some (.moveFailed ⟨m, m.shellText true, stderr, stdout, some code, signalOf? code⟩)
  | .unstartable errno text =>
    let stderr := "[Errno " ++ toString errno ++ "] " ++ text
    some (.moveFailed ⟨m, m.shellText true, stderr, "", some errno, none⟩)
  | .unspeakable => some .embeddedNul

/-- A move asked of a tool. -/
def versionedMove {σ : Type} (tool : MoveCall → σ → MoveReply × σ) : Mover σ := fun m directory s =>
  let (reply, s) := tool ⟨m.source, m.target, directory.toString⟩ s
  (s, reply.failure? m)

/-- The announcement of a move: its number, how many there are, and what it does. -/
structure Announcement where
  number : Nat
  total : Nat
  message : String
  deriving Repr, DecidableEq

/-- What became of moves: the state after them, those announced, and the failure that ended them. -/
structure Execution (σ : Type) where
  state : σ
  announced : List Announcement
  failure? : Option Failure

/-- Moves made one after the other, of `total` of which `done` are made. -/
def executeFrom {σ : Type} (mover : Mover σ) (directory? : Option Path) (total : Nat) :
    Nat → List Move → σ → Execution σ
  | _, [], s => ⟨s, [], none⟩
  | done, m :: rest, s =>
    let announcement := ⟨done + 1, total, m.source ++ " -> " ++ m.target⟩
    match mover m (directory?.getD m.root) s with
    | (s, some failure) => ⟨s, [announcement], some failure⟩
    | (s, none) =>
      let after := executeFrom mover directory? total (done + 1) rest s
      { after with announced := announcement :: after.announced }

/-- Moves made one after the other, in a directory or else in the root of each. -/
def execute {σ : Type} (mover : Mover σ) (directory? : Option Path) (moves : List Move) (s : σ) :
    Execution σ :=
  executeFrom mover directory? moves.length 0 moves s

namespace World

/-- A move by the disk of the world. -/
def directMove : Mover World := fun m directory w =>
  let (disk, failure?) := Recase.directMove m directory w.disk
  ({ w with disk }, failure?)

/-- The mover of a run, plain or with version control. -/
def mover (useVersionControl : Bool) : Mover World :=
  if useVersionControl then versionedMove callTool else directMove

end World

end Recase
