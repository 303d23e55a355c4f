import Recase.Proofs.Console.Session
import Recase.Proofs.Run

/-!
# How the command of a run proceeds

* `World.gatedPlan`: the check for uncommitted changes and, if it passes, the plan.
* `Asked`: what the question before a run comes to, with nothing but tokens drawn until then
  (`asked_confirmRun`).
* `Concluded`: what a run comes to that is made (`concluded_performRun`).
* `RunArguments.options`: the options of the run. `run_runCommand`: the command settles the path of
  the log, asks unless it is told not to, and makes the run.
-/

namespace Recase

/-- The check for uncommitted changes and, if it passes, the plan. -/
def World.gatedPlan (w : World) (o : Options) (roots : List Root) : Except Failure Plan := do
  ensureSafe (← standingOf w.disk w.git.repositories roots) o.force
  (preview w o.ignored roots).plan

namespace Console

/-! ## Steps -/

theorem run_finish (code : Nat) (lines : List String) (t : Terminal) :
    ∃ t', (finish code lines).run t = .ok code t' ∧ t'.world = t.world ∧ t'.EndsWith lines :=
  ⟨_, rfl, rfl, t.output, rfl⟩

theorem run_sayAll (lines : List String) (t : Terminal) :
    ∃ t', (sayAll lines).run t = .ok () t' ∧ t'.world = t.world ∧ t'.input = t.input :=
  ⟨_, rfl, rfl, rfl⟩

theorem run_reported_ok {α : Type} (isExpected : Failure → Bool) (a : α) (t : Terminal) :
    (reported isExpected (.ok a)).run t = .ok (.ok a) t := rfl

theorem run_reported_error {α : Type} {isExpected : Failure → Bool} {failure : Failure}
    (h : isExpected failure = true) (t : Terminal) :
    (reported isExpected (.error failure : Except Failure α)).run t = .ok (.error failure) t := by
  rw [reported, if_pos h, EStateM.run_pure]

theorem run_reported_throw {α : Type} {isExpected : Failure → Bool} {failure : Failure}
    (h : isExpected failure = false) (t : Terminal) :
    (reported isExpected (.error failure : Except Failure α)).run t = .error failure t := by
  rw [reported, h]
  rfl

theorem run_gatedPlan (o : Options) (roots : List Root) (t : Terminal) :
    ∃ drawn t', (gatedPlan o roots).run t = .ok (t.world.gatedPlan o roots) t' ∧
      t'.world = { t.world with drawn } ∧ t'.input = t.input := by
  unfold gatedPlan World.gatedPlan
  have hgate : (gateRoots o.force roots).run t =
      .ok (do ensureSafe (← standingOf t.world.disk t.world.git.repositories roots) o.force) t :=
        rfl
  rw [EStateM.run_bind, hgate]
  cases standingOf t.world.disk t.world.git.repositories roots with
  | error failure => exact ⟨_, _, rfl, rfl, rfl⟩
  | ok standing =>
    simp only [bind, Except.bind]
    cases ensureSafe standing o.force with
    | error failure => exact ⟨_, _, rfl, rfl, rfl⟩
    | ok _ => exact ⟨_, _, rfl, rfl, rfl⟩

/-! ## The question before a run -/

/-- What the question before a run comes to. -/
inductive Asked (o : Options) (roots : List Root) (t : Terminal) (drawn : Nat) :
    EStateM.Result Failure Terminal (Option Nat) → Prop
  /-- There is no plan, for a reason that is reported. -/
  | refused {failure : Failure} {t' : Terminal} (hplan : t.world.gatedPlan o roots = .error failure)
      (hreported : failure.isReported = true) (hworld : t'.world = { t.world with drawn })
      (hlines : t'.EndsWith (failureLines failure)) : Asked o roots t drawn (.ok (some 1) t')
  /-- There is no plan, for a reason that is not reported. -/
  | broken {failure : Failure} {t' : Terminal} (hplan : t.world.gatedPlan o roots = .error failure)
      (hreported : failure.isReported = false) (hworld : t'.world = { t.world with drawn }) :
      Asked o roots t drawn (.error failure t')
  | conflicting {plan : Plan} {t' : Terminal} (hplan : t.world.gatedPlan o roots = .ok plan)
      (hconflicts : plan.conflicts ≠ []) (hworld : t'.world = { t.world with drawn })
      (hlines : t'.EndsWith (conflictLines plan)) : Asked o roots t drawn (.ok (some 1) t')
  /-- There is nothing to do, or the answer is not a yes. -/
  | declined {plan : Plan} {t' : Terminal} (hplan : t.world.gatedPlan o roots = .ok plan)
      (hconflicts : plan.conflicts = []) (hworld : t'.world = { t.world with drawn })
      (hno : plan.moves = [] ∨ t.input.head?.map answerOf ≠ some "y") :
      Asked o roots t drawn (.ok (some 0) t')
  /-- The input has ended. -/
  | silent {t' : Terminal} (hinput : t.input = []) (hworld : t'.world = { t.world with drawn }) :
      Asked o roots t drawn (.error .endOfInput t')
  | confirmed {t' : Terminal} (hyes : t.input.head?.map answerOf = some "y")
      (hworld : t'.world = { t.world with drawn }) : Asked o roots t drawn (.ok none t')

theorem asked_confirmRun (o : Options) (roots : List Root) (t : Terminal) :
    ∃ drawn, Asked o roots t drawn ((confirmRun o roots).run t) := by
  obtain ⟨drawn, t₁, hgated, hworld, hinput⟩ := run_gatedPlan o roots t
  refine ⟨drawn, ?_⟩
  rw [confirmRun, EStateM.run_bind, hgated]
  dsimp only
  rw [EStateM.run_bind]
  cases hplan : t.world.gatedPlan o roots with
  | error failure =>
    cases hreported : failure.isReported with
    | true =>
      obtain ⟨t', hfinish, hsame, hlines⟩ := run_finish 1 (failureLines failure) t₁
      simp only [run_reported_error hreported, EStateM.run_bind, hfinish]
      exact .refused hplan hreported (hsame.trans hworld) hlines
    | false =>
      simp only [run_reported_throw hreported]
      exact .broken hplan hreported hworld
  | ok plan =>
    rw [run_reported_ok]
    dsimp only
    split
    · rename_i hconflicts
      obtain ⟨t', hfinish, hsame, hlines⟩ := run_finish 1 (conflictLines plan) t₁
      rw [EStateM.run_bind, hfinish]
      exact .conflicting hplan (by simpa using hconflicts) (hsame.trans hworld) hlines
    rename_i hconflicts
    have hnone : plan.conflicts = [] := by simpa using hconflicts
    split
    · rename_i hmoves
      obtain ⟨t', hfinish, hsame, -⟩ := run_finish 0 [nothingToRename] t₁
      rw [EStateM.run_bind, hfinish]
      exact .declined hplan hnone (hsame.trans hworld) (.inl (by simpa using hmoves))
    obtain ⟨t₂, hsay, hsame, hstill⟩ := run_sayAll (planLines plan) t₁
    rw [EStateM.run_bind, hsay]
    dsimp only
    rw [EStateM.run_bind]
    cases hlines : t.input with
    | nil =>
      rw [run_askAnswer_nil _ (hstill.trans (hinput.trans hlines))]
      exact .silent hlines (hsame.trans hworld)
    | cons line rest =>
      rw [run_askAnswer_cons _ (hstill.trans (hinput.trans hlines))]
      dsimp only
      split
      · rename_i hyes
        exact .confirmed (by simp [hlines, hyes]) (hsame.trans hworld)
      · rename_i hno
        exact .declined hplan hnone (hsame.trans hworld) (.inr (by simp [hlines, hno]))

theorem Asked.world {o : Options} {roots : List Root} {t : Terminal} {drawn : Nat}
    {result : EStateM.Result Failure Terminal (Option Nat)} (h : Asked o roots t drawn result) :
    (terminalOf result).world = { t.world with drawn } := by
  cases h <;> assumption

/-! ## The run -/

/-- What a run comes to that is made, by its outcome. -/
inductive Concluded (outcome : Outcome) : EStateM.Result Failure Terminal Nat → Prop
  | done {r : RunResult} {t' : Terminal} (hresult : outcome.result = .ok r)
      (hworld : t'.world = outcome.world) :
      Concluded outcome (.ok 0 t')
  | refused {failure : Failure} {t' : Terminal} (hresult : outcome.result = .error failure)
      (hreported : failure.isReported = true) (hworld : t'.world = outcome.world)
      (hlines : t'.EndsWith (failureLines failure)) : Concluded outcome (.ok 1 t')
  | broken {failure : Failure} {t' : Terminal} (hresult : outcome.result = .error failure)
      (hreported : failure.isReported = false) (hworld : t'.world = outcome.world) :
      Concluded outcome (.error failure t')

theorem concluded_performRun (o : Options) (roots : List Root) (t : Terminal) :
    Concluded (run o roots t.world) ((performRun o roots).run t) := by
  obtain ⟨t₁, hrun, hworld⟩ : ∃ t₁, (runRoots o roots).run t = .ok (run o roots t.world).result t₁ ∧
      t₁.world = (run o roots t.world).world := ⟨_, rfl, rfl⟩
  rw [performRun, EStateM.run_bind, hrun]
  dsimp only
  rw [EStateM.run_bind]
  cases hresult : (run o roots t.world).result with
  | error failure =>
    cases hreported : failure.isReported with
    | true =>
      obtain ⟨t', hfinish, hsame, hlines⟩ := run_finish 1 (failureLines failure) t₁
      simp only [run_reported_error hreported, hfinish]
      exact .refused hresult hreported (hsame.trans hworld) hlines
    | false =>
      simp only [run_reported_throw hreported]
      exact .broken hresult hreported hworld
  | ok r =>
    rw [run_reported_ok]
    exact .done hresult hworld

theorem Concluded.world {outcome : Outcome} {result : EStateM.Result Failure Terminal Nat}
    (h : Concluded outcome result) : (terminalOf result).world = outcome.world := by
  cases h <;> assumption

/-! ## The command -/

/-- The options of the run that is asked for. -/
def RunArguments.options (a : RunArguments) (d : Disk) (logFile : Path) : Options :=
  { Options.default d with force := a.force, dryRun := a.dryRun, logging := a.log, logFile }

/-- The roots of the run that is asked for. -/
def RunArguments.roots (a : RunArguments) : List Root := a.directories.map .ofText

theorem run_runCommand (a : RunArguments) (t : Terminal) :
    (runCommand a).run t =
      match logFileAt t.world.disk a.logFile with
      | .error failure => .error failure t
      | .ok logFile =>
        let o := a.options t.world.disk logFile
        if a.dryRun || a.yes then (performRun o a.roots).run t
        else
          match (confirmRun o a.roots).run t with
          | .ok (some code) t' => .ok code t'
          | .ok none t' => (performRun o a.roots).run t'
          | .error failure t' => .error failure t' := by
  have hworld : world.run t = .ok t.world t := rfl
  rw [runCommand, EStateM.run_bind, hworld]
  dsimp only
  rw [EStateM.run_bind]
  cases logFileAt t.world.disk a.logFile with
  | error failure => rfl
  | ok logFile =>
    have hsettled : (orEnd (.ok logFile : Except Failure Path)).run t = .ok logFile t := rfl
    rw [hsettled]
    dsimp only
    split
    · rfl
    · rw [EStateM.run_bind, RunArguments.options, RunArguments.roots]
      split <;> rename_i hasked <;> rw [hasked]
      rename_i answer t'
      cases answer <;> rfl

end Console

end Recase
