import Recase.Proofs.Console.Command
import Recase.Proofs.Expected

/-!
# How the command of a run ends

* `gatedPlan_eq`: the plan shown before a run is that of the run, once it is admitted. With it, a
  run without a plan ends as the question before it does (`run_of_gatedPlan_error`), and so does one
  that is not to move anything (`run_of_gatedPlan_ok`).
* `failure_of_run`: what a run fails with it fails with when no log is written, unless it is the log
  that cannot be saved.
* `RunArguments.asked`: the options of the run that is asked for, which is a dry one without
  consent.
* `Ends`: the exit code of a run that is done is zero and that of a reported failure is one, with
  the failure printed. Failures that are not reported escape.
* `runCommand_ends`: the command of a run ends in this way, and which failures escape it.
-/

namespace Recase

open Name

variable {o : Options} {roots : List Root} {w : World} {kept : List Path} {plan : Plan}
  {standing : Standing} {r r' : RunResult} {failure : Failure} {ignored : List String}

/-! ## The plan shown and the run -/

/-- The plan of the roots that are kept is that of the roots. -/
theorem preview_kept (ht : w.disk.tree.WellFormed) (hroots : ∀ r ∈ roots, r.path.IsNormal)
    (hadmitted : admission o roots w = .ok (standing, kept)) :
    preview w ignored (kept.map .ofPath) = preview w ignored roots := by
  obtain ⟨-, -, hagain⟩ := hasRoots_of_admission ht hroots hadmitted
  have hscan : scan w.disk ignored (kept.map .ofPath) = scan w.disk ignored roots := by
    rw [scan, scan, outermostRoots_of_admission hadmitted, hagain]
  rw [preview, preview, hscan]

/-- What keeps a run from being admitted keeps the plan from being shown. -/
theorem gatedPlan_eq (o : Options) (roots : List Root) (w : World) :
    w.gatedPlan o roots =
      match admission o roots w with
      | .error failure => .error failure
      | .ok _ => (preview w o.ignored roots).plan := by
  unfold World.gatedPlan admission
  cases standingOf w.disk w.git.repositories roots with
  | error other => rfl
  | ok standing =>
    simp only [bind, Except.bind]
    cases ensureSafe standing o.force with
    | error other => rfl
    | ok _ =>
      dsimp only
      cases hkept : outermostRoots w.disk roots with
      | error other => simp [preview, scan, hkept]
      | ok kept => rfl

/-- A run without a plan fails as the plan does. -/
theorem run_of_gatedPlan_error (ht : w.disk.tree.WellFormed) (hroots : ∀ r ∈ roots, r.path.IsNormal)
    (h : w.gatedPlan o roots = .error failure) : (run o roots w).result = .error failure := by
  rw [gatedPlan_eq] at h
  rw [run]
  cases hadmitted : admission o roots w with
  | error other =>
    rw [hadmitted] at h
    cases h
    rfl
  | ok admitted =>
    obtain ⟨standing, kept⟩ := admitted
    rw [hadmitted] at h
    dsimp only at h
    simp only [scanStage, preview_kept ht hroots hadmitted, h]
    rfl

/-- A plan without moves has no items. -/
theorem items_of_moves_nil (ht : w.disk.tree.WellFormed)
    (h : (preview w ignored roots).plan = .ok plan) (hmoves : plan.moves = []) :
    plan.items = [] := by
  obtain ⟨kept, -, hplan⟩ := isPlanOf_of_preview ht h
  have hturns := hplan.moves
  rw [hmoves] at hturns
  have hnone : Retained.inOrder (retained w.disk ignored kept) = [] := by
    generalize Retained.inOrder _ = entries at hturns
    generalize hall : ([] : List Move) = moves at hturns
    cases hturns with
    | nil => rfl
    | cons hlegs => cases hlegs <;> cases hall
  have hperm : ([] : List Retained).Perm ((retained w.disk ignored kept).filter (·.changes)) := by
    rw [← hnone]
    exact sortBy_perm _ _
  rw [hplan.items, ← hperm.nil_eq, List.map_nil]

/-- A run with a plan fails on its conflicts, and ends well if there are none and nothing is to be
moved. -/
theorem run_of_gatedPlan_ok (ht : w.disk.tree.WellFormed) (hroots : ∀ r ∈ roots, r.path.IsNormal)
    (h : w.gatedPlan o roots = .ok plan) :
    (plan.conflicts ≠ [] → (run o roots w).result = .error (.conflicting plan.conflicts)) ∧
      (plan.conflicts = [] → plan.moves = [] ∨ o.dryRun = true → ∃ r,
          (run o roots w).result = .ok r) := by
  rw [gatedPlan_eq] at h
  cases hadmitted : admission o roots w with
  | error other => rw [hadmitted] at h; cases h
  | ok admitted =>
    obtain ⟨standing, kept⟩ := admitted
    rw [hadmitted] at h
    have hplan : (preview w o.ignored (kept.map .ofPath)).plan = .ok plan := by
      rw [preview_kept ht hroots hadmitted]
      exact h
    obtain ⟨hconflicts, reports, hrun⟩ |
        ⟨hconflicts, reports, r, -, -, ⟨-, message, -, hrun⟩ | ⟨hitems, hreal, -⟩⟩ :=
      run_cases_of_plan hadmitted hplan
    · rw [hrun]
      exact ⟨fun _ => rfl, fun hnone => absurd hnone hconflicts⟩
    · rw [hrun]
      exact ⟨fun hne => absurd hconflicts hne, fun _ _ => ⟨_, rfl⟩⟩
    · refine ⟨fun hne => absurd hconflicts hne, fun _ hnothing => ?_⟩
      obtain hmoves | hdry := hnothing
      · exact absurd (items_of_moves_nil ht hplan hmoves) hitems
      · exact absurd hdry (by simp [hreal])

/-! ## The log -/

/-- The options of the run without a log. -/
def Options.unlogged (o : Options) : Options :=
  { o with logging := false, logFile := ⟨.absolute, []⟩ }

/-- The failure is that of saving a log. -/
def Options.FailsToLog (o : Options) (failure : Failure) : Prop :=
  o.logging = true ∧ ∃ (log : RunLog) (d : Disk), (log.save o.logFile d).1 = .error failure

theorem failure_of_updateStage (h : (updateStage o kept r w).result = .error failure) :
    (updateStage o.unlogged kept r' w).result = .error failure ∨ o.FailsToLog failure := by
  unfold updateStage at h ⊢
  have hsame : Source.updateSources w o.unlogged.extensions o.unlogged.ignored (kept.map .ofPath) =
      Source.updateSources w o.extensions o.ignored (kept.map .ofPath) := rfl
  rw [hsame]
  dsimp only [result_after] at h ⊢
  cases hsearch : (Source.updateSources w o.extensions o.ignored (kept.map .ofPath)).failure? with
  | some other =>
    rw [hsearch] at h
    cases h
    exact .inl rfl
  | none =>
    rw [hsearch] at h
    dsimp only at h
    unfold logStage at h
    split at h
    · rename_i hlogging
      dsimp only [result_after] at h
      split at h
      · rename_i hsaved
        cases h
        exact .inr ⟨hlogging, _, _, hsaved⟩
      · cases h
    · cases h

theorem failure_of_moveStage (h : (moveStage o kept standing r plan w).result = .error failure) :
    (moveStage o.unlogged kept standing r' plan w).result = .error failure ∨
        o.FailsToLog failure := by
  unfold moveStage at h ⊢
  have hsame : o.unlogged.useVersionControl = o.useVersionControl := rfl
  rw [hsame]
  dsimp only [result_after] at h ⊢
  split
  · rename_i hmoved
    rw [hmoved] at h
    cases h
    exact .inl rfl
  · rename_i hmoved
    rw [hmoved] at h
    exact failure_of_updateStage h

theorem failure_of_planStage (h : (planStage o kept standing plan w).result = .error failure) :
    (planStage o.unlogged kept standing plan w).result = .error failure ∨ o.FailsToLog failure := by
  unfold planStage at h ⊢
  have hsame : o.unlogged.dryRun = o.dryRun := rfl
  rw [hsame]
  dsimp only at h ⊢
  split
  · rename_i hconflicts
    rw [if_pos hconflicts] at h
    exact .inl h
  rename_i hconflicts
  rw [if_neg hconflicts] at h
  split
  · rename_i hitems
    rw [if_pos hitems] at h
    exact .inl h
  rename_i hitems
  rw [if_neg hitems] at h
  split
  · rename_i hdry
    rw [if_pos hdry] at h
    exact .inl h
  · rename_i hreal
    rw [if_neg hreal] at h
    exact failure_of_moveStage h

/-- A run fails as it does without a log, or it is the log that cannot be saved. -/
theorem failure_of_run (h : (run o roots w).result = .error failure) :
    (run o.unlogged roots w).result = .error failure ∨ o.FailsToLog failure := by
  have hadmission : admission o.unlogged roots w = admission o roots w := rfl
  rw [run, hadmission]
  rw [run] at h
  cases hadmitted : admission o roots w with
  | error other =>
    rw [hadmitted] at h
    exact .inl h
  | ok admitted =>
    obtain ⟨standing, kept⟩ := admitted
    rw [hadmitted] at h
    have hpreview : preview w o.unlogged.ignored (kept.map .ofPath) =
      preview w o.ignored (kept.map .ofPath) := rfl
    simp only [scanStage, result_after, hpreview] at h ⊢
    cases hplan : (preview w o.ignored (kept.map .ofPath)).plan with
    | error other =>
      rw [hplan] at h
      exact .inl h
    | ok plan =>
      rw [hplan] at h
      exact failure_of_planStage h

/-- A failure of a run that is not reported is that of an item that is mistaken, a refusal of the
system, or that of the log. -/
theorem failure_of_run_cases (h : w.IsRegular) (htoken : ∀ n, IsToken (w.token n))
    (hroots : ∀ r ∈ roots, r.path.IsNormal) (hfails : (run o roots w).result = .error failure)
    (hreported : failure.isReported = false) :
    (w.MeetsMistaken o roots ∧ failure = .missingSuffix) ∨
      (¬ w.MeetsMistaken o roots ∧ failure.isSystem = true) ∨ o.FailsToLog failure := by
  obtain hunlogged | hlog := failure_of_run hfails
  · have hmeets : w.MeetsMistaken o.unlogged roots ↔ w.MeetsMistaken o roots := Iff.rfl
    obtain ⟨hmistaken, hresult⟩ | ⟨hnone, hall⟩ :=
      run_failure_cases (o := o.unlogged) h htoken hroots (by simp [Options.unlogged])
    · exact .inl ⟨hmistaken, Except.error.inj (hunlogged.symm.trans hresult)⟩
    · have hexpected := hall failure hunlogged
      exact .inr (.inl ⟨hnone, hexpected.resolve_left (by simp [hreported])⟩)
  · exact .inr (.inr hlog)

/-! ## The command -/

namespace Console

variable {a : RunArguments} {t : Terminal}

/-- The options of the run that is asked for. It is a dry one if so asked, or if it is neither told
not to ask nor the answer is a yes. -/
def RunArguments.asked (a : RunArguments) (t : Terminal) (logFile : Path) : Options :=
  { a.options t.world.disk logFile with
    dryRun := a.dryRun || !(a.yes || t.input.head?.map answerOf == some "y") }

/-- The lines that tell of a failure. Conflicts that are found before the question have lines of
their own. -/
inductive Tells : Failure → List String → Prop
  | failed (failure : Failure) : Tells failure (failureLines failure)
  | conflicting (plan : Plan) : Tells (.conflicting plan.conflicts) (conflictLines plan)

/-- How the command ends, by the result of the run that is asked for. -/
inductive Ends : Except Failure RunResult → Ending × Terminal → Prop
  | done {r : RunResult} {t : Terminal} : Ends (.ok r) (.exit 0, t)
  /-- A reported failure is told at last. -/
  | told {failure : Failure} {lines : List String} {t : Terminal}
      (hreported : failure.isReported = true) (htells : Tells failure lines)
      (hlines : t.EndsWith lines) : Ends (.error failure) (.exit 1, t)
  /-- Any other failure escapes. -/
  | escaped {failure : Failure} {t : Terminal} (hreported : failure.isReported = false) :
      Ends (.error failure) (.failed failure, t)

theorem Concluded.ends {outcome : Outcome} {s : Session Nat} (h : Concluded outcome (s.run t)) :
    Ends outcome.result (t.finished s) := by
  unfold Terminal.finished
  generalize s.run t = result at h
  cases h with
  | done hresult => rw [hresult]; exact .done
  | refused hresult hreported _ hlines => rw [hresult]; exact .told hreported (.failed _) hlines
  | broken hresult hreported => rw [hresult]; exact .escaped hreported

theorem isNormal_roots (a : RunArguments) : ∀ r ∈ a.roots, r.path.IsNormal := isNormal_ofText _

/-- With consent, the run is one of the options that are given. -/
theorem asked_eq_options (logFile : Path)
    (h : a.dryRun = true ∨ a.yes = true ∨ t.input.head?.map answerOf = some "y") :
    a.asked t logFile = a.options t.world.disk logFile := by
  have hdry : (a.dryRun || !(a.yes || t.input.head?.map answerOf == some "y")) = a.dryRun := by
    rcases h with h | h | h <;> simp [h]
  rw [RunArguments.asked, hdry]
  rfl

/-- A command that settles the path of the log ends as the run does that is asked for. -/
theorem ends_runCommand (ht : t.world.disk.tree.WellFormed) (hinput : t.input ≠ []) {logFile : Path}
    (hlogFile : logFileAt t.world.disk a.logFile = .ok logFile) :
    ∃ drawn, Ends (run (a.asked t logFile) a.roots { t.world with drawn }).result
        (t.finished (runCommand a)) := by
  have hrun := run_runCommand a t
  rw [hlogFile] at hrun
  dsimp only at hrun
  cases hasks : a.dryRun || a.yes with
  | true =>
    have hsame := asked_eq_options (a := a) (t := t) logFile
      ((Bool.or_eq_true_iff.mp hasks).imp_right .inl)
    rw [if_pos hasks] at hrun
    have hconcluded := concluded_performRun (a.options t.world.disk logFile) a.roots t
    rw [← hrun] at hconcluded
    exact ⟨t.world.drawn, hsame ▸ hconcluded.ends⟩
  | false =>
    obtain ⟨hreal, hyes⟩ := Bool.or_eq_false_iff.mp hasks
    rw [if_neg (by simp [hasks])] at hrun
    obtain ⟨drawn, hasked⟩ := asked_confirmRun (a.options t.world.disk logFile) a.roots t
    generalize (confirmRun (a.options t.world.disk logFile) a.roots).run t = result at hasked hrun
    cases hasked with
    | refused hplan hreported _ hlines =>
      rw [Terminal.finished, hrun]
      have hresult := run_of_gatedPlan_error (o := a.asked t logFile) ht (isNormal_roots a) hplan
      exact ⟨t.world.drawn, hresult ▸ .told hreported (.failed _) hlines⟩
    | broken hplan hreported =>
      rw [Terminal.finished, hrun]
      have hresult := run_of_gatedPlan_error (o := a.asked t logFile) ht (isNormal_roots a) hplan
      exact ⟨t.world.drawn, hresult ▸ .escaped hreported⟩
    | conflicting hplan hconflicts _ hlines =>
      rw [Terminal.finished, hrun]
      have hresult :=
        (run_of_gatedPlan_ok (o := a.asked t logFile) ht (isNormal_roots a) hplan).1 hconflicts
      exact ⟨t.world.drawn, hresult ▸ .told rfl (.conflicting _) hlines⟩
    | declined hplan hconflicts _ hno =>
      rw [Terminal.finished, hrun]
      have hnothing : _ ∨ (a.asked t logFile).dryRun = true :=
        hno.imp_right fun hno => by simp [RunArguments.asked, hreal, hyes, hno]
      obtain ⟨r, hresult⟩ :=
        (run_of_gatedPlan_ok (o := a.asked t logFile) ht (isNormal_roots a) hplan).2
          hconflicts hnothing
      exact ⟨t.world.drawn, hresult ▸ .done⟩
    | silent hnone => exact absurd hnone hinput
    | @confirmed t' hanswer hworld =>
      have hperformed : (runCommand a).run t =
          (performRun (a.options t.world.disk logFile) a.roots).run t' := hrun
      have hconcluded := concluded_performRun (a.options t.world.disk logFile) a.roots t'
      rw [← hperformed, hworld, ← asked_eq_options logFile (.inr (.inr hanswer))] at hconcluded
      exact ⟨drawn, hconcluded.ends⟩

/-- The command of a run, with a line of input for its question, cannot settle the path of the log,
or it ends as the run does that is asked for: with zero if this is done, with one and its failure
printed if this is reported. Only failures of three kinds escape: a missing suffix, which is that of
an item that is mistaken, a refusal of the system, and what keeps the log from being saved. -/
theorem runCommand_ends (h : t.world.IsRegular) (htoken : ∀ n, IsToken (t.world.token n))
    (hinput : t.input ≠ []) :
    (∃ failure, logFileAt t.world.disk a.logFile = .error failure ∧
        t.finished (runCommand a) = (.failed failure, t)) ∨
      ∃ logFile drawn, logFileAt t.world.disk a.logFile = .ok logFile ∧
        Ends (run (a.asked t logFile) a.roots { t.world with drawn }).result
          (t.finished (runCommand a)) ∧
        ∀ failure, (t.finished (runCommand a)).1 = .failed failure →
          (t.world.MeetsMistaken (a.asked t logFile) a.roots ∧ failure = .missingSuffix) ∨
            (¬ t.world.MeetsMistaken (a.asked t logFile) a.roots ∧ failure.isSystem = true) ∨
              (a.asked t logFile).FailsToLog failure := by
  cases hlogFile : logFileAt t.world.disk a.logFile with
  | error failure =>
    refine .inl ⟨failure, rfl, ?_⟩
    rw [Terminal.finished, run_runCommand, hlogFile]
  | ok logFile =>
    obtain ⟨drawn, hends⟩ := ends_runCommand h.wellFormed hinput hlogFile
    refine .inr ⟨logFile, drawn, rfl, hends, fun failure hfailed => ?_⟩
    generalize hresult : (run (a.asked t logFile) a.roots { t.world with drawn }).result = result
      at hends
    generalize t.finished (runCommand a) = ended at hends hfailed
    cases hends with
    | done => cases hfailed
    | told => cases hfailed
    | escaped hreported =>
      cases hfailed
      have hregular : ({ t.world with drawn } : World).IsRegular := ⟨h.wellFormed, h.answers⟩
      exact failure_of_run_cases (w := { t.world with drawn }) hregular htoken
        (isNormal_roots a) hresult hreported

/-- Two files with one destination. -/
def terminalOfTwo : Terminal :=
  ⟨.ofTree ⟨[(["fooBar.ts"], .file ⟨#[]⟩), (["FooBar.ts"], .file ⟨#[]⟩)]⟩, ["y"], ""⟩

/-- A run over them ends with one. -/
theorem runCommand_ends_conflicting :
    ∃ failure lines, failure.isReported = true ∧ Tells failure lines ∧
      (terminalOfTwo.finished
        (runCommand ⟨["."], false, false, some defaultLogFile, false, false⟩)).1 = .exit 1 ∧
      (terminalOfTwo.finished
        (runCommand ⟨["."], false, false, some defaultLogFile, false, false⟩)).2.EndsWith
        lines := by
  have hexit : (terminalOfTwo.finished
      (runCommand ⟨["."], false, false, some defaultLogFile, false, false⟩)).1 =
      .exit 1 := by decide +kernel
  obtain ⟨failure, -, hfailed⟩ | ⟨logFile, drawn, -, hends, -⟩ :=
    runCommand_ends (t := terminalOfTwo)
      (a := ⟨["."], false, false, some defaultLogFile, false, false⟩)
      ⟨by decide, by decide⟩ isToken_tokenText (by decide)
  · rw [hfailed] at hexit
    cases hexit
  · generalize (run _ _ _).result = result at hends
    generalize terminalOfTwo.finished _ = ended at hends hexit
    cases hends with
    | done => cases hexit
    | told hreported htells hlines => exact ⟨_, _, hreported, htells, rfl, hlines⟩
    | escaped => cases hexit

/-- A file that gets another name, next to a directory that is named for the log. -/
def terminalOfLogs : Terminal :=
  ⟨.ofTree ⟨[(["fooBar.ts"], .file ⟨#[]⟩), (["logs"], .directory)]⟩, ["y"], ""⟩

/-- The run is confirmed and renames the file. Then the log cannot be written, and the refusal
escapes. -/
theorem runCommand_misdirected :
    (terminalOfLogs.finished (runCommand ⟨["."], false, true, some "logs", false, false⟩)).1 =
        .failed (.system .isDirectory "/logs" none) ∧
      (terminalOfLogs.finished
        (runCommand ⟨["."], false, true, some "logs", false, false⟩)).2.world.disk.tree =
        ⟨[(["foo-bar.ts"], .file ⟨#[]⟩), (["logs"], .directory)]⟩ := by
  decide +kernel

end Console

end Recase
