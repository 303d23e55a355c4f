import Recase.Proofs.Console.Command
import Recase.Proofs.Text.Lowercase

/-!
# No change without consent

* `IsConsent`: the lines that a menu takes for a consent, whatever it asks for when it reads them.
* `Refrains`: a session that leaves the disk and version control as they are, as long as no line
  that is left is a consent. All menus do (`refrains_menu`), for the questions before a run and the
  choice of a recovery are answered by such lines alone.
* `runCommand_unchanged`: the command of a run changes nothing if it is dry, or is neither told not
  to ask nor answered by a yes.
* `unchanged_without_consent`: so no program of the command line changes anything without consent.
-/

namespace Recase.Console

open Text

variable {t : Terminal} {a : RunArguments} {d : Disk} {git : Git}

/-! ## Questions -/

/-- A line that is a yes, or the choice of a recovery. -/
def IsConsent (line : String) : Prop := trim line = "y" ∨ trim line = "Y" ∨ trim line = "3"

instance (line : String) : Decidable (IsConsent line) := inferInstanceAs (Decidable (_ ∨ _))

/-- The disk and what is known of version control are what they were, and no line that is left is a
consent. -/
structure Terminal.Withholds (d : Disk) (git : Git) (t : Terminal) : Prop where
  disk : t.world.disk = d
  git : t.world.git = git
  input : ∀ line ∈ t.input, ¬ IsConsent line

/-- The session leaves the disk and version control as they are, as long as consent is withheld. -/
abbrev Refrains (d : Disk) (git : Git) {α : Type} (s : Session α) (Q : α → Prop) : Prop :=
  Keeps (Terminal.Withholds d git) s Q

theorem refrains_print (text : String) : Refrains d git (print text) fun _ => True :=
  fun _ h => ⟨⟨h.disk, h.git, h.input⟩, trivial⟩

theorem refrains_ask (prompt : String) : Refrains d git (ask prompt) fun line =>
  ¬ IsConsent line := by
  intro t h
  cases hinput : t.input with
  | nil =>
    rw [run_ask_nil prompt hinput]
    exact ⟨h.disk, h.git, h.input⟩
  | cons line rest =>
    have hall := h.input
    rw [hinput, List.forall_mem_cons] at hall
    rw [run_ask_cons prompt hinput]
    exact ⟨⟨h.disk, h.git, hall.2⟩, hall.1⟩

theorem refrains_askTrimmed (prompt : String) :
    Refrains d git (askTrimmed prompt) fun text => text ≠ "y" ∧ text ≠ "Y" ∧ text ≠ "3" :=
  (refrains_ask prompt).bind fun line hline => .pure (by simpa [IsConsent] using hline)

/-- No answer is a yes, and none is the choice of a recovery. -/
theorem refrains_askAnswer (prompt : String) :
    Refrains d git (askAnswer prompt) fun answer => answer ≠ "y" ∧ answer ≠ "3" := by
  refine (refrains_askTrimmed prompt).bind fun text ⟨hsmall, hcapital, hthree⟩ =>
    .pure ⟨fun hyes => ?_, fun hchoice => ?_⟩
  · rcases eq_of_lowercase_eq_y hyes with h | h
    · exact hsmall h
    · exact hcapital h
  · exact hthree (eq_of_lowercase_eq_three hchoice)

theorem refrains_askYes (question : String) :
    Refrains d git (askYes question) fun yes => yes = false :=
  (refrains_askAnswer _).bind fun answer h => .pure (by simpa using h.1)

theorem refrains_pause (prompt : String) : Refrains d git (pause prompt) fun _ => True :=
  (refrains_ask prompt).bind fun _ _ => .pure trivial

theorem refrains_reported {α : Type} (isExpected : Failure → Bool) (result : Except Failure α) :
    Refrains d git (reported isExpected result) fun _ => True := by
  unfold reported
  split
  · exact .pure trivial
  · split
    · exact .pure trivial
    · exact .throw _

theorem refrains_orEnd {α : Type} (result : Except Failure α) :
    Refrains d git (orEnd result) fun _ => True := by
  unfold orEnd
  split
  · exact .pure trivial
  · exact .throw _

/-- A plan draws tokens, and does nothing else. -/
theorem refrains_previewRoots (ignored : List String) (roots : List Root) :
    Refrains d git (previewRoots ignored roots) fun _ => True :=
  fun _ h => ⟨⟨h.disk, h.git, h.input⟩, trivial⟩

theorem refrains_gatedPlan (o : Options) (roots : List Root) :
    Refrains d git (gatedPlan o roots) fun _ => True := by
  have hgate : Refrains d git (gateRoots o.force roots) fun _ => True := fun _ h => ⟨h, trivial⟩
  refine hgate.bind fun result _ => ?_
  split
  · exact .pure trivial
  · exact refrains_previewRoots _ _

/-! ## Menus -/

theorem refrains_world : Refrains d git world fun _ => True := fun _ h => ⟨h, trivial⟩

theorem refrains_askDirectoriesWithin (typed : List Path) (turns : Nat) :
    Refrains d git (askDirectoriesWithin typed turns) fun _ => True := by
  induction turns generalizing typed with
  | zero => exact .throw _
  | succ turns ih =>
    refine (refrains_askTrimmed _).bind fun text _ => ?_
    split
    · exact .pure trivial
    split
    · split
      · exact ih typed
      · exact .pure trivial
    refine refrains_world.bind fun w _ => (refrains_orEnd _).bind fun found _ => ?_
    dsimp only
    split
    · exact ih _
    · exact (refrains_print _).bind fun _ _ => ih typed

theorem refrains_askDirectories : Refrains d git askDirectories fun _ => True :=
  fun t h => refrains_askDirectoriesWithin [] _ t h

theorem refrains_previewMenu : Refrains d git previewMenu fun _ => True := by
  refine (refrains_print _).bind fun _ _ => refrains_askDirectories.bind fun directories _ => ?_
  split
  · exact .pure trivial
  refine (refrains_print _).bind fun _ _ => (refrains_previewRoots _ _).bind fun plan _ =>
    (refrains_reported _ _).bind fun result _ => ?_
  split
  · exact (refrains_print _).bind fun _ _ => refrains_pause _
  split
  · exact (refrains_print _).bind fun _ _ => refrains_pause _
  · exact (refrains_print _).bind fun _ _ => refrains_pause _

/-- No run is confirmed. -/
theorem refrains_convertPlanned (o : Options) (roots : List Root) (plan : Plan) :
    Refrains d git (convertPlanned o roots plan) fun _ => True := by
  unfold convertPlanned
  split
  · exact (refrains_print _).bind fun _ _ => refrains_pause _
  refine (refrains_print _).bind fun _ _ => ?_
  split
  · exact (refrains_print _).bind fun _ _ => refrains_pause _
  refine (refrains_print _).bind fun _ _ => (refrains_askYes _).bind fun yes hno => ?_
  rw [hno, if_neg Bool.false_ne_true]
  exact (refrains_print _).bind fun _ _ => refrains_pause _

theorem refrains_convertMenu : Refrains d git convertMenu fun _ => True := by
  refine (refrains_print _).bind fun _ _ => refrains_askDirectories.bind fun directories _ => ?_
  split
  · exact .pure trivial
  refine (refrains_askYes _).bind fun force _ => (refrains_askYes _).bind fun logging _ =>
    refrains_world.bind fun w _ => (refrains_gatedPlan _ _).bind fun plan _ =>
      (refrains_reported _ _).bind fun result _ => ?_
  split
  · exact (refrains_print _).bind fun _ _ => refrains_pause _
  · exact refrains_convertPlanned _ _ _

/-- No recovery is chosen. -/
theorem refrains_menuWithin (turns : Nat) : Refrains d git (menuWithin turns) fun _ => True := by
  induction turns with
  | zero => exact .throw _
  | succ turns ih =>
    refine (refrains_print _).bind fun _ _ => (refrains_print _).bind fun _ _ =>
      (refrains_askAnswer _).bind fun choice ⟨_, hchoice⟩ => ?_
    split
    · exact (refrains_print _).bind fun _ _ => .pure trivial
    -- the choice of a recovery is not among the cases, for it has not been made
    dsimp only
    split
    · exact refrains_previewMenu.bind fun _ _ => ih
    split
    · exact refrains_convertMenu.bind fun _ _ => ih
    · exact (refrains_print _).bind fun _ _ => (refrains_pause _).bind fun _ _ => ih

theorem refrains_menu : Refrains d git menu fun _ => True := fun t h => refrains_menuWithin _ t h

/-! ## The command of a run -/

/-- The terminal after the command of a run that is dry, or is neither told not to ask nor answered
by a yes, has the disk and version control that it had before. -/
theorem runCommand_unchanged
    (h : a.dryRun = true ∨ a.yes = false ∧ t.input.head?.map answerOf ≠ some "y") :
    (t.finished (runCommand a)).2.world.disk = t.world.disk ∧
      (t.finished (runCommand a)).2.world.git = t.world.git := by
  rw [finished_snd, run_runCommand]
  cases logFileAt t.world.disk a.logFile with
  | error failure => exact ⟨rfl, rfl⟩
  | ok logFile =>
    dsimp only
    split
    · rename_i hunasked
      have hdry : a.dryRun = true := by
        rcases h with h | ⟨h, -⟩
        · exact h
        · simpa [h] using hunasked
      rw [(concluded_performRun _ _ t).world]
      exact run_of_dryRun hdry a.roots t.world
    · rename_i hasks
      have hno : t.input.head?.map answerOf ≠ some "y" := by
        rcases h with h | ⟨-, h⟩
        · simp [h] at hasks
        · exact h
      obtain ⟨drawn, hasked⟩ := asked_confirmRun (a.options t.world.disk logFile) a.roots t
      generalize (confirmRun (a.options t.world.disk logFile) a.roots).run t = result at hasked
      have hworld := hasked.world
      cases hasked with
      | confirmed hyes => exact absurd hyes hno
      | refused | broken | conflicting | declined | silent =>
        rw [terminalOf] at hworld
        exact ⟨congrArg (·.disk) hworld, congrArg (·.git) hworld⟩

/-- Nothing is changed, and nothing asked of version control, without consent. A run changes nothing
if it is dry, whatever the input, and otherwise only if it is told not to ask or the first line read
is a yes. The menu changes nothing, however it ends, if no line of the input is a yes or a three. -/
theorem unchanged_without_consent (t : Terminal) :
    (∀ arguments a, readArguments arguments = .command (.run a) →
      a.dryRun = true ∨ a.yes = false ∧ t.input.head?.map answerOf ≠ some "y" →
        (commandLine arguments t).2.world.disk = t.world.disk ∧
          (commandLine arguments t).2.world.git = t.world.git) ∧
      ((∀ line ∈ t.input, ¬ IsConsent line) →
        (t.finished menu).2.world.disk = t.world.disk ∧
            (t.finished menu).2.world.git = t.world.git) := by
  refine ⟨fun arguments a harguments h => ?_, fun hinput => ?_⟩
  · rw [commandLine, harguments]
    exact runCommand_unchanged h
  · have hafter := refrains_menu.terminalOf ⟨rfl, rfl, hinput⟩
    rw [finished_snd]
    exact ⟨hafter.disk, hafter.git⟩

/-- A world of a file that gets another name. -/
def worldOfName : World := .ofTree ⟨[(["fooBar.ts"], .file ⟨#[]⟩)]⟩

/-- A run is asked for and cancelled, at the command line and in the menu. -/
theorem unchanged_without_consent_cancelled :
    (commandLine ["run", "."] ⟨worldOfName, ["no"], ""⟩).2.world.disk = worldOfName.disk ∧
      (commandLine ["run", "."] ⟨worldOfName, ["no"], ""⟩).1 = .exit 0 ∧
      ((⟨worldOfName, ["2", ".", "", "n", "", "yes", "", "q"], ""⟩ : Terminal).finished
        menu).2.world.disk = worldOfName.disk ∧
      ((⟨worldOfName, ["2", ".", "", "n", "", "yes", "", "q"], ""⟩ : Terminal).finished menu).1 =
          .exit 0 := by
  have hrun := (unchanged_without_consent ⟨worldOfName, ["no"], ""⟩).1 ["run", "."]
    ⟨["."], false, false, some defaultLogFile, false, false⟩ (by decide +kernel)
      (.inr ⟨rfl, by decide +kernel⟩)
  have hmenu :=
    (unchanged_without_consent ⟨worldOfName, ["2", ".", "", "n", "", "yes", "", "q"], ""⟩).2
      (by decide +kernel)
  exact ⟨hrun.1, by decide +kernel, hmenu.1, by decide +kernel⟩

/-- A yes is one in either case and with blanks around it. -/
example : (commandLine ["run", "."] ⟨worldOfName, [" Y "], ""⟩).2.world.disk.tree.entries =
    [(["foo-bar.ts"], .file ⟨#[]⟩)] := by
  decide +kernel

end Recase.Console
