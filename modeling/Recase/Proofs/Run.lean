import Recase.Proofs.Course

/-!
# Runs up to the references

* `run_of_plan`: a run that is admitted and has a plan goes on with the stage of the plan.
* `run_cases_of_plan`: a run refuses its plan, ends well with nothing moved, or makes the moves.
  `run_unchanged_or_moves`: only then it changes anything.
* `run_of_dryRun`: a dry run changes nothing.
* `hasRoots_of_admission`, `isPlanOf_of_admission`: the roots that an admitted run has kept, and its
  plan.
* `ReachesUpdate`: a run that makes the moves of its plan itself comes to the stage of the
  references, with the roots that it has kept, its plan, and the world by then.
* `world_updateStage`: where no log is written, a run ends with the references.
* `run_of_reachesUpdate`: the run goes on with that stage. `exists_reachesUpdate`: a run that
  reports the stage has come to it.
-/

namespace Recase

variable {o : Options} {roots : List Root} {w s : World} {kept : List Path} {plan : Plan}
  {standing : Standing} {r : RunResult} {ignored : List String}

theorem after_after (reports more : List Report) (outcome : Outcome) :
    Outcome.after reports (Outcome.after more outcome) =
        Outcome.after (reports ++ more) outcome := by
  simp [Outcome.after]

@[simp] theorem result_after (reports : List Report) (outcome : Outcome) :
    (Outcome.after reports outcome).result = outcome.result := rfl

@[simp] theorem world_after (reports : List Report) (outcome : Outcome) :
    (Outcome.after reports outcome).world = outcome.world := rfl

/-! ## Up to the plan -/

/-- A run that is admitted and has a plan goes on with it. -/
theorem run_of_plan (hadmitted : admission o roots w = .ok (standing, kept))
    (hplan : (preview w o.ignored (kept.map .ofPath)).plan = .ok plan) :
    ∃ reports, run o roots w = .after reports (planStage o kept standing plan
      { w with drawn := (preview w o.ignored (kept.map .ofPath)).drawn }) := by
  rw [run, hadmitted]
  simp only [scanStage, hplan, after_after]
  exact ⟨_, rfl⟩

/-- A plan without items has no moves. -/
theorem moves_of_items_nil (h : (preview w ignored roots).plan = .ok plan)
    (hitems : plan.items = []) :
    plan.moves = [] := by
  obtain ⟨items, warnings, -, -, rfl⟩ := exists_of_preview h
  have hmoves :
      planMoves (fun path => w.disk.hasEntry path.route) w.token w.drawn items = ([], w.drawn) := by
    rw [planMoves, show items.filter (·.changesName) = [] from hitems]
    rfl
  exact congrArg Prod.fst hmoves

theorem planStage_cases (o : Options) (kept : List Path) (standing : Standing) (w : World)
    (hmoves : plan.items = [] → plan.moves = []) :
    (plan.conflicts ≠ [] ∧
        planStage o kept standing plan w = .failed w (.conflicting plan.conflicts)) ∨
      plan.conflicts = [] ∧ ∃ reports r, r.scanned = plan.scanned ∧ r.moves = plan.moves ∧
        ((plan.items = [] ∨ o.dryRun = true) ∧ (∃ message, r.renamed = plan.items ∧
            planStage o kept standing plan w = .after reports (.completed w message r)) ∨
          plan.items ≠ [] ∧ o.dryRun = false ∧
            planStage o kept standing plan w =
              .after reports (moveStage o kept standing r plan w)) := by
  unfold planStage
  by_cases hconflicts : plan.conflicts = []
  · refine .inr ⟨hconflicts, ?_⟩
    by_cases hitems : plan.items = []
    · simp only [hconflicts, hitems, List.isEmpty_nil, Bool.not_true, Bool.false_eq_true,
        if_false, if_true]
      exact ⟨[], _, rfl, (hmoves hitems).symm, .inl ⟨.inl trivial, _, rfl, rfl⟩⟩
    · have hsome : plan.items.isEmpty = false := by simpa using hitems
      simp only [hconflicts, hsome, List.isEmpty_nil, Bool.not_true, Bool.false_eq_true, if_false]
      cases hdry : o.dryRun with
      | true => exact ⟨_, _, rfl, rfl, .inl ⟨.inr rfl, _, rfl, rfl⟩⟩
      | false => exact ⟨_, _, rfl, rfl, .inr ⟨hitems, rfl, rfl⟩⟩
  · exact .inl ⟨hconflicts, by simp [hconflicts]⟩

/-- A run refuses a plan with conflicts. Without any, it ends well with nothing moved if there is
nothing to rename or it is dry, and makes the moves if not. -/
theorem run_cases_of_plan (hadmitted : admission o roots w = .ok (standing, kept))
    (hplan : (preview w o.ignored (kept.map .ofPath)).plan = .ok plan) :
    let s := { w with drawn := (preview w o.ignored (kept.map .ofPath)).drawn }
    (plan.conflicts ≠ [] ∧ ∃ reports,
        run o roots w = .after reports (.failed s (.conflicting plan.conflicts))) ∨
      plan.conflicts = [] ∧ ∃ reports r, r.scanned = plan.scanned ∧ r.moves = plan.moves ∧
        ((plan.items = [] ∨ o.dryRun = true) ∧ (∃ message, r.renamed = plan.items ∧
            run o roots w = .after reports (.completed s message r)) ∨
          plan.items ≠ [] ∧ o.dryRun = false ∧
            run o roots w = .after reports (moveStage o kept standing r plan s)) := by
  intro s
  obtain ⟨reports, hrun⟩ := run_of_plan hadmitted hplan
  obtain ⟨hconflicts, hstage⟩ | ⟨hconflicts, more, r, hscanned, hmoves, hcases⟩ :=
    planStage_cases o kept standing s (moves_of_items_nil hplan)
  · exact .inl ⟨hconflicts, reports, by rw [hrun, hstage]⟩
  · refine .inr ⟨hconflicts, reports ++ more, r, hscanned, hmoves, ?_⟩
    obtain ⟨hends, message, hrenamed, hstage⟩ | ⟨hitems, hreal, hstage⟩ := hcases
    · exact .inl ⟨hends, message, hrenamed, by rw [hrun, hstage, after_after]⟩
    · exact .inr ⟨hitems, hreal, by rw [hrun, hstage, after_after]⟩

/-- A run that makes no moves changes nothing and asks nothing of the version-control tool. -/
theorem run_unchanged_or_moves (o : Options) (roots : List Root) (w : World) :
    ((run o roots w).world.disk = w.disk ∧ (run o roots w).world.git = w.git) ∨
      ∃ standing kept plan reports r, admission o roots w = .ok (standing, kept) ∧
        (preview w o.ignored (kept.map .ofPath)).plan = .ok plan ∧ o.dryRun = false ∧
        run o roots w = .after reports (moveStage o kept standing r plan
          { w with drawn := (preview w o.ignored (kept.map .ofPath)).drawn }) := by
  cases hadmitted : admission o roots w with
  | error failure =>
    rw [run, hadmitted]
    exact .inl ⟨rfl, rfl⟩
  | ok admitted =>
    obtain ⟨standing, kept⟩ := admitted
    cases hplan : (preview w o.ignored (kept.map .ofPath)).plan with
    | error failure =>
      rw [run, hadmitted]
      simp only [scanStage, hplan, world_after]
      exact .inl ⟨rfl, rfl⟩
    | ok plan =>
      obtain ⟨-, reports, hrun⟩ | ⟨-, reports, r, -, -, ⟨-, message, -, hrun⟩ | ⟨-, hreal, hrun⟩⟩ :=
        run_cases_of_plan hadmitted hplan
      · rw [hrun]
        exact .inl ⟨rfl, rfl⟩
      · rw [hrun]
        exact .inl ⟨rfl, rfl⟩
      · exact .inr ⟨standing, kept, plan, reports, r, rfl, hplan, hreal, hrun⟩

theorem run_of_dryRun (hdry : o.dryRun = true) (roots : List Root) (w : World) :
    (run o roots w).world.disk = w.disk ∧ (run o roots w).world.git = w.git := by
  obtain hsame | ⟨-, -, -, -, -, -, -, hreal, -⟩ := run_unchanged_or_moves o roots w
  · exact hsame
  · exact absurd hdry (by simp [hreal])

/-! ## The roots and the plan -/

theorem outermostRoots_of_admission {standing : Standing}
    (h : admission o roots w = .ok (standing, kept)) : outermostRoots w.disk roots = .ok kept := by
  unfold admission at h
  cases hstanding : standingOf w.disk w.git.repositories roots with
  | error failure => rw [hstanding] at h; cases h
  | ok found =>
    cases hsafe : ensureSafe found o.force with
    | error failure =>
      simp only [hstanding, hsafe, bind, Except.bind] at h
      cases h
    | ok _ =>
      cases hroots : outermostRoots w.disk roots with
      | error failure => simp only [hstanding, hsafe, hroots, bind, Except.bind] at h; cases h
      | ok found' =>
        simp only [hstanding, hsafe, hroots, bind, Except.bind, Except.ok.injEq, Prod.mk.injEq] at h
        rw [h.2]

/-- The roots that an admitted run has kept lie in no other, and are all kept again. -/
theorem hasRoots_of_admission {standing : Standing} (ht : w.disk.tree.WellFormed)
    (hnormal : ∀ r ∈ roots, r.path.IsNormal) (h : admission o roots w = .ok (standing, kept)) :
    w.disk.HasRoots kept ∧ (∀ root ∈ kept, w.disk.directoryAt? root = some (w.disk.topAt root)) ∧
      outermostRoots w.disk (kept.map .ofPath) = .ok kept := by
  have hkept := outermostRoots_of_admission h
  have hroots := hasRoots_of_outermostRoots ht hnormal hkept
  have htops : ∀ root ∈ kept, w.disk.directoryAt? root = some (w.disk.topAt root) :=
    fun root hroot => directoryAt?_of_mem_outermostRoots ht hnormal hkept hroot
  exact ⟨hroots, htops, outermostRoots_kept ht hnormal hkept⟩

/-- The plan of an admitted run is that of the roots that it has kept. -/
theorem isPlanOf_of_admission {standing : Standing} (ht : w.disk.tree.WellFormed)
    (hnormal : ∀ r ∈ roots, r.path.IsNormal) (h : admission o roots w = .ok (standing, kept))
    (hplan : (preview w o.ignored (kept.map .ofPath)).plan = .ok plan) :
    IsPlanOf w o.ignored kept plan := by
  obtain ⟨kept', hkept', hplanned⟩ := isPlanOf_of_preview ht hplan
  obtain ⟨-, -, hagain⟩ := hasRoots_of_admission ht hnormal h
  rwa [Except.ok.inj (hkept'.symm.trans hagain)] at hplanned

/-! ## The stage of the references -/

/-- A run that makes the moves itself comes to the stage of the references. -/
structure ReachesUpdate (o : Options) (roots : List Root) (w : World) (kept : List Path)
    (plan : Plan) (s : World) : Prop where
  admitted : ∃ standing, admission o roots w = .ok (standing, kept) ∧
    o.useVersionControl.getD standing.isVersioned = false
  planned : (preview w o.ignored (kept.map .ofPath)).plan = .ok plan
  conflicts : plan.conflicts = []
  items : plan.items ≠ []
  isReal : o.dryRun = false
  done : (execute (World.mover false) none plan.moves
    { w with drawn := (preview w o.ignored (kept.map .ofPath)).drawn }).failure? = none
  world : s = (execute (World.mover false) none plan.moves
    { w with drawn := (preview w o.ignored (kept.map .ofPath)).drawn }).state

/-- Where no log is written, the run ends with the references. -/
theorem world_updateStage (hsilent : o.logging = false) :
    (updateStage o kept r w).world =
        (Source.updateSources w o.extensions o.ignored (kept.map .ofPath)).world := by
  unfold updateStage
  dsimp only
  cases (Source.updateSources w o.extensions o.ignored (kept.map .ofPath)).failure? with
  | some failure => rfl
  | none => simp [logStage, hsilent, Outcome.completed]

/-- Moves that are all made are followed by the stage of the references. -/
theorem moveStage_of_done (kept : List Path) (r : RunResult)
    (hplain : o.useVersionControl.getD standing.isVersioned = false)
    (hdone : (execute (World.mover false) none plan.moves w).failure? = none) :
    ∃ reports r', moveStage o kept standing r plan w =
      .after reports
          (updateStage o kept r' (execute (World.mover false) none plan.moves w).state) := by
  rw [moveStage, hplain, hdone]
  exact ⟨_, _, rfl⟩

/-- A run goes on with the stage of the references that it comes to. -/
theorem run_of_reachesUpdate (h : ReachesUpdate o roots w kept plan s) :
    ∃ reports r, run o roots w = .after reports (updateStage o kept r s) := by
  obtain ⟨standing, hadmitted, hplain⟩ := h.admitted
  obtain ⟨hconflicts, -⟩ | ⟨-, reports, r, -, -, ⟨hends, -⟩ | ⟨-, -, hrun⟩⟩ :=
    run_cases_of_plan hadmitted h.planned
  · exact absurd h.conflicts hconflicts
  · exact absurd hends (by simp [h.items, h.isReal])
  · obtain ⟨last, r', hmoved⟩ := moveStage_of_done kept r hplain h.done
    rw [hrun, hmoved, after_after, ← h.world]
    exact ⟨_, _, rfl⟩

/-- The report with which the stage of the references starts. -/
def Report.updating : Report := ⟨80, "Updating import statements..."⟩

/-- What a move is announced with is another text. -/
theorem message_ne_updating {σ : Type} {mover : Mover σ} {total done : Nat}
    {moves : List Move} {s : σ} {a : Announcement}
    (h : a ∈ (executeFrom mover none total done moves s).announced) :
    a.report ≠ .updating := by
  have harrow : '>' ∈ a.message.toList := by
    induction moves generalizing done s with
    | nil => cases h
    | cons m rest ih =>
      rw [executeFrom] at h
      have hfirst : '>' ∈ (m.source ++ " -> " ++ m.target).toList := by simp
      split at h
      · rw [List.mem_singleton.mp h]
        exact hfirst
      · rcases List.mem_cons.mp h with rfl | h
        · exact hfirst
        · exact ih h
  intro heq
  have hmessage : a.message = "Updating import statements..." := congrArg Report.message heq
  rw [hmessage] at harrow
  exact absurd harrow (by decide)

theorem done_of_updating {standing : Standing} {r : RunResult}
    (hplain : o.useVersionControl.getD standing.isVersioned = false)
    (h : Report.updating ∈ (moveStage o kept standing r plan w).reports) :
    (execute (World.mover false) none plan.moves w).failure? = none := by
  rw [moveStage, hplain] at h
  simp only [Outcome.after, List.mem_append, List.mem_cons, List.mem_map] at h
  rcases h with (hfirst | ⟨a, ha, hreport⟩) | hrest
  · simp [Report.updating] at hfirst
  · exact absurd hreport (message_ne_updating ha)
  · split at hrest
    · simp [Outcome.failed] at hrest
    · assumption

/-- A run that makes the moves itself and reports the stage of the references has come to it. -/
theorem exists_reachesUpdate
    (hplain : ∀ standing kept, admission o roots w = .ok (standing, kept) →
      o.useVersionControl.getD standing.isVersioned = false)
    (h : Report.updating ∈ (run o roots w).reports) :
    ∃ kept plan s, ReachesUpdate o roots w kept plan s := by
  unfold run at h
  cases hadmitted : admission o roots w with
  | error failure => rw [hadmitted] at h; simp [Outcome.after, Outcome.failed, Report.updating] at h
  | ok admitted =>
    obtain ⟨standing, kept⟩ := admitted
    have hversion := hplain standing kept hadmitted
    rw [hadmitted] at h
    simp only [Outcome.after, scanStage] at h
    cases hplan : (preview w o.ignored (kept.map .ofPath)).plan with
    | error failure => rw [hplan] at h; simp [Outcome.failed, Report.updating] at h
    | ok plan =>
      rw [hplan] at h
      simp only [planStage] at h
      by_cases hconflicts : plan.conflicts = []
      · by_cases hitems : plan.items = []
        · simp [hconflicts, hitems, Outcome.completed, Report.updating] at h
        · cases hdry : o.dryRun with
          | true =>
            simp [hconflicts, hitems, hdry, Outcome.after, Outcome.completed, Report.updating] at h
          | false =>
            simp [hconflicts, hitems, hdry, Outcome.after, Report.updating] at h
            exact ⟨kept, plan, _, ⟨standing, hadmitted, hversion⟩, hplan, hconflicts, hitems, hdry,
              done_of_updating hversion h, rfl⟩
      · simp [hconflicts, Outcome.failed, Report.updating] at h

end Recase
