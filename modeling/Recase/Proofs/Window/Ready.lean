import Recase.Proofs.Preview
import Recase.Window.Step

/-!
# When Convert is enabled

The window after whatever its user does, each time in whatever world there is then.

* `Window.Resembles`: a window is another but for what no button depends on. `Window.IsAtRest`: it
  takes new work.
* `Window.Rests`: what a finished job leaves of the window that started it, with the plan that it
  shows, if any (`rests_showPlan`, `rests_showResult`, `rests_showFailure`).
* `Window.afterAll`: the window after a course of actions, from its opening on. `Window.Holds`: what
  holds of it; each action keeps that (`Holds.step`), and so it holds after all of them
  (`holds_afterAll`).
* `ready_afterAll`: Convert is enabled only over a plan of the directories listed, shown in the
  table and free of conflicts. No plan outlives those directories, a failed preview, or a
  conversion.
-/

namespace Recase

/-- What a job comes to: the plan that is shown, if any, or a failure. -/
def Job.outcome (world : World) : Job → Except Failure (Option Plan)
  | .preview roots options => (Recase.preview world options.ignored roots).plan.map some
  | .convert roots options => (run options roots world).result.map fun _ => none

theorem Job.exists_of_outcome {world : World} {job : Job} {plan : Plan}
    (h : job.outcome world = .ok (some plan)) :
    ∃ roots options, job = .preview roots options ∧
      (Recase.preview world options.ignored roots).plan = .ok plan := by
  cases job with
  | preview roots options =>
    refine ⟨roots, options, rfl, ?_⟩
    rw [outcome] at h
    cases hplan : (Recase.preview world options.ignored roots).plan with
    | error failure => rw [hplan] at h; cases h
    | ok made => rw [hplan] at h; cases h; rfl
  | convert roots options =>
    rw [outcome] at h
    cases hresult : (run options roots world).result <;> rw [hresult] at h <;> cases h

/-- The job is one of the window. A window has no plan while a preview is made. -/
def Job.IsOf (w : Window) : Job → Prop
  | .preview roots options => roots = w.roots ∧ options.ignored = Name.ignoredNames ∧ w.plan? = none
  | .convert roots options => roots = w.roots ∧ options.ignored = Name.ignoredNames

/-- What a user does, and the world at that time. -/
structure Moment where
  world : World
  action : Action

namespace Window

variable {w w' : Window} {world : World} {plan? : Option Plan} {job : Job}

/-! ## What is shown -/

/-- A window is another but for its options, its status line and its progress. -/
def Resembles (w w' : Window) : Prop :=
  w' = { w with force := w'.force, log := w'.log, status := w'.status, progress := w'.progress }

protected theorem Resembles.refl (w : Window) : w.Resembles w := rfl

protected theorem Resembles.trans {w'' : Window} (h : w.Resembles w') (h' : w'.Resembles w'') :
    w.Resembles w'' := by
  unfold Resembles at *
  rw [h', h]

theorem resembles_showAll {α : Type} {shown : Window → α → Window × List Event}
    (h : ∀ (w : Window) a, w.Resembles (shown w a).1) (w : Window) (list : List α) :
    w.Resembles (showAll shown w list).1 := by
  induction list generalizing w with
  | nil => exact .refl w
  | cons a rest ih =>
    rw [showAll]
    exact (h w a).trans (ih (shown w a).1)

theorem resembles_setStatus (w : Window) (text : String) : w.Resembles (w.setStatus text).1 := rfl

theorem resembles_showVisited (w : Window) (path : String) : w.Resembles (w.showVisited path).1 :=
  resembles_setStatus w _

theorem resembles_showReport (w : Window) (r : Report) : w.Resembles (w.showReport r).1 := by
  have hbar : w.Resembles { w with progress := w.progress.setValue r.percent } := rfl
  exact hbar.trans (resembles_setStatus _ _)

/-- The window takes new work: the list of directories can be changed, a preview can be started, and
nothing is in progress. -/
structure IsAtRest (w : Window) : Prop where
  canAdd : w.canAdd = true
  canRemove : w.canRemove = true
  canPreview : w.canPreview = true
  progress : w.progress.isShown = false

/-- What a finished job leaves of a window, with the plan that it shows. Convert is enabled if there
is one that can be carried out. -/
structure Rests (w : Window) (plan? : Option Plan) (w' : Window) : Prop where
  isAtRest : w'.IsAtRest
  directories : w'.directories = w.directories
  job : w'.job? = w.job?
  plan : w'.plan? = plan?
  table : w'.table = ((plan?.map (·.items)).getD []).map (·.tableRow)
  canConvert : w'.canConvert = plan?.any fun plan => plan.conflicts.isEmpty && !plan.moves.isEmpty

theorem rests_showPlan (w : Window) (plan : Plan) : w.Rests (some plan) (w.showPlan plan).1 := by
  unfold showPlan
  cases hconflicts : plan.conflicts with
  | nil =>
    cases hmoves : plan.moves <;>
      exact ⟨⟨rfl, rfl, rfl, rfl⟩, rfl, rfl, rfl, rfl, by
        simp [hconflicts, hmoves, setStatus, fillTable, withBusy, hasMoves]⟩
  | cons _ _ => exact ⟨⟨rfl, rfl, rfl, rfl⟩, rfl, rfl, rfl, rfl, by simp [hconflicts]⟩

theorem rests_showResult (w : Window) (result : RunResult) : w.Rests none (w.showResult result).1 :=
  ⟨⟨rfl, rfl, rfl, rfl⟩, rfl, rfl, rfl, rfl, rfl⟩

theorem rests_showFailure (w : Window) (failure : Failure) :
    w.Rests none (w.showFailure failure).1 :=
  ⟨⟨rfl, rfl, rfl, rfl⟩, rfl, rfl, rfl, rfl, rfl⟩

/-! ## What a job leaves -/

/-- How the work of a window ends, by what it has come to: the window takes new work, with the plan
that is shown or after a failure that it handles, or nobody handles the failure and the window is as
busy as before. -/
inductive Ends (w : Window) (s : Step) : Except Failure (Option Plan) → Prop
  | shown {plan? : Option Plan} (hcrash : s.crash? = none) (hrests : w.Rests plan? s.window) :
    Ends w s (.ok plan?)
  | handled {failure : Failure} (hhandles : handles failure = true) (hcrash : s.crash? = none)
    (hrests : w.Rests none s.window) : Ends w s (.error failure)
  | unhandled {failure : Failure} (hhandles : handles failure = false)
      (hcrash : s.crash? = some failure)
      (hlike : w.Resembles s.window) : Ends w s (.error failure)

theorem Resembles.rests {w'' : Window} (h : w.Resembles w') (h' : w'.Rests plan? w'') :
    w.Rests plan? w'' := by
  rw [h] at h'
  exact ⟨h'.isAtRest, h'.directories, h'.job, h'.plan, h'.table, h'.canConvert⟩

theorem ends_conclude {α : Type} {shown : Window → α → Window × List Event}
    {shows : α → Option Plan} (hshown : ∀ (w : Window) a, w.Rests (shows a) (shown w a).1)
    (hlike : w.Resembles w') (world : World)
    (events : List Event) (result : Except Failure α) :
    w.Ends (conclude shown w' world events result) (result.map shows) := by
  cases result with
  | ok a => exact .shown rfl (hlike.rests (hshown w' a))
  | error failure =>
    rw [conclude]
    split
    · exact .handled ‹_› rfl (hlike.rests (rests_showFailure w' failure))
    · exact .unhandled (Bool.eq_false_iff.mpr ‹_›) rfl hlike

theorem ends_finishJob (w : Window) (world : World) (job : Job) :
    w.Ends (w.finishJob world job) (job.outcome world) := by
  cases job with
  | preview roots options =>
    exact ends_conclude rests_showPlan (resembles_showAll resembles_showVisited w _) _ _ _
  | convert roots options =>
    exact ends_conclude rests_showResult (resembles_showAll resembles_showReport w _) _ _ _

/-! ## The window after a course of actions -/

/-- The window after a course of actions, from its opening on. -/
def afterAll (course : List Moment) : Window :=
  course.foldl (fun w m => (w.step m.world m.action).window) initial

theorem afterAll_concat (course : List Moment) (m : Moment) :
    afterAll (course ++ [m]) = ((afterAll course).step m.world m.action).window := by
  simp [afterAll]

/-- The plan was made by a preview of the directories that the window lists. -/
def IsMade (course : List Moment) (w : Window) (plan : Plan) : Prop :=
  ∃ m ∈ course, (Recase.preview m.world Name.ignoredNames w.roots).plan = .ok plan

/-- What holds of the window after a course of actions. -/
structure Holds (course : List Moment) (w : Window) : Prop where
  isMade : ∀ plan, w.plan? = some plan → w.IsMade course plan
  ready : w.canConvert = true → ∃ plan, w.plan? = some plan ∧ plan.moves ≠ [] ∧
    plan.conflicts = [] ∧ w.table = plan.items.map (·.tableRow)
  /-- While a job is at work no button is enabled that could start another or change the list. -/
  busy : ∀ job, w.job? = some job → w.canAdd = false ∧ w.canRemove = false ∧ w.canPreview = false ∧
    w.canConvert = false ∧ job.IsOf w

variable {course : List Moment}

theorem holds_initial : initial.Holds [] := by
  constructor <;> simp [initial]

theorem Holds.concat (h : w.Holds course) (m : Moment) : w.Holds (course ++ [m]) := by
  refine ⟨fun plan hplan => ?_, h.ready, h.busy⟩
  obtain ⟨moment, hmem, hmade⟩ := h.isMade plan hplan
  exact ⟨moment, List.mem_append_left _ hmem, hmade⟩

theorem Holds.resembles (h : w.Holds course) (hlike : w.Resembles w') : w'.Holds course := by
  rw [hlike]
  refine ⟨h.isMade, h.ready, fun job hjob => ?_⟩
  obtain ⟨hadd, hremove, hpreview, hconvert, hof⟩ := h.busy job hjob
  exact ⟨hadd, hremove, hpreview, hconvert, by cases job <;> exact hof⟩

/-- A window without a plan, in which no job is at work and Convert is not enabled. -/
theorem holds_of_none (hplan : w.plan? = none) (hconvert : w.canConvert = false)
    (hjob : w.job? = none) :
    w.Holds course :=
  ⟨by simp [hplan], by simp [hconvert], by simp [hjob]⟩

theorem Holds.job_eq_none (h : w.Holds course)
    (henabled : w.canAdd = true ∨ w.canRemove = true ∨ w.canPreview = true ∨ w.canConvert = true) :
    w.job? = none := by
  cases hjob : w.job? with
  | none => rfl
  | some job =>
    obtain ⟨hadd, hremove, hpreview, hconvert, -⟩ := h.busy job hjob
    simp_all

/-- What a finished job leaves holds if the plan was made for the window. -/
theorem Rests.holds (h : w.Rests plan? w') (hjob : w.job? = none)
    (hmade : ∀ plan, plan? = some plan → w.IsMade course plan) : w'.Holds course := by
  have hroots : w'.roots = w.roots := by rw [roots, h.directories, roots]
  refine ⟨fun plan hplan => ?_, fun hconvert => ?_, by simp [h.job, hjob]⟩
  · rw [IsMade, hroots]
    exact hmade plan (h.plan ▸ hplan)
  · rw [h.canConvert] at hconvert
    cases plan? with
    | none => cases hconvert
    | some plan =>
      obtain ⟨hconflicts, hmoves⟩ : plan.conflicts = [] ∧ plan.moves ≠ [] := by simpa using hconvert
      exact ⟨plan, h.plan, hmoves, hconflicts, by simpa using h.table⟩

/-- The window once its job is finished. -/
theorem Holds.finishJob (h : w.Holds course) (hjob : w.job? = some job) (world : World) :
    (({ w with job? := none } : Window).finishJob world job).window.Holds
        (course ++ [⟨world, .wait⟩]) := by
  obtain ⟨-, -, -, -, hof⟩ := h.busy job hjob
  have hidle : ({ w with job? := none } : Window).Holds (course ++ [⟨world, .wait⟩]) :=
    ⟨(h.concat _).isMade, h.ready, by simp⟩
  have hends := ends_finishJob { w with job? := none } world job
  generalize houtcome : job.outcome world = outcome at hends
  cases hends with
  | shown _ hrests =>
    refine hrests.holds rfl fun plan hplan =>
      ⟨_, List.mem_append_right _ (List.mem_singleton_self _), ?_⟩
    obtain ⟨roots, options, rfl, hpreview⟩ := Job.exists_of_outcome (hplan ▸ houtcome)
    obtain ⟨rfl, hignored, -⟩ := hof
    exact hignored ▸ hpreview
  | handled _ _ hrests => exact hrests.holds rfl nofun
  | unhandled _ _ hlike => exact hidle.resembles hlike

theorem Holds.startPreview (h : w.Holds course) (d : Disk) : (w.startPreview d).1.Holds course := by
  unfold Window.startPreview
  split
  · exact h
  · refine ⟨nofun, nofun, fun job hjob => ?_⟩
    cases hjob
    exact ⟨rfl, rfl, rfl, rfl, rfl, rfl, rfl⟩

theorem Holds.startConversion (h : w.Holds course) (d : Disk) (isConfirmed : Bool) :
    (w.startConversion d isConfirmed).1.Holds course := by
  unfold Window.startConversion
  split
  · exact h
  · split
    · exact h
    · cases isConfirmed with
      | false => exact h
      | true =>
        refine ⟨h.isMade, nofun, fun job hjob => ?_⟩
        cases hjob
        exact ⟨rfl, rfl, rfl, rfl, rfl, rfl⟩

/-- Each action keeps what holds of the window. -/
theorem Holds.step (h : w.Holds course) (m : Moment) :
    (w.step m.world m.action).window.Holds (course ++ [m]) := by
  obtain ⟨world, action⟩ := m
  have hsame := h.concat ⟨world, action⟩
  cases action with
  | add path =>
    rw [Window.step]
    split
    · rename_i henabled
      have hjob := h.job_eq_none (.inl henabled)
      unfold enlist
      split
      · exact hsame
      · exact holds_of_none rfl rfl hjob
    · exact hsame
  | remove row? =>
    rw [Window.step]
    split
    · rename_i henabled
      exact holds_of_none rfl rfl (h.job_eq_none (.inr (.inl henabled)))
    · exact hsame
  | setForce on => exact hsame.resembles rfl
  | setLog on => exact hsame.resembles rfl
  | preview =>
    rw [Window.step]
    split
    · exact hsame.startPreview world.disk
    · exact hsame
  | convert isConfirmed =>
    rw [Window.step]
    split
    · exact hsame.startConversion world.disk isConfirmed
    · exact hsame
  | wait =>
    rw [Window.step]
    split
    · exact hsame
    · rename_i job hjob
      exact h.finishJob hjob world

theorem holds_afterAll (course : List Moment) : (afterAll course).Holds course := by
  induction course using List.reverseRecOn with
  | nil => exact holds_initial
  | append_singleton course m ih =>
    rw [afterAll_concat]
    exact ih.step m

theorem step_wait (hjob : w.job? = some job) (world : World) :
    w.step world .wait = ({ w with job? := none } : Window).finishJob world job := by
  simp [step, hjob]

/-- How a wait ends that finishes the job. -/
theorem ends_wait (hjob : w.job? = some job) (world : World) :
    ({ w with job? := none } : Window).Ends (w.step world .wait) (job.outcome world) := by
  rw [step_wait hjob]
  exact ends_finishJob _ world job

theorem directories_startPreview (w : Window) (d : Disk) :
    (w.startPreview d).1.directories = w.directories := by
  unfold startPreview
  split <;> rfl

theorem directories_startConversion (w : Window) (d : Disk) (isConfirmed : Bool) :
    (w.startConversion d isConfirmed).1.directories = w.directories := by
  unfold startConversion
  repeat' split
  all_goals rfl

/-- An action keeps the list of directories, or it leaves no plan. -/
theorem directories_or_plan_step (w : Window) (world : World) (action : Action) :
    (w.step world action).window.directories = w.directories ∨
        (w.step world action).window.plan? = none := by
  cases action with
  | add path =>
    rw [step]
    split
    · unfold enlist
      split
      · exact .inl rfl
      · exact .inr rfl
    · exact .inl rfl
  | remove row? =>
    rw [step]
    split
    · exact .inr rfl
    · exact .inl rfl
  | setForce on => exact .inl rfl
  | setLog on => exact .inl rfl
  | preview =>
    rw [step]
    split
    · exact .inl (directories_startPreview w world.disk)
    · exact .inl rfl
  | convert isConfirmed =>
    rw [step]
    split
    · exact .inl (directories_startConversion w world.disk isConfirmed)
    · exact .inl rfl
  | wait =>
    cases hjob : w.job? with
    | none => exact .inl (by simp [step, hjob])
    | some job =>
      have hends := ends_wait hjob world
      generalize job.outcome world = outcome at hends
      cases hends with
      | shown _ hrests => exact .inl hrests.directories
      | handled _ _ hrests => exact .inl hrests.directories
      | unhandled _ _ hlike => exact .inl (by rw [hlike])

/-- A preview that fails leaves no plan. -/
theorem Holds.plan_of_preview (h : w.Holds course) {roots : List Root} {options : Options}
    {failure : Failure} (hjob : w.job? = some (.preview roots options))
    (hfailure : (Recase.preview world options.ignored roots).plan = .error failure) :
    (w.step world .wait).window.plan? = none := by
  obtain ⟨-, -, -, -, -, -, hnone⟩ := h.busy _ hjob
  have hends := ends_wait hjob world
  rw [Job.outcome, hfailure] at hends
  cases hends with
  | handled _ _ hrests => exact hrests.plan
  | unhandled _ _ hlike =>
    rw [hlike]
    exact hnone

/-- A conversion leaves no plan unless nobody handles its failure. -/
theorem plan_of_convert {roots : List Root} {options : Options}
    (hjob : w.job? = some (.convert roots options)) (hcrash : (w.step world .wait).crash? = none) :
    (w.step world .wait).window.plan? = none := by
  have hends := ends_wait hjob world
  generalize houtcome : Job.outcome world (.convert roots options) = outcome at hends
  cases hends with
  | @shown plan? _ hrests =>
    rw [hrests.plan]
    cases plan? with
    | none => rfl
    | some plan =>
      obtain ⟨_, _, hconvert, -⟩ := Job.exists_of_outcome houtcome
      cases hconvert
  | handled _ _ hrests => exact hrests.plan
  | unhandled _ hcrash' _ => cases hcrash.symm.trans hcrash'

/-- Convert is enabled only over a plan that was made by a preview of the directories listed, has
something to move, has no conflicts, and is what the table shows, while no job is at work. No plan
outlives a change of the list, a preview that fails, or a conversion that ends in a way that is
shown. -/
theorem ready_afterAll (course : List Moment) :
    let w := afterAll course
    (w.canConvert = true → w.job? = none ∧ ∃ plan, w.plan? = some plan ∧ w.IsMade course plan ∧
        plan.moves ≠ [] ∧ plan.conflicts = [] ∧ w.table = plan.items.map (·.tableRow)) ∧
      (∀ world action, (w.step world action).window.directories ≠ w.directories →
        (w.step world action).window.plan? = none) ∧
      (∀ world roots options failure, w.job? = some (.preview roots options) →
        (Recase.preview world options.ignored roots).plan = .error failure →
        (w.step world .wait).window.plan? = none) ∧
      ∀ world roots options, w.job? = some (.convert roots options) →
        (w.step world .wait).crash? = none → (w.step world .wait).window.plan? = none := by
  have h := holds_afterAll course
  refine ⟨fun hconvert => ⟨h.job_eq_none (.inr (.inr (.inr hconvert))), ?_⟩,
    fun world action hchanged => ?_, fun world roots options failure hjob hfailure =>
    h.plan_of_preview hjob hfailure,
    fun world roots options hjob hcrash => plan_of_convert hjob hcrash⟩
  · obtain ⟨plan, hplan, hready⟩ := h.ready hconvert
    exact ⟨plan, hplan, h.isMade plan hplan, hready⟩
  · exact (directories_or_plan_step _ world action).resolve_left hchanged

/-- The world of one directory, whose name needs to be converted. -/
def worldOfOne : World := .ofTree ⟨[(["FooBar"], .directory)]⟩

/-- What a user does in that world. -/
def courseOfOne (actions : List Action) : List Moment := actions.map (⟨worldOfOne, ·⟩)

theorem ready_afterAll_courseOfOne :
    (∃ plan, (afterAll (courseOfOne [.add ".", .preview, .wait])).plan? = some plan ∧
      plan.moves ≠ []) ∧
      ((afterAll (courseOfOne [.add ".", .preview, .wait])).step worldOfOne
        (.remove (some 0))).window.plan? = none ∧
      ((afterAll (courseOfOne [.add "none", .preview])).step worldOfOne .wait).window.plan? = none ∧
      ((afterAll (courseOfOne [.add ".", .preview, .wait, .convert true])).step
        worldOfOne .wait).window.plan? = none := by
  obtain ⟨hready, hlist, -, -⟩ := ready_afterAll (courseOfOne [.add ".", .preview, .wait])
  obtain ⟨-, plan, hplan, -, hmoves, -⟩ := hready (by decide +kernel)
  refine ⟨⟨plan, hplan, hmoves⟩, hlist _ _ (by decide +kernel), ?_, ?_⟩
  · obtain ⟨-, -, hfailed, -⟩ := ready_afterAll (courseOfOne [.add "none", .preview])
    exact hfailed worldOfOne [.ofText "none"] (.default worldOfOne.disk) (.rootMissing "none")
      (by decide +kernel) (by decide +kernel)
  · obtain ⟨-, -, -, hconverted⟩ :=
      ready_afterAll (courseOfOne [.add ".", .preview, .wait, .convert true])
    exact hconverted worldOfOne [.ofText "."] (.default worldOfOne.disk) (by decide +kernel)
      (by decide +kernel)

end Window

end Recase
