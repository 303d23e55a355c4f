import Recase.Proofs.Expected
import Recase.Proofs.Window.Ready

/-!
# When the window is busy

Whether a window takes new work again once the job that it has started has come to its end.

* `World.IsSound`: a world whose files, tokens and version control are what they should be.
* `Job.MeetsMistaken`: a job meets an item that is mistaken. `Job.outcome_cases`: this is when it
  comes to a failure that is not expected.
* `Window.Works`: what an action does to the job at work. `works_afterAll`: it has been started at
  some moment before, and is shown to be in progress.
* `Window.IsStuck`: a window that is busy while no job is at work. No action changes that
  (`IsStuck.step`).
* `isAtRest_afterAll`: a window is at rest after each job but those that meet an item that is
  mistaken, after which it is stuck.
-/

namespace Recase

open Name

/-- The tree is well formed, tokens have the form of tokens, and the tool does not answer that it
was given a text that it does not take. -/
structure World.IsSound (w : World) : Prop extends w.IsRegular where
  isToken : ∀ n, IsToken (w.token n)

namespace Job

/-- The job makes a plan of items one of which is mistaken. -/
def MeetsMistaken (world : World) : Job → Prop
  | .preview roots options => world.FindsMistaken options.ignored roots
  | .convert roots options => world.MeetsMistaken options roots

/-- The job has the roots of a window, and the options that it had on the disk. -/
def IsStartedOn (d : Disk) (job : Job) : Prop :=
  ∃ w : Window, job = .preview w.roots (w.options d) ∨ job = .convert w.roots (w.options d)

variable {world : World} {d : Disk} {job : Job}

/-- The names in the path of its log have no NUL in them. -/
theorem nul_not_mem_logFile (hhere : ∀ n ∈ d.here, IsPlain n) (w : Window) :
    ∀ n ∈ (w.options d).logFile.segments, '\x00' ∉ n.toList := by
  intro n hn
  have hsegments : (w.options d).logFile.segments = d.here ++ [logName] := rfl
  rw [hsegments] at hn
  rcases List.mem_append.mp hn with hn | hn
  · exact (hhere n hn).nul
  · rw [List.mem_singleton.mp hn]
    decide

theorem isNormal_of_mem_roots {w : Window} : ∀ r ∈ w.roots, r.path.IsNormal := by
  intro r hr
  obtain ⟨text, -, rfl⟩ := List.mem_map.mp hr
  exact Path.isNormal_parse text

/-- A job that meets an item that is mistaken comes to a missing suffix. Other jobs only come to
failures that are expected. -/
theorem outcome_cases (h : world.IsSound) (hstarted : job.IsStartedOn d)
    (hhere : ∀ n ∈ d.here, IsPlain n) :
    (job.MeetsMistaken world ∧ job.outcome world = .error .missingSuffix) ∨
      ¬ job.MeetsMistaken world ∧ ∀ failure, job.outcome world = .error failure →
          failure.IsExpected := by
  obtain ⟨w, rfl | rfl⟩ := hstarted
  · obtain ⟨hfinds, hplan⟩ | ⟨hfinds, ⟨plan, hplan⟩ | ⟨failure, hscan, hplan⟩⟩ :=
      preview_cases h.wellFormed h.isToken (w.options d).ignored w.roots
    · exact .inl ⟨hfinds, by rw [outcome, hplan]; rfl⟩
    · exact .inr ⟨hfinds, fun other houtcome => by rw [outcome, hplan] at houtcome; cases houtcome⟩
    · refine .inr ⟨hfinds, fun other houtcome => ?_⟩
      rw [outcome, hplan] at houtcome
      cases houtcome
      exact isExpected_of_scan h.wellFormed isNormal_of_mem_roots hscan
  · obtain ⟨hmeets, hresult⟩ | ⟨hmeets, hall⟩ :=
      run_failure_cases h.toIsRegular h.isToken isNormal_of_mem_roots (nul_not_mem_logFile hhere w)
    · exact .inl ⟨hmeets, by rw [outcome, hresult]; rfl⟩
    · refine .inr ⟨hmeets, fun failure houtcome => hall failure ?_⟩
      rw [outcome] at houtcome
      cases hresult : (run (w.options d) w.roots world).result with
      | ok result => rw [hresult] at houtcome; cases houtcome
      | error other => rw [hresult] at houtcome; cases houtcome; rfl

end Job

namespace Window

variable {w : Window} {world : World} {job : Job} {course : List Moment}

/-! ## The job at work -/

/-- What an action does to the job at work: it leaves none, leaves the one there is, or starts
one. -/
inductive Works (d : Disk) (w w' : Window) : Prop
  | none (hjob : w'.job? = none)
  | same (hjob : w'.job? = w.job?) (hshown : w'.progress.isShown = w.progress.isShown)
  | started {job : Job} (hjob : w'.job? = some job) (hshown : w'.progress.isShown = true)
      (hof : job.IsStartedOn d)

theorem isShown_setValue (bar : ProgressBar) (value : Int) :
    (bar.setValue value).isShown = bar.isShown := by
  unfold ProgressBar.setValue
  split <;> rfl

theorem isShown_setRange (bar : ProgressBar) (low high : Int) :
    (bar.setRange low high).isShown = bar.isShown := by
  unfold ProgressBar.setRange
  split <;> rfl

theorem works_startPreview (w : Window) (d : Disk) : Works d w (w.startPreview d).1 := by
  unfold startPreview
  split
  · exact .same rfl rfl
  · exact .started rfl (isShown_setRange _ _ _) ⟨_, .inl rfl⟩

theorem works_startConversion (w : Window) (d : Disk) (isConfirmed : Bool) :
    Works d w (w.startConversion d isConfirmed).1 := by
  unfold startConversion
  split
  · exact .same rfl rfl
  · split
    · exact .same rfl rfl
    · cases isConfirmed with
      | false => exact .same rfl rfl
      | true => exact .started rfl (isShown_setValue _ _) ⟨_, .inr rfl⟩

theorem works_step (w : Window) (world : World) (action : Action) :
    Works world.disk w (w.step world action).window := by
  cases action with
  | add path =>
    rw [step]
    split
    · unfold enlist
      split <;> exact .same rfl rfl
    · exact .same rfl rfl
  | remove row? =>
    rw [step]
    split <;> exact .same rfl rfl
  | setForce on => exact .same rfl rfl
  | setLog on => exact .same rfl rfl
  | preview =>
    rw [step]
    split
    · exact works_startPreview w world.disk
    · exact .same rfl rfl
  | convert isConfirmed =>
    rw [step]
    split
    · exact works_startConversion w world.disk isConfirmed
    · exact .same rfl rfl
  | wait =>
    cases hjob : w.job? with
    | none => exact .none (by simp [step, hjob])
    | some job =>
      have hends := ends_wait hjob world
      generalize job.outcome world = outcome at hends
      cases hends with
      | shown _ hrests => exact .none hrests.job
      | handled _ _ hrests => exact .none hrests.job
      | unhandled _ _ hlike => exact .none (by rw [hlike])

/-- The job at work has been started at one of the moments of the course, and is shown to be in
progress. -/
theorem works_afterAll (hjob : (afterAll course).job? = some job) :
    (afterAll course).progress.isShown = true ∧ ∃ m ∈ course, job.IsStartedOn m.world.disk := by
  induction course using List.reverseRecOn with
  | nil => cases hjob
  | append_singleton course m ih =>
    rw [afterAll_concat] at hjob ⊢
    cases works_step (afterAll course) m.world m.action with
    | none hnone => cases hnone.symm.trans hjob
    | same hsame hshown =>
      obtain ⟨hbefore, moment, hmem, hof⟩ := ih (hsame ▸ hjob)
      exact ⟨hshown.trans hbefore, moment, List.mem_append_left _ hmem, hof⟩
    | started hstarted hshown hof =>
      cases hstarted.symm.trans hjob
      exact ⟨hshown, m, by simp, hof⟩

/-! ## Work that ends without a word -/

theorem isShown_showAll {α : Type} {shown : Window → α → Window × List Event}
    (h : ∀ (w : Window) a, (shown w a).1.progress.isShown = w.progress.isShown)
    (w : Window) (list : List α) :
    (showAll shown w list).1.progress.isShown = w.progress.isShown := by
  induction list generalizing w with
  | nil => rfl
  | cons a rest ih =>
    rw [showAll]
    exact (ih (shown w a).1).trans (h w a)

/-- A failure that nobody handles changes nothing. -/
theorem window_conclude {α : Type} {shown : Window → α → Window × List Event} {events : List Event}
    {result : Except Failure α} {failure : Failure}
    (h : (conclude shown w world events result).crash? = some failure) :
    (conclude shown w world events result).window = w := by
  cases result with
  | ok a => cases h
  | error other =>
    rw [conclude] at h ⊢
    split
    · rename_i hhandles
      rw [if_pos hhandles] at h
      cases h
    · rfl

/-- What a job has shown that ends with a failure that nobody handles is still shown to be in
progress. -/
theorem isShown_finishJob {failure : Failure} (h : (w.finishJob world job).crash? = some failure) :
    (w.finishJob world job).window.progress.isShown = w.progress.isShown := by
  cases job with
  | preview roots options =>
    rw [finishJob] at h ⊢
    rw [window_conclude h]
    exact isShown_showAll (fun _ _ => rfl) w _
  | convert roots options =>
    rw [finishJob] at h ⊢
    rw [window_conclude h]
    exact isShown_showAll (fun _ _ => isShown_setValue _ _) w _

/-! ## Windows that stay busy -/

/-- No button is enabled, something is shown to be in progress, and no job is at work. -/
structure IsStuck (w : Window) : Prop where
  canAdd : w.canAdd = false
  canRemove : w.canRemove = false
  canPreview : w.canPreview = false
  canConvert : w.canConvert = false
  progress : w.progress.isShown = true
  job : w.job? = none

/-- No action helps a window that is stuck. -/
theorem IsStuck.step (h : w.IsStuck) (world : World) (action : Action) :
    (w.step world action).window.IsStuck := by
  cases action with
  | add path => simpa [Window.step, h.canAdd] using h
  | remove row? => simpa [Window.step, h.canRemove] using h
  | setForce on => exact ⟨h.canAdd, h.canRemove, h.canPreview, h.canConvert, h.progress, h.job⟩
  | setLog on => exact ⟨h.canAdd, h.canRemove, h.canPreview, h.canConvert, h.progress, h.job⟩
  | preview => simpa [Window.step, h.canPreview] using h
  | convert isConfirmed => simpa [Window.step, h.canConvert] using h
  | wait => simpa [Window.step, h.job] using h

theorem IsStuck.afterAll (h : (afterAll course).IsStuck) (later : List Moment) :
    (Window.afterAll (course ++ later)).IsStuck := by
  induction later using List.reverseRecOn with
  | nil => simpa using h
  | append_singleton later m ih =>
    rw [← List.append_assoc, afterAll_concat]
    exact ih.step m.world m.action

theorem handles_of_isExpected {failure : Failure} (h : failure.IsExpected) :
    handles failure = true := by
  rcases h with h | h <;> simp [handles, h]

/-- Once the job at work has come to its end, the window takes new work: the list of directories can
be changed, a preview can be started, and nothing is shown to be in progress. It is otherwise only
if the job has met an item that is mistaken: then nobody handles the failure, and whatever is done
after that, the window stays busy. -/
theorem isAtRest_afterAll (hcourse : ∀ m ∈ course, ∀ n ∈ m.world.disk.here, IsPlain n)
    (hworld : world.IsSound) (hjob : (afterAll course).job? = some job) :
    let s := (afterAll course).step world .wait
    (¬ job.MeetsMistaken world ∧ s.crash? = none ∧ s.window.IsAtRest ∧ s.window.job? = none) ∨
      job.MeetsMistaken world ∧ s.crash? = some .missingSuffix ∧
        ∀ later, (afterAll (course ++ ⟨world, .wait⟩ :: later)).IsStuck := by
  obtain ⟨hshown, m, hm, hof⟩ := works_afterAll hjob
  obtain ⟨hadd, hremove, hpreview, hconvert, -⟩ := (holds_afterAll course).busy job hjob
  have hafter : (afterAll course).step world .wait =
      ({ afterAll course with job? := none } : Window).finishJob world job :=
    step_wait hjob world
  have hends := ends_finishJob { afterAll course with job? := none } world job
  rw [hafter]
  obtain ⟨hmeets, houtcome⟩ | ⟨hmeets, hall⟩ :=
    Job.outcome_cases hworld hof (hcourse m hm)
  · rw [houtcome] at hends
    cases hends with
    | handled hhandles => exact absurd hhandles (by decide)
    | unhandled _ hcrash hlike =>
      have hstuck : (afterAll (course ++ [⟨world, .wait⟩])).IsStuck := by
        have hstill := (isShown_finishJob hcrash).trans hshown
        rw [afterAll_concat, hafter]
        rw [hlike] at hstill ⊢
        exact ⟨hadd, hremove, hpreview, hconvert, hstill, rfl⟩
      refine .inr ⟨hmeets, hcrash, fun later => ?_⟩
      rw [List.append_cons]
      exact hstuck.afterAll later
  · refine .inl ⟨hmeets, ?_⟩
    generalize houtcome : job.outcome world = outcome at hends
    cases hends with
    | shown hcrash hrests => exact ⟨hcrash, hrests.isAtRest, hrests.job⟩
    | handled _ hcrash hrests => exact ⟨hcrash, hrests.isAtRest, hrests.job⟩
    | unhandled hhandles =>
      exact absurd (handles_of_isExpected (hall _ houtcome)) (by simp [hhandles])

theorem isAtRest_afterAll_courseOfOne :
    ((afterAll (courseOfOne [.add ".", .preview, .wait, .convert true])).step
        worldOfOne .wait).window.IsAtRest := by
  have hcourse : ∀ m ∈ courseOfOne [.add ".", .preview, .wait, .convert true],
      ∀ n ∈ m.world.disk.here, IsPlain n := by
    simp [courseOfOne, worldOfOne, World.ofTree]
  have hworld : worldOfOne.IsSound := ⟨⟨by decide, by decide⟩, isToken_tokenText⟩
  have hjob : (afterAll (courseOfOne [.add ".", .preview, .wait, .convert true])).job? =
      some (.convert [.ofText "."] (.default worldOfOne.disk)) := by decide +kernel
  obtain ⟨-, -, hrest, -⟩ | ⟨-, hcrash, -⟩ := isAtRest_afterAll hcourse hworld hjob
  · exact hrest
  · exact absurd hcrash (by decide +kernel)

/-- The world of a file in whose name there is a line feed. -/
def worldOfTwoLines : World := .ofTree ⟨[(["A\nb"], .file ⟨#[]⟩)]⟩

/-- A preview there ends without a word, and no button of the window is enabled again. -/
theorem preview_twoLines :
    let w := afterAll (([.add ".", .preview] : List Action).map (⟨worldOfTwoLines, ·⟩))
    let s := w.step worldOfTwoLines .wait
    w.job? = some (.preview [.ofText "."] (.default worldOfTwoLines.disk)) ∧
      s.crash? = some .missingSuffix ∧ s.window.job? = none ∧ s.window.canAdd = false ∧
      s.window.canRemove = false ∧ s.window.canPreview = false ∧
      s.window.progress.isShown = true := by
  decide +kernel

end Window

end Recase
