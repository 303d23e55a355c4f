import Recase.Proofs.Leftover
import Recase.Proofs.Plan.Mistaken
import Recase.Proofs.Present

/-!
# The failures that a run can end with

* `Failure.IsExpected`: a failure that is reported, or a refusal of the system.
* `isExpected_of_outermostRoots`, `isExpected_of_admission`: what keeps a run from its scan is
  expected, for the path of what is there can be settled.
* `World.IsRegular`: a world in which moves can be asked for. `IsRegular.of_mover`: a move of a plan
  leaves it so, and if it fails that is expected. `isExpected_of_execute`: so are the failures of
  all moves.
* `isExpected_of_save`: so are those of a log, if no name in the path of its file has a NUL in it.
* `Source.updateFile_ne_embeddedNul`: the source files that are found have no NUL in their paths
  either.
* `run_failure_cases`: a run ends with a result, with a failure that is expected, or with a missing
  suffix.
-/

namespace Recase

open Name Recase.Tree

/-- The failure is reported to the user, or a refusal of the system. -/
def Failure.IsExpected (failure : Failure) : Prop :=
  failure.isReported = true ∨ failure.isSystem = true

variable {w w' s : World} {d : Disk} {roots : List Root} {root : Path} {kept : List Path}
  {failure : Failure} {names : List String} {route : Route} {m : Move} {moves : List Move}
  {useVersionControl : Bool} {o : Options}

/-! ## Before the scan -/

theorem Root.isExpected_of_isPresent {r : Root} (h : r.isPresent d = .error failure) :
    failure.IsExpected := by
  unfold isPresent at h
  split at h <;> cases h
  exact .inr rfl

theorem Root.isExpected_of_check {r : Root} (h : r.check d = .error failure) :
    failure.IsExpected := by
  unfold check at h
  split at h
  · cases h
    exact isExpected_of_isPresent ‹_›
  · cases h
    exact .inl rfl
  · split at h <;> cases h
    · exact .inr rfl
    · exact .inl rfl

theorem Root.isExpected_of_located {r : Root} (ht : d.tree.WellFormed) (hr : r.path.IsNormal)
    (h : r.located d = .error failure) : failure.IsExpected := by
  unfold located at h
  cases hcheck : r.check d with
  | error other =>
    rw [hcheck] at h
    cases h
    exact isExpected_of_check hcheck
  | ok _ =>
    obtain ⟨top, htop⟩ := check_eq_ok_iff.mp hcheck
    rw [hcheck, Disk.resolved, Disk.resolve_of_directoryAt? ht hr htop] at h
    cases h

/-- Roots that are not sorted out have one among them that is rejected or cannot be looked up. -/
theorem isExpected_of_outermostRoots (ht : d.tree.WellFormed)
    (hroots : ∀ r ∈ roots, r.path.IsNormal) (h : outermostRoots d roots = .error failure) :
    failure.IsExpected := by
  obtain ⟨root, hroot, herror⟩ := exists_of_outermostRoots_eq_error h
  exact Root.isExpected_of_located ht (hroots root hroot) herror

/-- Something may be at a root that is no directory. -/
theorem isExpected_of_standingFrom (ht : d.tree.WellFormed) {find : Finder} {status : WorkStatus}
    (hroots : ∀ r ∈ roots, r.path.IsNormal)
    (h : standingFrom d find status roots = .error failure) :
    failure.IsExpected := by
  induction roots generalizing status with
  | nil => cases h
  | cons r rest ih =>
    rw [List.forall_mem_cons] at hroots
    rw [standingFrom] at h
    cases hpresent : r.isPresent d with
    | error other =>
      rw [hpresent] at h
      cases h
      exact Root.isExpected_of_isPresent hpresent
    | ok found =>
      rw [hpresent] at h
      cases found with
      | false =>
        cases h
        exact .inl rfl
      | true =>
        have hthere : d.isPresent r.path = .ok true := by
          unfold Root.isPresent at hpresent
          split at hpresent <;> cases hpresent
          assumption
        obtain ⟨place, hresolve⟩ := Disk.exists_resolve ht hroots.1 hthere
        simp only [bind, Except.bind, if_true, Disk.resolved, hresolve] at h
        split at h
        · cases h
        · split at h
          · cases h
          · exact ih hroots.2 h

theorem isExpected_of_admission (ht : w.disk.tree.WellFormed)
    (hroots : ∀ r ∈ roots, r.path.IsNormal) (h : admission o roots w = .error failure) :
    failure.IsExpected := by
  unfold admission at h
  cases hstanding : standingOf w.disk w.git.repositories roots with
  | error other =>
    rw [hstanding] at h
    cases h
    exact isExpected_of_standingFrom ht hroots hstanding
  | ok standing =>
    rw [hstanding] at h
    cases hsafe : ensureSafe standing o.force with
    | error other =>
      simp only [bind, Except.bind, hsafe] at h
      cases h
      unfold ensureSafe at hsafe
      split at hsafe
      · split at hsafe <;> cases hsafe
        exact .inl rfl
      · cases hsafe
    | ok _ =>
      cases hkept : outermostRoots w.disk roots with
      | error other =>
        simp only [bind, Except.bind, hsafe, hkept] at h
        cases h
        exact isExpected_of_outermostRoots ht hroots hkept
      | ok kept =>
        simp only [bind, Except.bind, hsafe, hkept] at h
        cases h

/-! ## The scan -/

theorem isExpected_of_scan {ignored : List String} (ht : d.tree.WellFormed)
    (hroots : ∀ r ∈ roots, r.path.IsNormal) (h : (scan d ignored roots).items = .error failure) :
    failure.IsExpected := by
  cases hkept : outermostRoots d roots with
  | error other =>
    rw [scan, hkept] at h
    cases h
    exact isExpected_of_outermostRoots ht hroots hkept
  | ok kept =>
    obtain ⟨hitems, -⟩ | ⟨e, -, listing, -, hlisting, hitems⟩ := scan_cases hkept ignored
    · cases h.symm.trans hitems
    · cases h.symm.trans hitems
      unfold listingFailure? at hlisting
      dsimp only at hlisting
      split at hlisting <;> cases hlisting
      exact .inr rfl

/-! ## Moves -/

/-- The tree of the world is well formed, and the tool does not answer that it was given a text that
it does not take. -/
structure World.IsRegular (w : World) : Prop where
  wellFormed : w.disk.tree.WellFormed
  answers : some .unspeakable ∉ w.git.answers

/-- The roots can be named to the system: their paths are normal and have no NUL in them. -/
def Path.AreSpeakable (kept : List Path) : Prop :=
  ∀ root ∈ kept, root.IsNormal ∧ root.route.hasNul = false

theorem Route.hasNul_eq_false_iff :
    route.hasNul = false ↔ ∀ n ∈ route.names, '\x00' ∉ n.toList := by
  simp [Route.hasNul]

/-- Plain names below a root bring no NUL into the routes to what they lead to. -/
theorem IsRouteTo.hasNul (h : IsRouteTo root names route) (hroot : root.IsNormal)
    (hnul : root.route.hasNul = false) (hne : names ≠ []) (hnames : ∀ n ∈ names, IsPlain n) :
    route.hasNul = false := by
  cases h with
  | below => exact Path.hasNul_below hnul hne hnames
  | walked =>
    rw [Route.hasNul_eq_false_iff, Path.names_walkedRoute hne hnames]
    intro n hn hc
    rcases List.mem_append.mp hn with hn | hn
    · -- the step is none that is passed over, so it is one of the path
      have htaken : isTaken n = true := by
        by_contra hskip
        rcases isTaken_eq_false_iff.mp (Bool.eq_false_iff.mpr hskip) with rfl | rfl
        · cases hc
        · exact absurd hc (by decide)
      have hmem : n ∈ (Route.ofText root.toString).names.filter isTaken :=
        List.mem_filter.mpr ⟨hn, htaken⟩
      rw [filter_names_ofText, Path.filter_segments_toString hroot] at hmem
      have hroute : n ∈ root.route.names.filter isTaken := by rwa [Path.filter_names_route hroot]
      exact Route.hasNul_eq_false_iff.mp hnul n (List.mem_filter.mp hroute).1 hc
    · exact (hnames n hn).nul hc

theorem Disk.rename_ne_embeddedNul {src dst : Route} (hsrc : src.hasNul = false)
    (hdst : dst.hasNul = false) :
    d.rename src dst ≠ .error .embeddedNul := by
  unfold rename
  rw [hsrc, hdst]
  split
  · simp at *
  · split <;> simp

theorem MoveReply.failure?_ne_embeddedNul {reply : MoveReply} (h : reply ≠ .unspeakable) :
    reply.failure? m ≠ some .embeddedNul := by
  unfold failure?
  split <;> simp at *

/-- The tool takes the texts of routes without a NUL. -/
theorem Disk.toolMove_ne_unspeakable {call : MoveCall}
    (hsrc : (Route.ofText (PathText.joinText call.directory call.source)).hasNul = false)
    (hdst : (Route.ofText (PathText.joinText call.directory call.target)).hasNul = false) :
    (d.toolMove call).1 ≠ .unspeakable := by
  unfold toolMove
  dsimp only
  split
  · simp [complaint]
  split
  · simp [complaint]
  split
  · simp
  · simp
  · exact fun _ => rename_ne_embeddedNul hsrc hdst ‹_›

/-- The tool keeps the tree well formed. -/
theorem Disk.wellFormed_toolMove {front : List String} {y : String} (ht : d.tree.WellFormed)
    (hy : ∀ n ∈ front ++ [y], IsPlain n) (source : String) :
    (d.toolMove ⟨source, pathText (front ++ [y]), root.toString⟩).2.tree.WellFormed := by
  obtain ⟨_, _, -, hrename⟩ | ⟨-, hsame⟩ :=
    isHonestTool_toolMove ⟨source, pathText (front ++ [y]), root.toString⟩ d
  · rw [← Path.walkedRoute_eq (show front ++ [y] ≠ [] by simp)] at hrename
    exact IsRouteTo.walked.wellFormed hy ht hrename
  · have hd : (d.toolMove ⟨source, pathText (front ++ [y]), root.toString⟩).2 = d := hsame
    rwa [hd]

namespace World.IsRegular

variable (h : w.IsRegular) (hkept : Path.AreSpeakable kept) (hm : m.IsWithin kept)
include h hkept hm

theorem of_directMove {failure? : Option Failure}
    (hmove : World.mover false m m.root w = (w', failure?)) :
    w'.IsRegular ∧ failure? ≠ some .embeddedNul := by
  obtain ⟨hroot, hx, hy, -⟩ := hm
  obtain ⟨hnormal, hnul⟩ := hkept _ hroot
  have hsrc := IsRouteTo.below.hasNul hnormal hnul (by simp) hx
  have hdst := IsRouteTo.below.hasNul hnormal hnul (by simp) hy
  rw [World.mover_false] at hmove
  obtain ⟨rfl, hfailure⟩ := Prod.mk.inj hmove
  generalize hdirect : Recase.directMove _ _ w.disk = result at hfailure ⊢
  obtain ⟨d', failure?'⟩ := result
  obtain rfl : failure?' = failure? := hfailure
  have hsame : ∀ failure, failure?' = some failure → ({ w with disk := d' } : World).IsRegular := by
    rintro failure rfl
    rw [directMove_eq_of_some hdirect]
    exact h
  have hcases := directMove_cases hdirect
  simp only [Path.joinText_pathText _ hx, Path.joinText_pathText _ hy] at hcases
  obtain ⟨failure, hblocked, -⟩ | ⟨-, rfl⟩ |
    ⟨-, ⟨hrename, rfl⟩ | ⟨hrename, -⟩ | ⟨errno, text, -, rfl⟩⟩ := hcases
  · exact absurd hblocked (isBlocked_ne_error hsrc hdst)
  · exact ⟨hsame _ rfl, by simp [directFailure]⟩
  · exact ⟨⟨IsRouteTo.below.wellFormed hy h.wellFormed hrename, h.answers⟩, by simp⟩
  · exact absurd hrename (Disk.rename_ne_embeddedNul hsrc hdst)
  · exact ⟨hsame _ rfl, by simp [directFailure]⟩

theorem of_versionedMove {failure? : Option Failure}
    (hmove : World.mover true m m.root w = (w', failure?)) :
    w'.IsRegular ∧ failure? ≠ some .embeddedNul := by
  obtain ⟨hroot, hx, hy, -⟩ := hm
  obtain ⟨hnormal, hnul⟩ := hkept _ hroot
  have hsrc := IsRouteTo.walked.hasNul hnormal hnul (by simp) hx
  have hdst := IsRouteTo.walked.hasNul hnormal hnul (by simp) hy
  rw [World.mover_true] at hmove
  obtain ⟨rfl, rfl⟩ := Prod.mk.inj hmove
  have hanswers : some .unspeakable ∉ w.git.answers.drop 1 :=
    fun hmem => h.answers (List.mem_of_mem_drop hmem)
  rw [Path.walkedRoute_eq (by simp)] at hsrc hdst
  unfold World.callTool
  dsimp only
  split
  · rename_i reply hreply
    have hspeakable : reply ≠ .unspeakable := by
      rintro rfl
      exact h.answers (List.mem_of_mem_head? (Option.join_eq_some_iff.mp hreply))
    exact ⟨⟨h.wellFormed, hanswers⟩, MoveReply.failure?_ne_embeddedNul hspeakable⟩
  · exact ⟨⟨Disk.wellFormed_toolMove h.wellFormed hy _, hanswers⟩,
      MoveReply.failure?_ne_embeddedNul (Disk.toolMove_ne_unspeakable hsrc hdst)⟩

/-- A move of a plan. -/
theorem of_mover {failure? : Option Failure}
    (hmove : World.mover useVersionControl m m.root w = (w', failure?)) :
    w'.IsRegular ∧ failure? ≠ some .embeddedNul := by
  cases useVersionControl with
  | false => exact h.of_directMove hkept hm hmove
  | true => exact h.of_versionedMove hkept hm hmove

end World.IsRegular

/-- Moves of a plan leave the world regular. -/
theorem World.IsRegular.performed (h : w.IsRegular) (hkept : Path.AreSpeakable kept)
    (hmoves : ∀ m ∈ moves, m.IsWithin kept)
    (hperformed : Performed (World.mover useVersionControl) moves w s) :
    s.IsRegular := by
  induction hperformed with
  | nil => exact h
  | cons hmove _ ih =>
    rw [List.forall_mem_cons] at hmoves
    exact ih (h.of_mover hkept hmoves.1 hmove).1 hmoves.2

/-- What is expected of the moves of a plan, whichever of them fails. -/
theorem isExpected_of_execute (h : w.IsRegular) (hkept : Path.AreSpeakable kept)
    (hmoves : ∀ m ∈ moves, m.IsWithin kept)
    (hfails : (execute (World.mover useVersionControl) none moves w).failure? = some failure) :
    failure.IsExpected := by
  obtain ⟨before, m, after, s', rfl, hperformed, hfailed⟩ := execute_of_some hfails
  have hs := h.performed hkept (fun m hm => hmoves m (by simp [hm])) hperformed
  obtain ⟨f, rfl⟩ | rfl := World.failure_of_mover hfailed
  · exact .inl rfl
  · exact absurd rfl (hs.of_mover hkept (hmoves m (by simp)) hfailed).2

/-! ## The log -/

/-- A path without a NUL. -/
theorem Path.hasNul_route {path : Path} (h : ∀ n ∈ path.segments, '\x00' ∉ n.toList) :
    path.route.hasNul = false := by
  rw [Route.hasNul_eq_false_iff]
  intro n hn
  unfold route at hn
  dsimp only at hn
  split at hn
  · rw [List.mem_singleton.mp hn]
    decide
  · exact h n hn

theorem Disk.makeDirectory_ne_embeddedNul {path : Path} (h : path.route.hasNul = false) :
    d.makeDirectory path ≠ .error .embeddedNul := by
  unfold makeDirectory
  rw [h]
  simp only [Bool.false_eq_true, if_false]
  split <;> simp

theorem Disk.write_ne_embeddedNul {path : Path} (h : path.route.hasNul = false)
    (content : ByteArray) :
    d.write path content ≠ .error .embeddedNul := by
  unfold write
  rw [h]
  simp only [Bool.false_eq_true, if_false]
  split <;> simp

theorem Disk.ensureDirectory_fault {path : Path} (h : path.route.hasNul = false) {fault : MakeFault}
    (hfault : (d.ensureDirectory path).1 = some fault) : fault.fault ≠ .embeddedNul := by
  unfold ensureDirectory at hfault
  split at hfault
  · cases hfault
  · rename_i hnul
    exact absurd hnul (makeDirectory_ne_embeddedNul h)
  · rename_i other hother hmade
    dsimp only at hfault
    split at hfault <;> cases hfault
    exact hother

theorem Disk.ensureBelow_fault {anchor : Anchor} {segments : List String}
    (h : ∀ n ∈ segments, '\x00' ∉ n.toList) {fault : MakeFault}
    (hfault : (d.ensureBelow anchor segments).1 = some fault) : fault.fault ≠ .embeddedNul := by
  induction segments generalizing d with
  | nil => exact ensureDirectory_fault (Path.hasNul_route (by simp)) hfault
  | cons name above ih =>
    have hpath : (⟨anchor, (name :: above).reverse⟩ : Path).route.hasNul = false :=
      Path.hasNul_route fun n hn => h n (List.mem_reverse.mp hn)
    rw [ensureBelow] at hfault
    split at hfault
    · split at hfault
      · rename_i habove
        cases hfault
        exact ih (fun n hn => h n (List.mem_cons_of_mem name hn)) (congrArg Prod.fst habove)
      · exact ensureDirectory_fault hpath hfault
    · exact ensureDirectory_fault hpath hfault

theorem isExpected_of_save {log : RunLog} {file : Path} (h : ∀ n ∈ file.segments, '\x00' ∉ n.toList)
    (hfails : (log.save file d).1 = .error failure) : failure.IsExpected := by
  have hcall : ∀ {path fault}, fault ≠ Disk.Fault.embeddedNul →
      (RunLog.callFailure path fault).IsExpected := by
    intro path fault hne
    cases fault with
    | refused errno => exact .inr rfl
    | embeddedNul => exact absurd rfl hne
  unfold RunLog.save at hfails
  split at hfails
  · rename_i hmade
    cases hfails
    refine hcall (Disk.ensureBelow_fault (fun n hn => ?_) (congrArg Prod.fst hmade))
    exact h n ((List.dropLast_sublist _).mem (List.mem_reverse.mp hn))
  · split at hfails
    · cases hfails
    · rename_i hwrite
      cases hfails
      refine hcall fun heq => ?_
      rw [heq] at hwrite
      exact Disk.write_ne_embeddedNul (Path.hasNul_route h) _ hwrite

/-! ## Source files -/

theorem Disk.read_ne_embeddedNul {path : Path} (h : path.route.hasNul = false) :
    d.read path ≠ .error .embeddedNul := by
  unfold read orFault
  rw [h]
  simp only [Bool.false_eq_true, if_false]
  split <;> simp

/-- An update of a file that a search has found does not come to a NUL in its path, so a run needs
no failure for that. -/
theorem Source.updateFile_ne_embeddedNul {extensions ignored : List String}
    {path : Path} (ht : d.tree.WellFormed)
    (h : path ∈ (sourceFiles d extensions ignored roots).files) (w : World) :
    (updateFile w path).1 ≠ .embeddedNul := by
  have hnul : path.route.hasNul = false := by
    obtain ⟨kept, hkept⟩ | ⟨hnone, -⟩ := outermostRoots_cases d extensions ignored roots
    · obtain ⟨root, -, names, hsource, rfl⟩ := isSource_of_mem_sourceFiles ht hkept h
      obtain ⟨top, content, htop, hnode⟩ := hsource.node
      obtain ⟨name, hlast, -⟩ := hsource.extension
      refine Path.hasNul_below (Disk.directoryAt?_eq_some_iff.mp htop).1 ?_ fun n hn => ?_
      · rintro rfl
        cases hlast
      · exact ht.isPlain hnode (List.mem_append_right _ hn)
    · rw [hnone] at h
      cases h
  unfold updateFile
  split
  · simp [cannotRead]
  split
  · simp [cannotRead]
  · rename_i hread
    exact absurd hread (Disk.read_ne_embeddedNul hnul)
  split
  · simp [cannotRead]
  dsimp only
  split
  · simp
  unfold writeBack
  split
  · simp [cannotWrite]
  split
  · simp
  · simp [cannotWrite]
  · rename_i hwrite
    exact absurd hwrite (Disk.write_ne_embeddedNul hnul _)

/-! ## A whole run -/

section Run

variable {standing : Standing} {plan : Plan} {r : RunResult}

theorem isExpected_of_updateStage (ht : w.disk.tree.WellFormed) (hkept : Path.AreSpeakable kept)
    (hlog : ∀ n ∈ o.logFile.segments, '\x00' ∉ n.toList)
    (h : (updateStage o kept r w).result = .error failure) : failure.IsExpected := by
  unfold updateStage at h
  dsimp only at h
  split at h
  · rename_i other hsearch
    cases h
    obtain ⟨hroots, -⟩ | hsystem := failure_of_sourceFiles hsearch
    · refine isExpected_of_outermostRoots ht (fun r hr => ?_) hroots
      obtain ⟨path, hpath, rfl⟩ := List.mem_map.mp hr
      exact (hkept path hpath).1
    · exact .inr hsystem
  · unfold logStage at h
    split at h
    · dsimp only at h
      split at h
      · rename_i hsaved
        cases h
        exact isExpected_of_save hlog hsaved
      · cases h
    · cases h

theorem isExpected_of_moveStage (h : w.IsRegular) (hkept : Path.AreSpeakable kept)
    (hmoves : ∀ m ∈ plan.moves, m.IsWithin kept)
    (hlog : ∀ n ∈ o.logFile.segments, '\x00' ∉ n.toList)
    (hfails : (moveStage o kept standing r plan w).result = .error failure) :
    failure.IsExpected := by
  unfold moveStage at hfails
  dsimp only at hfails
  split at hfails
  · rename_i hmoved
    cases hfails
    exact isExpected_of_execute h hkept hmoves hmoved
  · rename_i hmoved
    have hs := h.performed hkept hmoves (execute_of_none hmoved)
    exact isExpected_of_updateStage hs.wellFormed hkept hlog hfails

/-- A run is admitted and its scan finds an item that is mistaken. -/
def World.MeetsMistaken (w : World) (o : Options) (roots : List Root) : Prop :=
  ∃ standing kept, admission o roots w = .ok (standing, kept) ∧
    w.FindsMistaken o.ignored (kept.map .ofPath)

/-- A run ends with a missing suffix if it meets an item that is mistaken. Otherwise all its
failures are expected. -/
theorem run_failure_cases (h : w.IsRegular) (htoken : ∀ n, IsToken (w.token n))
    (hroots : ∀ r ∈ roots, r.path.IsNormal) (hlog : ∀ n ∈ o.logFile.segments, '\x00' ∉ n.toList) :
    (w.MeetsMistaken o roots ∧ (run o roots w).result = .error .missingSuffix) ∨
      ¬ w.MeetsMistaken o roots ∧ ∀ failure, (run o roots w).result = .error failure →
          failure.IsExpected := by
  have ht := h.wellFormed
  cases hadmitted : admission o roots w with
  | error failure =>
    refine .inr ⟨fun ⟨_, _, hok, _⟩ => ?_, fun other hresult => ?_⟩
    · cases hadmitted.symm.trans hok
    · rw [run, hadmitted] at hresult
      cases hresult
      exact isExpected_of_admission ht hroots hadmitted
  | ok admitted =>
    obtain ⟨standing, kept⟩ := admitted
    obtain ⟨hkept, htops, -⟩ := hasRoots_of_admission ht hroots hadmitted
    have hmeets : w.MeetsMistaken o roots ↔ w.FindsMistaken o.ignored (kept.map .ofPath) := by
      simp [World.MeetsMistaken, hadmitted]
    have hkeptNormal : ∀ r ∈ kept.map Root.ofPath, r.path.IsNormal := by
      intro r hr
      obtain ⟨path, hpath, rfl⟩ := List.mem_map.mp hr
      exact hkept.isNormal path hpath
    have hspeakable : Path.AreSpeakable kept := fun root hroot =>
      ⟨hkept.isNormal root hroot, (Disk.directoryAt?_eq_some_iff.mp (htops root hroot)).1⟩
    rw [hmeets]
    obtain ⟨hfinds, hplan⟩ | ⟨hfinds, ⟨plan, hplan⟩ | ⟨failure, hscan, hplan⟩⟩ :=
      preview_cases ht htoken o.ignored (kept.map .ofPath)
    · refine .inl ⟨hfinds, ?_⟩
      simp [run, hadmitted, scanStage, hplan, Outcome.failed]
    · refine .inr ⟨hfinds, fun failure hresult => ?_⟩
      obtain ⟨-, reports, hrun⟩ |
          ⟨-, reports, r, -, -, ⟨-, message, -, hrun⟩ | ⟨-, -, hrun⟩⟩ :=
        run_cases_of_plan hadmitted hplan
      · rw [hrun] at hresult
        cases hresult
        exact .inl rfl
      · rw [hrun] at hresult
        cases hresult
      · rw [hrun, result_after] at hresult
        have hmoves := (isPlanOf_of_admission ht hroots hadmitted hplan).isWithin ht htoken
        refine isExpected_of_moveStage ?_ hspeakable hmoves hlog hresult
        exact ⟨ht, h.answers⟩
    · refine .inr ⟨hfinds, fun other hresult => ?_⟩
      simp only [run, hadmitted, scanStage, hplan, Outcome.failed, result_after] at hresult
      cases hresult
      exact isExpected_of_scan ht hkeptNormal hscan

end Run

end Recase
