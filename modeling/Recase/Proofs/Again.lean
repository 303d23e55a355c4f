import Recase.Proofs.Covered
import Recase.Proofs.Source.Update
import Recase.Proofs.Vcs.Gate

/-!
# A run after a run

* `Disk.IsConverted`: below roots nothing that a scan retains needs another name.
* `run_of_isConverted`: a run over such roots changes nothing, and finds nothing to rename unless it
  comes to a directory that cannot be listed.
* `Disk.Stage.isConverted`, `isConverted_of_run`: once all turns have been had the roots are
  converted, and so they are after a run.
* `Path.winding`: the path of a root that goes there and back. A run can make the paths below it too
  long for the next.
-/

namespace Recase

open Name Naming Recase.Tree Source

variable {d d₀ s : Disk} {w : World} {ignored : List String} {kept : List Path} {roots : List Root}
  {root : Path} {e : Retained} {failure : Failure} {o : Options}

/-! ## Entries with converted names -/

namespace Retained

theorem newName_converted (e : Retained) : e.converted.newName = e.newName :=
  EntryKind.convert_convert _ _

theorem newAbove_converted (e : Retained) : e.converted.newAbove = e.newAbove := by
  unfold newAbove converted newAbove
  rw [List.map_map]
  refine List.map_congr_left fun name _ => ?_
  exact EntryKind.convert_convert_directory _ _

theorem changes_converted (e : Retained) : e.converted.changes = false := by
  rw [Bool.eq_false_iff, ne_eq, changes_iff, not_not]
  exact e.newName_converted

theorem destinationKey_converted (e : Retained) :
    e.converted.item.destinationKey = e.item.destinationKey := by
  have hpath : e.converted.item.convertedPath = e.item.convertedPath := by
    unfold item
    dsimp only
    rw [e.newAbove_converted, e.newName_converted]
  unfold Item.destinationKey
  rw [hpath]
  rfl

end Retained

/-! ## Roots that are converted -/

/-- The roots lie in no other, nothing that is retained below them needs another name, and no two
entries have one destination. -/
structure Disk.IsConverted (d : Disk) (ignored : List String) (kept : List Path) : Prop where
  wellFormed : d.tree.WellFormed
  roots : outermostRoots d (kept.map .ofPath) = .ok kept
  isNormal : ∀ root ∈ kept, root.IsNormal
  changes : ∀ e ∈ retained d ignored kept, e.changes = false
  conflicts : conflictsOf ((retained d ignored kept).map (·.item)) = []

/-- Once all turns have been had the roots are converted, whatever files hold. -/
theorem Disk.Stage.isConverted {gone : List Place} (h : d₀.HasRoots kept)
    (hconflicts : conflictsOf ((retained d₀ ignored kept).map (·.item)) = [])
    (hall : ∀ root ∈ kept, ∃ top, d₀.directoryAt? root = some top)
    (hs : d₀.Stage (namesAfterAll d₀ ignored kept) gone s) (hshape : s.SameShape d)
    (hroots : outermostRoots d (kept.map .ofPath) = .ok kept) : d.IsConverted ignored kept := by
  have ht := hs.wellFormed h.wellFormed
  have ht' := hshape.tree.wellFormed ht
  have hnormal : ∀ r ∈ kept.map Root.ofPath, r.path.IsNormal := by
    simpa [Root.ofPath] using h.isNormal
  -- each retained entry is one of those before, under its converted names
  have hbefore :
      ∀ r ∈ retained d ignored kept, ∃ e ∈ retained d₀ ignored kept, r = e.converted := by
    intro r hr
    obtain ⟨hroot, hretains⟩ := (mem_retained_iff ht').mp hr
    obtain ⟨top, htop⟩ := hall r.root hroot
    exact exists_of_retains h hs hroot htop (hshape.retains_iff.mpr hretains)
  refine ⟨ht', hroots, h.isNormal, fun r hr => ?_, ?_⟩
  · obtain ⟨e, -, rfl⟩ := hbefore r hr
    exact e.changes_converted
  · apply conflictsOf_of_pairwise
    rw [List.pairwise_map]
    have hplaces : (retained d ignored kept).Pairwise fun a b => a.place ≠ b.place :=
      retained_pairwise ht' (areApart_of_outermostRoots ht' hnormal hroots)
    refine hplaces.imp_of_mem fun {a b} ha hb hne hkey => hne ?_
    obtain ⟨e, he, rfl⟩ := hbefore a ha
    obtain ⟨e', he', rfl⟩ := hbefore b hb
    rw [e.destinationKey_converted, e'.destinationKey_converted] at hkey
    rw [eq_of_destinationKey hconflicts he he' hkey]

/-! ## A run over converted roots -/

/-- Roots that are found have a standing. Without repositories they have no changes. -/
theorem exists_standingFrom (ht : d.tree.WellFormed) (repositories : List Repository)
    (hroots : ∀ r ∈ roots, r.path.IsNormal ∧ ∃ place, d.directoryAt? r.path = some place)
    (status : WorkStatus) :
    ∃ standing, standingFrom d (repositoryOf? d repositories) status roots = .ok standing ∧
      (repositories = [] → status.hasChanges = false → standing.hasChanges = false) := by
  induction roots generalizing status with
  | nil =>
    refine ⟨_, rfl, fun _ hstatus => ?_⟩
    rw [hstatus]
    rfl
  | cons root rest ih =>
    obtain ⟨hnormal, place, hplace⟩ := hroots root List.mem_cons_self
    have hrest := ih fun r hr => hroots r (List.mem_cons_of_mem _ hr)
    rw [standingFrom_cons ht hnormal hplace]
    split
    · exact ⟨.unversioned, rfl, fun _ _ => rfl⟩
    · rename_i repository top hfound
      split
      · exact ⟨.unversioned, rfl, fun _ _ => rfl⟩
      · obtain ⟨standing, hstanding, -⟩ := hrest _
        refine ⟨standing, hstanding, ?_⟩
        rintro rfl
        cases hfound

/-- Roots that are kept are admitted where no changes can be found or they do not matter. -/
theorem exists_admission (ht : w.disk.tree.WellFormed) (hnormal : ∀ path ∈ kept, path.IsNormal)
    (hkept : outermostRoots w.disk (kept.map .ofPath) = .ok kept)
    (hsafe : w.git.repositories = [] ∨ o.force = true) :
    ∃ standing, admission o (kept.map .ofPath) w = .ok (standing, kept) := by
  have hnormal' : ∀ r ∈ kept.map Root.ofPath, r.path.IsNormal := by
    simpa [Root.ofPath] using hnormal
  obtain ⟨standing, hstanding, hclean⟩ := exists_standingFrom ht w.git.repositories
    (fun r hr => ⟨hnormal' r hr, ((outermostRoots_eq_ok_iff ht hnormal').mp hkept).1 r hr⟩) .empty
  have hensure : ensureSafe standing o.force = .ok () := by
    unfold ensureSafe
    split
    · rename_i status
      rcases hsafe with hnone | hforce
      · cases hclean hnone rfl
      · rw [if_pos hforce]
    · rfl
  refine ⟨standing, ?_⟩
  rw [admission, standingOf, hstanding]
  simp only [bind, Except.bind, hensure, hkept]

/-- The preview of converted roots finds nothing to rename, unless it comes to a directory that
cannot be listed. -/
theorem preview_of_isConverted (h : w.disk.IsConverted ignored kept) :
    (preview w ignored (kept.map .ofPath)).drawn = w.drawn ∧
      ((∀ e ∈ retained w.disk ignored kept, e.kind = .directory →
            listingFailure? e.root e.names = none) ∧
          (∃ scanned, (preview w ignored (kept.map .ofPath)).plan = .ok ⟨[], [], [], [], scanned⟩) ∨
        ∃ e ∈ retained w.disk ignored kept, ∃ failure, e.kind = .directory ∧
          listingFailure? e.root e.names = some failure ∧
          (preview w ignored (kept.map .ofPath)).plan = .error failure) := by
  obtain ⟨hitems, hlisted⟩ | ⟨e, he, failure, hkind, hlisting, hitems⟩ := scan_cases h.roots ignored
  · have hnone : ((retained w.disk ignored kept).map (·.item)).filter (·.changesName) = [] := by
      rw [List.filter_map, List.map_eq_nil_iff, List.filter_eq_nil_iff]
      intro e he
      rw [Function.comp_apply, Bool.not_eq_true]
      exact h.changes e he
    have hmoves : planMoves (fun path => w.disk.hasEntry path.route) w.token w.drawn
        ((retained w.disk ignored kept).map (·.item)) = ([], w.drawn) := by
      rw [planMoves, hnone]
      rfl
    obtain ⟨hplan, hdrawn⟩ := preview_of_scan hitems hmoves rfl
    rw [hnone, h.conflicts] at hplan
    exact ⟨hdrawn, .inl ⟨hlisted, _, hplan⟩⟩
  · refine ⟨by simp [preview, hitems], .inr ⟨e, he, failure, hkind, hlisting, ?_⟩⟩
    simp [preview, hitems]

/-- A run over converted roots changes nothing. It ends with nothing renamed, unless it comes to a
directory whose path is too long. -/
theorem run_of_isConverted (h : w.disk.IsConverted o.ignored kept)
    (hsafe : w.git.repositories = [] ∨ o.force = true) :
    (run o (kept.map .ofPath) w).world = w ∧
      ((∀ e ∈ retained w.disk o.ignored kept, e.kind = .directory →
            (e.root.below e.names).route.isTooLong = false) ∧
          (∃ r, (run o (kept.map .ofPath) w).result = .ok r ∧ r.moves = [] ∧ r.renamed = [] ∧
            r.updated = [] ∧ r.skipped = []) ∨
        ∃ e ∈ retained w.disk o.ignored kept, e.kind = .directory ∧
          (e.root.below e.names).route.isTooLong = true ∧
          (run o (kept.map .ofPath) w).result =
            .error (.system .nameTooLong (e.root.below e.names).toString none)) := by
  obtain ⟨standing, hadmitted⟩ := exists_admission h.wellFormed h.isNormal h.roots hsafe
  obtain ⟨hdrawn, ⟨hlisted, scanned, hplan⟩ | ⟨e, he, failure, hkind, hlisting, hplan⟩⟩ :=
    preview_of_isConverted h
  · rw [run, hadmitted]
    simp only [Outcome.after, scanStage, hplan, hdrawn, planStage, List.isEmpty_nil, Bool.not_true,
      Bool.false_eq_true, if_false, if_true, Outcome.completed]
    refine ⟨trivial, .inl ⟨fun e he hkind => ?_, _, rfl, rfl, rfl, rfl, rfl⟩⟩
    by_contra hlong
    rw [Bool.not_eq_false] at hlong
    have hsome := listingFailure?_eq_some_iff.mpr ⟨hlong, rfl⟩
    rw [hlisted e he hkind] at hsome
    cases hsome
  · rw [run, hadmitted]
    simp only [Outcome.after, scanStage, hplan, hdrawn, Outcome.failed]
    obtain ⟨hlong, rfl⟩ := listingFailure?_eq_some_iff.mp hlisting
    exact ⟨trivial, .inr ⟨e, he, hkind, hlong, rfl⟩⟩

/-! ## After a run -/

/-- Without a log a run ends well with the stage of the references, if the search for source files
does. -/
theorem exists_updateStage_ok (hsilent : o.logging = false) (s : World) (r : RunResult)
    (hfound : (sourceFiles s.disk o.extensions o.ignored (kept.map .ofPath)).failure? = none) :
    ∃ r', (updateStage o kept r s).result = .ok r' ∧ (updateStage o kept r s).world =
      (updateFiles s (sourceFiles s.disk o.extensions o.ignored (kept.map .ofPath)).files).2 := by
  have hsearch : (updateSources s o.extensions o.ignored (kept.map .ofPath)).failure? = none :=
    hfound
  simp only [updateStage, Outcome.after, hsearch, logStage, hsilent, Bool.false_eq_true, if_false,
    Outcome.completed]
  exact ⟨_, rfl, rfl⟩

/-- What the stage of the references has done if the run ends well. -/
theorem updateStage_of_ok {s : World} {r r' : RunResult} (hsilent : o.logging = false)
    (h : (updateStage o kept r s).result = .ok r') :
    (sourceFiles s.disk o.extensions o.ignored (kept.map .ofPath)).failure? = none ∧
      (updateStage o kept r s).world =
        (updateFiles s (sourceFiles s.disk o.extensions o.ignored (kept.map .ofPath)).files).2 := by
  have hfound : (sourceFiles s.disk o.extensions o.ignored (kept.map .ofPath)).failure? = none := by
    cases hfailure : (sourceFiles s.disk o.extensions o.ignored (kept.map .ofPath)).failure? with
    | none => rfl
    | some failure =>
      have hsearch : (updateSources s o.extensions o.ignored (kept.map .ofPath)).failure? =
          some failure := hfailure
      simp [updateStage, Outcome.after, hsearch, Outcome.failed] at h
  exact ⟨hfound, world_updateStage hsilent⟩

/-- What a run that makes the moves itself has done if it ends well: nothing, for there was nothing
to rename, or it has made its moves and updated the source files. -/
theorem run_cases {standing : Standing} {r : RunResult}
    (hadmitted : admission o roots w = .ok (standing, kept))
    (hplain : o.useVersionControl.getD standing.isVersioned = false) (hreal : o.dryRun = false)
    (hsilent : o.logging = false) (hrun : (run o roots w).result = .ok r) :
    ∃ plan, (preview w o.ignored (kept.map .ofPath)).plan = .ok plan ∧ plan.conflicts = [] ∧
      (plan.items = [] ∧ (run o roots w).world =
          { w with drawn := (preview w o.ignored (kept.map .ofPath)).drawn } ∨
        ∃ s, ReachesUpdate o roots w kept plan s ∧
          (sourceFiles s.disk o.extensions o.ignored (kept.map .ofPath)).failure? = none ∧
          (run o roots w).world =
            (updateFiles s
                (sourceFiles s.disk o.extensions o.ignored (kept.map .ofPath)).files).2) := by
  obtain ⟨plan, hplan⟩ : ∃ plan, (preview w o.ignored (kept.map .ofPath)).plan = .ok plan := by
    cases hplan : (preview w o.ignored (kept.map .ofPath)).plan with
    | error failure =>
      rw [run, hadmitted] at hrun
      simp only [scanStage, hplan] at hrun
      cases hrun
    | ok plan => exact ⟨plan, rfl⟩
  refine ⟨plan, hplan, ?_⟩
  obtain ⟨-, reports, hends⟩ | ⟨hconflicts, reports, r', -, -,
      ⟨hnothing, message, -, hends⟩ | ⟨hitems, -, hends⟩⟩ := run_cases_of_plan hadmitted hplan <;>
    rw [hends] at hrun ⊢
  · cases hrun
  · exact ⟨hconflicts, .inl ⟨hnothing.resolve_right (by simp [hreal]), rfl⟩⟩
  · have hdone : (execute (World.mover false) none plan.moves
        { w with drawn := (preview w o.ignored (kept.map .ofPath)).drawn }).failure? = none := by
      cases hfailure : (execute (World.mover false) none plan.moves
          { w with drawn := (preview w o.ignored (kept.map .ofPath)).drawn }).failure? with
      | none => rfl
      | some failure =>
        rw [moveStage, hplain, hfailure] at hrun
        cases hrun
    obtain ⟨last, r'', hmoved⟩ := moveStage_of_done kept r' hplain hdone
    rw [hmoved] at hrun ⊢
    obtain ⟨hfound, hworld⟩ := updateStage_of_ok hsilent hrun
    exact ⟨hconflicts,
      .inr ⟨_, ⟨⟨standing, hadmitted, hplain⟩, hplan, hconflicts, hitems, hreal, hdone, rfl⟩,
      hfound, hworld⟩⟩

/-- The disk when a run comes to the references: all turns have been had. Nothing else has changed
but the count of tokens. -/
theorem ReachesUpdate.exists_stage {texts : List String} {plan : Plan} {s : World}
    (h : ReachesUpdate o (texts.map .ofText) w kept plan s) (ht : w.disk.tree.WellFormed)
    (htoken : ∀ n, IsToken (w.token n)) :
    (∃ gone, w.disk.Stage (namesAfterAll w.disk o.ignored kept) gone s.disk) ∧
      s = { w with drawn := (preview w o.ignored (kept.map .ofPath)).drawn, disk := s.disk } := by
  obtain ⟨standing, hadmitted, -⟩ := h.admitted
  obtain ⟨hroots, -, -⟩ := hasRoots_of_admission ht (isNormal_ofText _) hadmitted
  obtain ⟨hperformed, hsame⟩ := (execute_of_none h.done).disk
  rw [← h.world] at hperformed hsame
  exact ⟨(isPlanOf_of_admission ht (isNormal_ofText _) hadmitted h.planned).moves.stage_end
    hroots htoken hperformed, hsame⟩

/-- The roots are kept still once all turns have been had, if the search for source files ends
well. -/
theorem Disk.Stage.outermostRoots_eq {gone : List Place} {extensions : List String}
    (h : d₀.HasRoots kept) (hall : ∀ root ∈ kept, ∃ top, d₀.directoryAt? root = some top)
    (hs : d₀.Stage (namesAfterAll d₀ ignored kept) gone d)
    (hfound : (sourceFiles d extensions ignored (kept.map .ofPath)).failure? = none) :
    outermostRoots d (kept.map .ofPath) = .ok kept := by
  obtain ⟨found, hsame⟩ | ⟨-, hfails⟩ :=
    outermostRoots_cases d extensions ignored (kept.map .ofPath)
  · rwa [outermostRoots_of_stage h hs hall hsame] at hsame
  · exact absurd hfound hfails

/-- After a run the roots are converted, and nothing but the disk and the count of tokens has
changed. -/
theorem isConverted_of_run {standing : Standing} {texts : List String} {r : RunResult}
    (ht : w.disk.tree.WellFormed) (htoken : ∀ n, IsToken (w.token n))
    (hadmitted : admission o (texts.map .ofText) w = .ok (standing, kept))
    (hplain : o.useVersionControl.getD standing.isVersioned = false) (hreal : o.dryRun = false)
    (hsilent : o.logging = false) (hrun : (run o (texts.map .ofText) w).result = .ok r) :
    (run o (texts.map .ofText) w).world.disk.IsConverted o.ignored kept ∧
      (run o (texts.map .ofText) w).world.git = w.git := by
  obtain ⟨h, htops, hagain⟩ := hasRoots_of_admission ht (isNormal_ofText _) hadmitted
  have hall : ∀ root ∈ kept, ∃ top, w.disk.directoryAt? root = some top :=
    fun root hroot => ⟨_, htops root hroot⟩
  obtain ⟨plan, hplanned, hconflicts, hcases⟩ := run_cases hadmitted hplain hreal hsilent hrun
  have hplan := isPlanOf_of_admission ht (isNormal_ofText _) hadmitted hplanned
  rw [hplan.conflicts] at hconflicts
  obtain ⟨hitems, hworld⟩ | ⟨s, hreaches, hfound, hworld⟩ := hcases
  · have horder : Retained.inOrder (retained w.disk o.ignored kept) = [] := by
      rw [hplan.items, List.map_eq_nil_iff] at hitems
      rw [Retained.inOrder, hitems]
      rfl
    have hs : w.disk.Stage (namesAfterAll w.disk o.ignored kept) [] w.disk := by
      rw [namesAfterAll, horder]
      exact stage_own ht
    rw [hworld]
    exact ⟨hs.isConverted h hconflicts hall (.refl _) hagain, rfl⟩
  · obtain ⟨⟨gone, hs⟩, hsame⟩ := hreaches.exists_stage ht htoken
    have ht' := hs.wellFormed ht
    have hstill := hs.outermostRoots_eq h hall hfound
    obtain ⟨hshape, hupdated⟩ := updateFiles_sameShape ht'
      (sourceFiles s.disk o.extensions o.ignored (kept.map .ofPath)).files
    have hworld' := hworld.trans hupdated
    refine ⟨hs.isConverted h hconflicts hall ?_ ?_, ?_⟩
    · rw [hworld']
      exact hshape
    · rw [hworld']
      exact hshape.outermostRoots_eq ht' h.isNormal hstill
    · rw [hworld', hsame]

/-- A run over the roots that another has kept, after that has ended well, changes nothing. It ends
with nothing renamed, unless it comes to a directory whose path is too long. -/
theorem run_twice {standing : Standing} {texts : List String} {r : RunResult}
    (ht : w.disk.tree.WellFormed) (htoken : ∀ n, IsToken (w.token n))
    (hadmitted : admission o (texts.map .ofText) w = .ok (standing, kept))
    (hplain : o.useVersionControl.getD standing.isVersioned = false) (hreal : o.dryRun = false)
    (hsilent : o.logging = false) (hsafe : w.git.repositories = [] ∨ o.force = true)
    (hrun : (run o (texts.map .ofText) w).result = .ok r) :
    let after := (run o (texts.map .ofText) w).world
    let again := run o (kept.map .ofPath) after
    again.world = after ∧
      ((∀ e ∈ retained after.disk o.ignored kept, e.kind = .directory →
            (e.root.below e.names).route.isTooLong = false) ∧
          (∃ r', again.result = .ok r' ∧ r'.moves = [] ∧ r'.renamed = [] ∧ r'.updated = [] ∧
            r'.skipped = []) ∨
        ∃ e ∈ retained after.disk o.ignored kept, e.kind = .directory ∧
          (e.root.below e.names).route.isTooLong = true ∧
          again.result = .error (.system .nameTooLong (e.root.below e.names).toString none)) := by
  obtain ⟨hconverted, hgit⟩ :=
    isConverted_of_run ht htoken hadmitted hplain hreal hsilent hrun
  exact run_of_isConverted hconverted (by rwa [hgit])

theorem run_twice_hiding :
    ∃ r, (run .hiding (["."].map .ofText) (.ofTree .hiding)).result = .ok r ∧
      (run .hiding ([⟨.relative, []⟩].map .ofPath)
        (run .hiding (["."].map .ofText) (.ofTree .hiding)).world).world =
          (run .hiding (["."].map .ofText) (.ofTree .hiding)).world := by
  obtain ⟨r, hrun, -⟩ : ∃ r, (run .hiding (["."].map .ofText) (.ofTree .hiding)).result = .ok r ∧
      r.renamed ≠ [] := exists_ok_of_any (by decide +kernel)
  have hadmitted : admission .hiding (["."].map .ofText) (.ofTree .hiding) =
      .ok (.unversioned, [⟨.relative, []⟩]) := by decide
  exact ⟨r, hrun, (run_twice (w := .ofTree .hiding) (by decide) isToken_tokenText hadmitted
    rfl rfl rfl (.inl rfl) hrun).1⟩

/-! ## A path that is too long in the end -/

/-- The path of the working directory by way of a directory in it, `k` times there and back. -/
def Path.winding (k : Nat) : Path := ⟨.relative, (List.replicate k ["x", ".."]).flatten⟩

/-- The directory on the way, and another with one in it. -/
def Tree.growing : Tree := ⟨[(["x"], .directory), (["aB"], .directory), (["aB", "cc"], .directory)]⟩

/-- The tree once the name of the other is converted, which makes the path of the inner one too
long. -/
def Tree.grown : Tree := ⟨[(["x"], .directory), (["a-b"], .directory), (["a-b", "cc"], .directory)]⟩

/-- The directory is the one item that needs another name. -/
def Item.growing : Item := ⟨"aB", "a-b", .directory, true, .winding 818⟩

def Move.growing : Move := ⟨"aB", "a-b", .winding 818, false⟩

def Options.growing : Options :=
  { Options.default (World.ofTree .growing).disk with useVersionControl := some false }

theorem wellFormed_growing : Tree.growing.WellFormed := by decide

theorem wellFormed_grown : Tree.grown.WellFormed := by decide

section Winding

variable {k : Nat}

theorem segments_winding_ne_nil (hk : 0 < k) : (Path.winding k).segments ≠ [] := by
  simp [Path.winding, hk.ne']

theorem mem_segments_winding {s : String} (h : s ∈ (Path.winding k).segments) :
    s = "x" ∨ s = ".." := by
  obtain ⟨pair, hpair, hs⟩ := List.mem_flatten.mp h
  rw [List.eq_of_mem_replicate hpair] at hs
  simpa using hs

theorem isNormal_winding : (Path.winding k).IsNormal := by
  intro s hs
  rcases mem_segments_winding hs with rfl | rfl <;> decide

theorem leads_winding {t : Tree} (h : t.node? ["x"] = some .directory) :
    t.Leads 0 [] (Path.winding k).segments [] := by
  have hname : IsName "x" := ⟨by decide, by decide, by decide⟩
  induction k with
  | zero => exact .done []
  | succ k ih =>
    rw [Path.winding, List.replicate_succ, List.flatten_cons]
    exact .down hname h (.up ih)

/-- Each time there and back takes five bytes. -/
theorem isTooLong_below_winding (hk : 0 < k) (names : List String) :
    ((Path.winding k).below names).route.isTooLong =
      decide (pathLimit + 1 < 5 * k + (names.map fun n => n.utf8ByteSize + 1).sum) := by
  have hpair : ((["x", ".."] : List String).map fun n => n.utf8ByteSize + 1).sum = 5 := by decide
  have hsegments : ((Path.winding k).segments.map fun n => n.utf8ByteSize + 1).sum = 5 * k := by
    simp only [Path.winding, List.map_flatten, List.map_replicate, List.sum_flatten,
      List.sum_replicate_nat, hpair, Nat.mul_comm]
  have hsize := Path.size_route (p := (Path.winding k).below names) rfl
    (List.append_ne_nil_of_left_ne_nil (segments_winding_ne_nil hk) _)
  have hsum : (((Path.winding k).below names).segments.map fun n => n.utf8ByteSize + 1).sum =
      5 * k + (names.map fun n => n.utf8ByteSize + 1).sum := by
    rw [Path.below, List.map_append, List.sum_append, hsegments]
  rw [hsum] at hsize
  unfold Route.isTooLong
  rw [decide_eq_decide]
  omega

/-- The path leads to the working directory where the directory on the way is. -/
theorem directoryAt?_winding {d : Disk} (ht : d.tree.WellFormed) (hhere : d.here = [])
    (hname : d.tree.node? ["x"] = some .directory) (hk : 0 < k) (hshort : 5 * k ≤ pathLimit) :
    d.directoryAt? (.winding k) = some [] := by
  have hnames : (Path.winding k).route.names = (Path.winding k).segments := by
    simp [Path.route, segments_winding_ne_nil hk]
  have hnul : (Path.winding k).route.hasNul = false := by
    rw [Route.hasNul, hnames, List.any_eq_false]
    intro s hs
    rcases mem_segments_winding hs with rfl | rfl <;> decide
  have hsize : (Path.winding k).route.isTooLong = false := by
    have hnone := isTooLong_below_winding hk []
    rw [decide_eq_false (by simp; omega)] at hnone
    simpa [Path.below] using hnone
  have hstart : (Path.winding k).route.startAt d.here = [] := by
    rw [hhere]
    rfl
  refine Disk.directoryAt?_eq_some_iff.mpr ⟨hnul, hsize, ?_, rfl⟩
  rw [hstart, Disk.steps_route, hnames]
  exact (leads_winding hname).walk_eq ht rfl (Nat.zero_le _)

end Winding

theorem directoryAt?_growing : (World.ofTree .growing).disk.directoryAt? (.winding 818) = some [] :=
  directoryAt?_winding wellFormed_growing rfl (by decide) (by decide) (by decide)

theorem outermostRoots_winding {d : Disk} {k : Nat} (ht : d.tree.WellFormed)
    (htop : d.directoryAt? (.winding k) = some []) :
    outermostRoots d ([.winding k].map .ofPath) = .ok [.winding k] :=
  outermostRoots_ofPath ht (List.forall_mem_singleton.mpr isNormal_winding)
    (List.forall_mem_singleton.mpr ⟨_, htop⟩) (List.pairwise_singleton _ _)

theorem retained_growing : retained (World.ofTree .growing).disk ignoredNames [.winding 818] =
    [⟨.winding 818, [], [], "aB", .directory⟩, ⟨.winding 818, [], ["aB"], "cc", .directory⟩,
      ⟨.winding 818, [], [], "x", .directory⟩] := by
  have hentries : Tree.growing.retainedBelow ignoredNames [] =
      [(["aB"], .directory), (["aB", "cc"], .directory), (["x"], .directory)] := by
    decide +kernel
  rw [retained_singleton directoryAt?_growing, World.ofTree, hentries]
  rfl

theorem ofText_winding {k : Nat} (hk : 0 < k) :
    Root.ofText (Path.winding k).toString = .ofPath (.winding k) := by
  have htext : (Path.winding k).toString = pathText (Path.winding k).segments := by
    simp [Path.toString, pathText, Path.winding, hk.ne']
  rw [Root.ofText, Root.ofPath, htext, parse_pathText_of]
  · rfl
  · intro s hs
    rcases mem_segments_winding hs with rfl | rfl <;> decide

/-- The items of the scan. -/
theorem items_growing :
    (scan (World.ofTree .growing).disk ignoredNames ([.winding 818].map .ofPath)).items =
      .ok [.growing, ⟨"aB/cc", "a-b/cc", .directory, false, .winding 818⟩,
        ⟨"x", "x", .directory, false, .winding 818⟩] := by
  have hroots : outermostRoots (World.ofTree .growing).disk ([.winding 818].map .ofPath) =
      .ok [.winding 818] :=
    outermostRoots_winding wellFormed_growing directoryAt?_growing
  have hitems : ∀ root : Path, ([⟨root, [], [], "aB", .directory⟩,
      ⟨root, [], ["aB"], "cc", .directory⟩, ⟨root, [], [], "x", .directory⟩] : List Retained).map
        (·.item) =
          [⟨"aB", "a-b", .directory, true, root⟩, ⟨"aB/cc", "a-b/cc", .directory, false, root⟩,
          ⟨"x", "x", .directory, false, root⟩] := by
    intro root
    have hnames :
        EntryKind.directory.convert "aB" = "a-b" ∧ EntryKind.directory.convert "cc" = "cc" ∧
        EntryKind.directory.convert "x" = "x" ∧ pathText ["aB", "cc"] = "aB/cc" ∧
        pathText ["a-b", "cc"] = "a-b/cc" := by
      decide
    simp [Retained.item, Retained.names, Retained.newName, Retained.newAbove, hnames]
  obtain ⟨hscan, -⟩ | ⟨e, he, failure, -, hlisting, -⟩ := scan_cases hroots ignoredNames
  · rw [hscan, retained_growing, hitems, Item.growing]
  · have hlong := (listingFailure?_eq_some_iff.mp hlisting).1
    rw [retained_growing] at he
    simp only [List.mem_cons, List.not_mem_nil, or_false] at he
    rcases he with rfl | rfl | rfl <;>
    · rw [isTooLong_below_winding (by decide)] at hlong
      exact absurd hlong (by decide)

theorem preview_growing :
    (preview (.ofTree .growing) ignoredNames ([.winding 818].map .ofPath)).plan =
        .ok ⟨[.growing], [.growing], [], [], 3⟩ ∧
      (preview (.ofTree .growing) ignoredNames ([.winding 818].map .ofPath)).drawn = 0 := by
  have hconflicts : conflictsOf [.growing, ⟨"aB/cc", "a-b/cc", .directory, false, .winding 818⟩,
        ⟨"x", "x", .directory, false, .winding 818⟩] = [] := by
    have hdistinct : (["a-b", "a-b/cc", "x"].map Text.casefold).Nodup := by decide
    exact conflictsOf_of_pairwise
      (.of_map (fun item => Text.casefold item.convertedPath)
        (fun _ _ hne hkey => hne (congrArg Prod.snd hkey)) hdistinct)
  have hrecased : ¬ Item.growing.isRecased = true := by decide
  have hcurrent : Item.growing.currentPath = "aB" := by decide
  have hmoves :
      ∀ isTaken token drawn, movesOf isTaken token drawn .growing = ([.growing], drawn) := by
    intro isTaken token drawn
    rw [movesOf, if_neg hrecased, hcurrent]
    rfl
  have hchanges : [.growing, ⟨"aB/cc", "a-b/cc", .directory, false, .winding 818⟩,
      ⟨"x", "x", .directory, false, .winding 818⟩].filter (·.changesName) = [Item.growing] := rfl
  obtain ⟨hplan, hdrawn⟩ :=
    preview_of_scan items_growing (planMoves_of_filter hchanges (hmoves _ _ _)) rfl
  rw [hchanges, hconflicts] at hplan
  exact ⟨hplan, hdrawn⟩

/-- The tree after the move, and the move. -/
def Disk.grown : Disk := ⟨.grown, [], [.moved ["aB"] ["a-b"]]⟩

/-- The world after the run. -/
def World.grown : World := { World.ofTree .growing with disk := .grown }

theorem directoryAt?_grown : Disk.grown.directoryAt? (.winding 818) = some [] :=
  directoryAt?_winding wellFormed_grown rfl (by decide) (by decide) (by decide)

theorem directMove_growing :
    directMove .growing Move.growing.root (World.ofTree .growing).disk = (.grown, none) := by
  have hroot : Move.growing.root = .winding 818 := rfl
  have hx : IsPlain "aB" := ⟨by decide, by decide, by decide, by decide, by decide⟩
  have hy : IsPlain "a-b" := ⟨by decide, by decide, by decide, by decide, by decide⟩
  have hnul : ∀ name, IsPlain name → ((Path.winding 818).below [name]).route.hasNul = false :=
    fun name hname => Path.hasNul_below (Disk.directoryAt?_eq_some_iff.mp directoryAt?_growing).1
      (by simp) (by simpa using hname)
  have hshort : ∀ name, name.utf8ByteSize ≤ 5 →
      ((Path.winding 818).below [name]).route.isTooLong = false := by
    intro name hname
    rw [isTooLong_below_winding (by decide), decide_eq_false]
    simp [pathLimit]
    omega
  have henters :=
    Disk.enters_of_directoryAt? wellFormed_growing isNormal_winding directoryAt?_growing
  have hsrc : (Path.winding 818).joinText Move.growing.source =
      (Path.winding 818).below ([] ++ ["aB"]) := Path.joinText_name _ hx
  have hdst : (Path.winding 818).joinText Move.growing.target =
      (Path.winding 818).below ([] ++ ["a-b"]) := Path.joinText_name _ hy
  rw [hroot, directMove_of_free wellFormed_growing hx.isName hy.isName (by decide) hsrc hdst henters
    (hnul _ hx) (hnul _ hy) (hshort _ (by decide)) (hshort _ (by decide)) (by decide)
    (by decide : Tree.growing.node? ["aB"] = some .directory) (by decide)]
  decide

theorem performed_growing :
    Performed (World.mover false) [.growing] (.ofTree .growing) .grown := by
  refine .cons ?_ (.nil _)
  rw [World.mover_false, directMove_growing]
  rfl

/-- No directory is a source file. -/
theorem sourceFiles_grown (extensions ignored : List String) :
    sourceFiles .grown extensions ignored ([.winding 818].map .ofPath) = ⟨[], none⟩ := by
  have hroots : outermostRoots .grown ([.winding 818].map .ofPath) = .ok [.winding 818] :=
    outermostRoots_winding wellFormed_grown directoryAt?_grown
  have hbelow : sourceFilesBelow .grown extensions ignored (.winding 818) = ⟨[], none⟩ := by
    have hfiles : ∀ e ∈ Tree.grown.below [], isCandidate extensions e.1 e.2 = false := by
      intro e he
      have hdirectory : e.2 = .directory :=
        (by decide : ∀ e ∈ Tree.grown.below [], e.2 = .directory) e he
      rw [isCandidate, hdirectory]
      rfl
    rw [sourceFilesBelow, directoryAt?_grown]
    dsimp only
    rw [List.filter_eq_nil_iff.mpr]
    · rfl
    · intro e he
      simp [hfiles e he]
  rw [sourceFiles, hroots]
  dsimp only
  rw [List.map_singleton, hbelow]
  rfl

theorem admission_growing :
    ∃ standing, admission .growing ([.winding 818].map .ofPath) (.ofTree .growing) =
      .ok (standing, [.winding 818]) :=
  exists_admission (w := .ofTree .growing) (o := .growing) wellFormed_growing
    (List.forall_mem_singleton.mpr isNormal_winding)
    (outermostRoots_winding wellFormed_growing directoryAt?_growing) (.inl rfl)

/-- The run makes its one move and ends well. -/
theorem exists_run_growing : ∃ r,
    (run .growing ([.winding 818].map .ofPath) (.ofTree .growing)).result = .ok r ∧
      (run .growing ([.winding 818].map .ofPath) (.ofTree .growing)).world = .grown := by
  obtain ⟨standing, hadmitted⟩ := admission_growing
  have hreaches :
      ReachesUpdate .growing ([.winding 818].map .ofPath) (.ofTree .growing) [.winding 818]
      ⟨[.growing], [.growing], [], [], 3⟩
      .grown := by
    have hworld : { World.ofTree .growing with
        drawn := (preview (.ofTree .growing) Options.growing.ignored
          ([.winding 818].map .ofPath)).drawn } = World.ofTree .growing := by
      rw [show Options.growing.ignored = ignoredNames from rfl, preview_growing.2]
      rfl
    refine ⟨⟨standing, hadmitted, rfl⟩, preview_growing.1, rfl, by simp, rfl, ?_, ?_⟩
    · rw [hworld]
      exact performed_growing.execute_eq.2
    · rw [hworld]
      exact performed_growing.execute_eq.1.symm
  obtain ⟨reports, r, hrun⟩ := run_of_reachesUpdate hreaches
  have hsearch : sourceFiles World.grown.disk Options.growing.extensions Options.growing.ignored
      ([.winding 818].map .ofPath) = ⟨[], none⟩ := sourceFiles_grown _ _
  have hfound := congrArg Search.failure? hsearch
  obtain ⟨r', hresult, hworld⟩ := exists_updateStage_ok (o := .growing) rfl .grown r hfound
  have hworld' : (updateStage .growing [.winding 818] r .grown).world = .grown := by
    rw [hworld, hsearch]
    rfl
  refine ⟨r', ?_, ?_⟩
  · rw [hrun, result_after, hresult]
  · rw [hrun, world_after, hworld']

/-- The first run ends well and the second does not: the path of a directory has become too long. -/
theorem run_growing :
    Tree.growing.WellFormed ∧ (World.ofTree .growing).git.repositories = [] ∧
      Options.growing.useVersionControl = some false ∧ Options.growing.dryRun = false ∧
      Options.growing.logging = false ∧
      ∃ standing r failure,
        admission .growing ([(Path.winding 818).toString].map .ofText) (.ofTree .growing) =
            .ok (standing, [.winding 818]) ∧
          (run .growing ([(Path.winding 818).toString].map .ofText) (.ofTree .growing)).result =
            .ok r ∧
          (run .growing ([.winding 818].map .ofPath)
            (run .growing ([(Path.winding 818).toString].map .ofText)
              (.ofTree .growing)).world).result = .error failure := by
  have hgiven : [(Path.winding 818).toString].map Root.ofText = [.winding 818].map .ofPath := by
    rw [List.map_singleton, ofText_winding (by decide), List.map_singleton]
  obtain ⟨standing, hadmitted⟩ := admission_growing
  obtain ⟨r, hresult, hworld⟩ := exists_run_growing
  rw [← hgiven] at hadmitted hresult
  have hconverted := (isConverted_of_run (w := .ofTree .growing) (o := .growing) wellFormed_growing
    isToken_tokenText hadmitted rfl rfl rfl hresult).1
  rw [hgiven] at hadmitted hresult hconverted ⊢
  rw [hworld] at hconverted ⊢
  obtain ⟨-, ⟨hshort, -⟩ | ⟨e, -, -, -, hfails⟩⟩ := run_of_isConverted hconverted (.inl rfl)
  · have hretained : (⟨.winding 818, [], ["a-b"], "cc", .directory⟩ : Retained) ∈
        retained World.grown.disk Options.growing.ignored [.winding 818] :=
      (mem_retained_iff wellFormed_grown).mpr ⟨List.mem_singleton_self _,
        ⟨directoryAt?_grown, ⟨.directory, by decide, rfl⟩, by decide⟩⟩
    have hnone := hshort _ hretained rfl
    rw [isTooLong_below_winding (by decide)] at hnone
    exact absurd hnone (by decide)
  · exact ⟨wellFormed_growing, rfl, rfl, rfl, rfl, standing, r, _, hadmitted, hresult, hfails⟩

end Recase
