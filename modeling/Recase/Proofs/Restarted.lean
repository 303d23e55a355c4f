import Recase.Proofs.Again
import Recase.Proofs.Recovery
import Recase.Proofs.Written

/-!
# A run that is stopped, recovered and made again

* `Disk.CarriesFiles`: every file is where changes have left it, and holds what it held. Moves of a
  plan do so, all of them or the first few (`Turns.exists_stage`, `Stage.exists_carriesFiles`), and
  so does recovery, however it ends (`exists_carriesFiles_of_recover`).
* `StopsAfter`: a run stops when it has made the first of its moves.
* `run_after_recover`: if the run is made again after recovery, files hold what they held or their
  converted texts, by whether there was anything left to rename. `run_recovered`: there may be
  nothing left.
-/

namespace Recase

open Name Naming Recase.Tree Source

variable {d₀ d d' d'' : Disk} {ignored : List String} {kept : List Path} {made more : List Change}
  {root : Path} {front : List String} {x y : String} {ν : Naming} {gone : List Place}

/-! ## Files that are carried along -/

/-- Every file is where the changes have left it, and holds what it held. -/
structure Disk.CarriesFiles (d : Disk) (made : List Change) (d' : Disk) : Prop where
  becomes : d.Becomes made d'
  node? : ∀ place content, d.tree.node? place = some (.file content) →
    d'.tree.node? (placeAfterAll made place) = some (.file content)

namespace Disk

protected theorem CarriesFiles.refl (d : Disk) : d.CarriesFiles [] d := ⟨.refl d, fun _ _ h => h⟩

protected theorem CarriesFiles.trans (h : d.CarriesFiles made d') (h' : d'.CarriesFiles more d'') :
    d.CarriesFiles (made ++ more) d'' := by
  refine ⟨h.becomes.trans h'.becomes, fun place content hfile => ?_⟩
  rw [placeAfterAll_append]
  exact h'.node? _ content (h.node? place content hfile)

/-- Files are where their names are. -/
theorem Stage.exists_carriesFiles (hs : d₀.Stage ν gone d) (ht : d₀.tree.WellFormed) :
    ∃ made, d₀.CarriesFiles made d := by
  obtain ⟨made, hmade, hplaces⟩ := hs.course
  refine ⟨made, hmade, fun place content hfile => ?_⟩
  have hstays := hs.arranged.not_gone_of_ne_link ht hfile (by simp)
  rw [hplaces place (by simp [hfile]) hstays]
  exact hs.node?_relocate ht hfile hstays

/-- An entry that gets a free name in its directory is carried along with what is below it. -/
theorem RenamesWithin.carriesFiles (h : d.RenamesWithin root front x y d')
    (ht : d.tree.WellFormed) :
    ∃ made, d.CarriesFiles made d' := by
  obtain ⟨-, hnode, hfree, -⟩ := h
  refine ⟨_, becomes_commit _ _, fun place content hfile => ?_⟩
  have hthere : d.tree.node? place ≠ none := by simp [hfile]
  have hdst := ht.not_prefix_of_free hfree hthere
  exact ((ht.carries_within hnode hfree).node?_carried hdst).trans hfile

end Disk

/-! ## Recovery -/

section

variable {paths : List Path} {roots : List Root}

/-- Leftovers that are moved carry files along, also if one of them cannot be moved. -/
theorem exists_carriesFiles_of_recoverFrom (ht : d.tree.WellFormed)
    (hpaths : ∀ path ∈ paths, path.IsNormal) :
    (recoverFrom d paths).2.tree.WellFormed ∧
        ∃ made, d.CarriesFiles made (recoverFrom d paths).2 := by
  induction paths generalizing d with
  | nil => exact ⟨ht, _, .refl d⟩
  | cons path rest ih =>
    obtain ⟨hpath, hrest⟩ := List.forall_mem_cons.mp hpaths
    rw [recoverFrom_cons]
    cases hone : recoverOne d path with
    | error failure => exact ⟨ht, _, .refl d⟩
    | ok done =>
      obtain ⟨intended?, d'⟩ := done
      obtain ⟨intended, -, ⟨-, rfl, -⟩ | ⟨-, -, x, y, hy, -, -, hwithin⟩⟩ :=
        recoverOne_cases ht hpath hone
      · exact ih ht hrest
      · obtain ⟨ht', more, hmore⟩ := ih (hwithin.wellFormed ht hy) hrest
        obtain ⟨made, hmade⟩ := hwithin.carriesFiles ht
        exact ⟨ht', _, hmade.trans hmore⟩

/-- Recovery carries files along, however it ends. -/
theorem exists_carriesFiles_of_recover (ignored : List String) (ht : d.tree.WellFormed)
    (hroots : ∀ r ∈ roots, r.path.IsNormal) :
    (recover d ignored roots).2.tree.WellFormed ∧
        ∃ made, d.CarriesFiles made (recover d ignored roots).2 := by
  unfold recover
  split
  · exact ⟨ht, _, .refl d⟩
  · rename_i found hfound
    refine exists_carriesFiles_of_recoverFrom ht fun path hpath => ?_
    exact isNormal_of_mem_leftovers ht hroots hfound path ((sortBy_perm _ _).mem_iff.mp hpath)

end

/-! ## A run that stops -/

/-- The first moves of a plan leave entries with some names. -/
theorem Turns.exists_stage {isTaken : Path → Bool} {token : Nat → String} {before after : List Move}
    (h : d₀.HasRoots kept) (htoken : ∀ n, IsToken (token n))
    (hturns : Turns isTaken token (Retained.inOrder (retained d₀ ignored kept)) (before ++ after))
    (hperformed : Performed directMove before d₀ d) : ∃ ν gone, d₀.Stage ν gone d := by
  cases after with
  | nil =>
    rw [List.append_nil] at hturns
    obtain ⟨gone, hs⟩ := hturns.stage_end h htoken hperformed
    exact ⟨_, gone, hs⟩
  | cons m after =>
    obtain ⟨front, e, back, x, y, isPaired, gone, -, -, -, -, -, hs⟩ :=
      exists_moment h htoken hturns hperformed
    exact ⟨_, gone, hs⟩

/-- A run that makes its moves itself stops when it has made the first of them, and leaves a
disk. -/
structure StopsAfter (o : Options) (roots : List Root) (w : World) (kept : List Path) (plan : Plan)
    (before : List Move) (d : Disk) : Prop where
  admitted : ∃ standing, admission o roots w = .ok (standing, kept) ∧
    o.useVersionControl.getD standing.isVersioned = false
  planned : (preview w o.ignored (kept.map .ofPath)).plan = .ok plan
  conflicts : plan.conflicts = []
  isReal : o.dryRun = false
  moves : before <+: plan.moves
  done : (execute (World.mover false) none before
    { w with drawn := (preview w o.ignored (kept.map .ofPath)).drawn }).failure? = none
  disk : d = (execute (World.mover false) none before
    { w with drawn := (preview w o.ignored (kept.map .ofPath)).drawn }).state.disk

variable {o : Options} {w s : World} {texts : List String} {plan : Plan} {standing : Standing}
  {r : RunResult}

/-- A run that stops has carried files along. -/
theorem StopsAfter.exists_carriesFiles {before : List Move}
    (h : StopsAfter o (texts.map .ofText) w kept plan before d) (ht : w.disk.tree.WellFormed)
    (htoken : ∀ n, IsToken (w.token n)) :
    d.tree.WellFormed ∧ ∃ made, w.disk.CarriesFiles made d := by
  obtain ⟨standing, hadmitted, -⟩ := h.admitted
  obtain ⟨hroots, -, -⟩ := hasRoots_of_admission ht (isNormal_ofText _) hadmitted
  have hturns := (isPlanOf_of_admission ht (isNormal_ofText _) hadmitted h.planned).moves
  obtain ⟨after, hmoves⟩ := h.moves
  have hperformed := (execute_of_none h.done).disk.1
  rw [← h.disk] at hperformed
  obtain ⟨ν, gone, hs⟩ := Turns.exists_stage hroots htoken (hmoves ▸ hturns) hperformed
  exact ⟨hs.wellFormed ht, hs.exists_carriesFiles ht⟩

/-! ## A run that is made again -/

/-- A run that ends well gives the items of its plan. -/
theorem renamed_of_run {roots : List Root} (hadmitted : admission o roots w = .ok (standing, kept))
    (hplan : (preview w o.ignored (kept.map .ofPath)).plan = .ok plan)
    (hrun : (run o roots w).result = .ok r) : r.renamed = plan.items := by
  obtain ⟨-, reports, hends⟩ |
      ⟨-, reports, r', -, -, ⟨-, message, hrenamed, hends⟩ | ⟨-, -, hends⟩⟩ :=
    run_cases_of_plan hadmitted hplan <;> rw [hends] at hrun
  · cases hrun
  · cases hrun
    exact hrenamed
  · exact (moveStage_of_eq_ok hrun).2.2

/-- A run that ends well leaves files what they held, or their converted texts if it has had
anything to rename and the search for source files comes to them in the end. -/
theorem exists_carriesFiles_of_run (ht : w.disk.tree.WellFormed) (htoken : ∀ n, IsToken (w.token n))
    (hadmitted : admission o (texts.map .ofText) w = .ok (standing, kept))
    (hplain : o.useVersionControl.getD standing.isVersioned = false) (hreal : o.dryRun = false)
    (hsilent : o.logging = false) (hreadable : w.unreadable = []) (hwritable : w.unwritable = [])
    (hrun : (run o (texts.map .ofText) w).result = .ok r) :
    let after := (run o (texts.map .ofText) w).world.disk
    ∃ made, w.disk.Becomes made after ∧ ∀ place content text,
      w.disk.tree.node? place = some (.file content) → Text.decodeUtf8 content = .ok text →
        let isReached :=
          after.Reaches o.extensions o.ignored (kept.map .ofPath) (placeAfterAll made place)
        (r.renamed ≠ [] ∧ isReached →
            after.tree.node? (placeAfterAll made place) =
              some (.file (convertText text).1.toUTF8)) ∧
          (r.renamed = [] ∨ ¬ isReached → after.tree.node? (placeAfterAll made place) =
              some (.file content)) := by
  intro after
  obtain ⟨h, htops, -⟩ := hasRoots_of_admission ht (isNormal_ofText _) hadmitted
  obtain ⟨plan, hplanned, -, hcases⟩ := run_cases hadmitted hplain hreal hsilent hrun
  rw [renamed_of_run hadmitted hplanned hrun]
  obtain ⟨hitems, hworld⟩ | ⟨s, hreaches, hfound, hworld⟩ := hcases
  · -- nothing is renamed
    have hsame : after = w.disk := by simp only [after, hworld]
    rw [hsame]
    exact ⟨[], .refl _, fun place content text hfile _ =>
      ⟨fun hconverted => absurd hitems hconverted.1, fun _ => hfile⟩⟩
  · obtain ⟨⟨gone, hs⟩, hsame⟩ := hreaches.exists_stage ht htoken
    have ht' := hs.wellFormed ht
    have hstill := hs.outermostRoots_eq h (fun root hroot => ⟨_, htops root hroot⟩) hfound
    have hroots : s.disk.HasRoots kept :=
      hasRoots_of_outermostRoots ht' (by simpa [Root.ofPath] using h.isNormal) hstill
    obtain ⟨made, hmade⟩ := hs.exists_carriesFiles ht
    obtain ⟨more, hmore, hwrote⟩ :=
      updateFiles_becomes ht' (sourceFiles s.disk o.extensions o.ignored (kept.map .ofPath)).files
    have hplace : ∀ place, placeAfterAll (made ++ more) place = placeAfterAll made place := by
      refine placeAfterAll_append_of_wrote fun change hchange => ?_
      obtain ⟨-, -, other, written, -, hwritten⟩ := hwrote change hchange
      exact ⟨other, written, hwritten⟩
    have hafter : after = _ := congrArg World.disk hworld
    rw [hafter]
    refine ⟨made ++ more, hmade.becomes.trans hmore, fun place content text hfile htext => ?_⟩
    obtain ⟨hreached, hnot⟩ :=
      node?_updateFiles_sourceFiles ht' (hsame ▸ hreadable) (hsame ▸ hwritable)
        o.extensions o.ignored hroots hstill (hmade.node? place content hfile) htext
    rw [hplace]
    exact ⟨fun hconverted => hreached hconverted.2,
      fun hother => hnot (hother.resolve_left hreaches.items)⟩

/-- A run that has stopped in its moves is made again after recovery. Every file is still there. If
the run has nothing left to rename, it holds what it held; if there was something, and the search
for source files comes to it in the end, it holds the converted text of what it held before the
first run. -/
theorem run_after_recover {kept' : List Path} {before : List Move} {restored : List (Path × Path)}
    (ht : w.disk.tree.WellFormed) (htoken : ∀ n, IsToken (w.token n))
    (htoken' : ∀ n, IsToken (s.token n))
    (hstops : StopsAfter o (texts.map .ofText) w kept plan before d)
    (hrecovered : recover d o.ignored (texts.map .ofText) = (.ok restored, s.disk))
    (hadmitted : admission o (texts.map .ofText) s = .ok (standing, kept'))
    (hplain : o.useVersionControl.getD standing.isVersioned = false) (hsilent : o.logging = false)
    (hreadable : s.unreadable = []) (hwritable : s.unwritable = [])
    (hrun : (run o (texts.map .ofText) s).result = .ok r) :
    let after := (run o (texts.map .ofText) s).world.disk
    ∃ made, w.disk.Becomes made after ∧ ∀ place content text,
      w.disk.tree.node? place = some (.file content) → Text.decodeUtf8 content = .ok text →
        let isReached :=
          after.Reaches o.extensions o.ignored (kept'.map .ofPath) (placeAfterAll made place)
        (r.renamed ≠ [] ∧ isReached →
            after.tree.node? (placeAfterAll made place) =
              some (.file (convertText text).1.toUTF8)) ∧
          (r.renamed = [] ∨ ¬ isReached → after.tree.node? (placeAfterAll made place) =
              some (.file content)) := by
  intro after
  obtain ⟨ht₁, made₁, hmade₁⟩ := hstops.exists_carriesFiles ht htoken
  obtain ⟨ht₂, made₂, hmade₂⟩ :=
    exists_carriesFiles_of_recover o.ignored ht₁ (isNormal_ofText texts)
  rw [hrecovered] at ht₂ hmade₂
  obtain ⟨made₃, hmade₃, hfiles⟩ :=
    exists_carriesFiles_of_run ht₂ htoken' hadmitted hplain hstops.isReal hsilent
      hreadable hwritable hrun
  have hmade := hmade₁.trans hmade₂
  refine ⟨made₁ ++ made₂ ++ made₃, hmade.becomes.trans hmade₃,
    fun place content text hfile htext => ?_⟩
  rw [placeAfterAll_append]
  exact hfiles _ content text (hmade.node? place content hfile) htext

/-- A file, and another under some name that refers to it. -/
def Tree.importing (name : String) : Tree :=
  ⟨[(["Foo.ts"], .file "export default 1".toUTF8),
    ([name], .file "import Foo from './Foo'".toUTF8)]⟩

def Options.importing : Options :=
  { Options.default (World.ofTree (.importing "main.ts")).disk with
    useVersionControl := some false }

/-- The item of the other file, if that needs no new name. -/
def Item.importing : Item := ⟨"main.ts", "main.ts", .file, false, ⟨.relative, []⟩⟩

/-- The first move of the file: to its temporary name. -/
def Move.importingFirst : Move := ⟨"Foo.ts", "foo.ts.temp-rename", ⟨.relative, []⟩, true⟩

/-- The disk after this move. -/
def Disk.importing (name : String) : Disk :=
  (execute (World.mover false) none [.importingFirst] (.ofTree (.importing name))).state.disk

/-- The world after recovery. -/
def World.importing (name : String) : World :=
  { World.ofTree (.importing name) with
    disk := (recover (.importing name) Options.importing.ignored (["."].map .ofText)).2 }

theorem stopsAfter_importing (name : String)
    (hadmitted : admission .importing (["."].map .ofText) (.ofTree (.importing name)) =
      .ok (.unversioned, [⟨.relative, []⟩]))
    (hplan : (preview (.ofTree (.importing name)) Options.importing.ignored
      ([⟨.relative, []⟩].map .ofPath)).plan.toOption.any fun plan =>
        plan.conflicts = [] ∧ [.importingFirst] <+: plan.moves)
    (hdrawn : (preview (.ofTree (.importing name)) Options.importing.ignored
      ([⟨.relative, []⟩].map .ofPath)).drawn = 0)
    (hdone : (execute (World.mover false) none [.importingFirst]
      (.ofTree (.importing name))).failure? = none) :
    ∃ plan, StopsAfter .importing (["."].map .ofText) (.ofTree (.importing name))
      [⟨.relative, []⟩] plan [.importingFirst] (.importing name) := by
  obtain ⟨plan, hplan, hconflicts, hmoves⟩ := exists_ok_of_any hplan
  have hsame : { World.ofTree (.importing name) with drawn := (preview (.ofTree (.importing name))
      Options.importing.ignored ([⟨.relative, []⟩].map .ofPath)).drawn } =
          World.ofTree (.importing name) := by
    rw [hdrawn]
    rfl
  refine ⟨plan, ⟨.unversioned, hadmitted, rfl⟩, hplan, hconflicts, rfl, hmoves, ?_, ?_⟩
  · rwa [hsame]
  · rw [hsame]
    rfl

/-- Another file is left to rename. The reference in it is converted. -/
theorem run_after_recover_importing :
    ∃ r, (run .importing (["."].map .ofText) (.importing "mainApp.ts")).result = .ok r ∧
      r.renamed ≠ [] ∧
      (run .importing (["."].map .ofText) (.importing "mainApp.ts")).world.disk.tree.node?
        ["main-app.ts"] = some (.file "import Foo from './foo'".toUTF8) := by
  obtain ⟨plan, hstops⟩ := stopsAfter_importing "mainApp.ts" (by decide) (by decide +kernel)
    (by decide +kernel) (by decide +kernel)
  obtain ⟨r, hrun, hrenamed⟩ :
      ∃ r, (run .importing (["."].map .ofText) (.importing "mainApp.ts")).result =
      .ok r ∧ r.renamed ≠ [] := exists_ok_of_any (by decide +kernel)
  have hrecovered :
      recover (.importing "mainApp.ts") Options.importing.ignored (["."].map .ofText) =
      (.ok [(⟨.relative, ["foo.ts.temp-rename"]⟩, ⟨.relative, ["foo.ts"]⟩)],
        (World.importing "mainApp.ts").disk) := Prod.ext (by decide +kernel) rfl
  have hadmitted : admission .importing (["."].map .ofText) (.importing "mainApp.ts") =
      .ok (.unversioned, [⟨.relative, []⟩]) := by decide +kernel
  obtain ⟨made, hmade, hfiles⟩ := run_after_recover (w := .ofTree (.importing "mainApp.ts"))
    (s := .importing "mainApp.ts")
      (by decide) isToken_tokenText isToken_tokenText hstops hrecovered hadmitted
    rfl rfl rfl rfl hrun
  refine ⟨r, hrun, hrenamed, ?_⟩
  obtain rfl : _ = made := hmade.changes
  have hplace : placeAfterAll (run .importing (["."].map .ofText)
      (.importing "mainApp.ts")).world.disk.changes ["mainApp.ts"] =
      ["main-app.ts"] := by decide +kernel
  have hfile :=
    (hfiles ["mainApp.ts"] "import Foo from './Foo'".toUTF8 "import Foo from './Foo'" (by decide)
      (by decide +kernel)).1
  have htext : (convertText "import Foo from './Foo'").1 = "import Foo from './foo'" := by
    decide +kernel
  rw [hplace, htext] at hfile
  exact hfile ⟨hrenamed, ⟨.relative, ["main-app.ts"]⟩, by decide +kernel, by decide +kernel⟩

/-- Nothing is left to rename once the file is recovered. The reference in the other one stays. -/
theorem run_recovered :
    ∃ plan restored r,
      StopsAfter .importing (["."].map .ofText) (.ofTree (.importing "main.ts"))
        [⟨.relative, []⟩] plan [.importingFirst] (.importing "main.ts") ∧
      (World.ofTree (.importing "main.ts")).disk.tree.HasNoTemporary ∧
      (∃ items, (scan (World.ofTree (.importing "main.ts")).disk Options.importing.ignored
        ([⟨.relative, []⟩].map .ofPath)).items = .ok items ∧ .importing ∈ items) ∧
      recover (.importing "main.ts") Options.importing.ignored (["."].map .ofText) =
        (.ok restored, (World.importing "main.ts").disk) ∧
      (run .importing (["."].map .ofText) (.importing "main.ts")).result = .ok r ∧
      let after := (run .importing (["."].map .ofText) (.importing "main.ts")).world.disk
      placeAfterAll after.changes ["main.ts"] = ["main.ts"] ∧
        after.Reaches Options.importing.extensions Options.importing.ignored (["."].map .ofText)
          ["main.ts"] ∧
        after.tree.node? ["main.ts"] = some (.file "import Foo from './Foo'".toUTF8) ∧
        (convertText "import Foo from './Foo'").1 = "import Foo from './foo'" := by
  obtain ⟨plan, hstops⟩ := stopsAfter_importing "main.ts" (by decide) (by decide +kernel)
    (by decide +kernel) (by decide +kernel)
  obtain ⟨r, hrun, -⟩ : ∃ r, (run .importing (["."].map .ofText) (.importing "main.ts")).result =
      .ok r ∧ r.renamed = [] := exists_ok_of_any (by decide +kernel)
  refine ⟨plan, [(⟨.relative, ["foo.ts.temp-rename"]⟩, ⟨.relative, ["foo.ts"]⟩)], r, hstops,
    hasNoTemporary_of_entries (by decide +kernel), exists_ok_of_any (by decide +kernel),
    Prod.ext (by decide +kernel) rfl, hrun, by decide +kernel,
    ⟨⟨.relative, ["main.ts"]⟩, by decide +kernel, by decide +kernel⟩, by decide +kernel,
      by decide +kernel⟩

end Recase
