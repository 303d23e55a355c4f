import Recase.Proofs.Covered
import Recase.Proofs.Ending
import Recase.Proofs.Source.Update

/-!
# What a run leaves alone

A run leaves everything alone that is skipped below its roots, however it ends. What is skipped goes
where the directory goes that it is in.

* `Disk.Skips`: an entry that is skipped; `Disk.Spares`: changes that leave an entry alone, and all
  below it.
* `HasRoots.mem_of_prefix`: a root leads to nothing that is skipped below it or below another but
  over the skipped name, so nothing there is retained (`HasRoots.place_ne`).
* `exists_stage_of_execute`, `Stage.spares`: the moves, all of them or those up to one that fails,
  leave the names alone of what is not retained.
* `updateSources_becomes`, `Spares.written`: so do the references, for the search looks at the new
  names, and no skipped name is one.
* `run_spares`: so does a run.
-/

namespace Recase

open Name Naming Recase.Tree Source

/-- There is an entry with the name in the directory, it is below a root, and its name is
skipped. -/
structure Disk.Skips (d : Disk) (ignored : List String) (roots : List Root) (above : Place)
    (name : String) : Prop where
  isSkipped : Name.isSkipped ignored name = true
  isThere : d.tree.node? (above ++ [name]) ≠ none
  isBelow : ∃ root ∈ roots, ∃ top, d.directoryAt? root.path = some top ∧ top <+: above

/-- The changes leave the entry with a name in a directory alone, and all below it. It is still in
the directory, wherever that has got, and nothing has come below it. -/
structure Disk.Spares (d : Disk) (made : List Change) (d' : Disk) (above : Place) (name : String) :
    Prop where
  stays : ∀ rest, d.tree.node? (above ++ name :: rest) ≠ none →
    placeAfterAll made (above ++ name :: rest) = placeAfterAll made above ++ name :: rest
  node?_eq : ∀ rest, d'.tree.node? (placeAfterAll made above ++ name :: rest) =
    d.tree.node? (above ++ name :: rest)

/-- What has become of a disk on which all is left alone that is skipped below roots. -/
def Disk.SparesSkipped (d : Disk) (ignored : List String) (roots : List Root) (d' : Disk) : Prop :=
  ∃ made, d.Becomes made d' ∧
    ∀ above name, d.Skips ignored roots above name → d.Spares made d' above name

variable {d₀ d d' d'' : Disk} {ignored extensions : List String} {roots : List Root}
  {kept : List Path} {above top : Place} {name : String} {made more : List Change}
  {ν : Naming} {e : Retained}

/-! ## Entries that are skipped -/

/-- What is skipped below roots is skipped below those of them that are kept. -/
theorem Disk.Skips.of_outermostRoots (h : d.Skips ignored roots above name) (ht : d.tree.WellFormed)
    (hroots : ∀ r ∈ roots, r.path.IsNormal) (hkept : outermostRoots d roots = .ok kept) :
    d.Skips ignored (kept.map .ofPath) above name := by
  obtain ⟨root, hroot, top, htop, hpre⟩ := h.isBelow
  obtain ⟨path, hpath, hin⟩ := exists_of_outermostRoots ht hroots hkept hroot
  rw [topAt_eq htop] at hin
  exact ⟨h.isSkipped, h.isThere, .ofPath path, List.mem_map_of_mem hpath, _,
    directoryAt?_of_mem_outermostRoots ht hroots hkept hpath, hin.trans hpre⟩

theorem Disk.Skips.exists_root (h : d.Skips ignored (kept.map .ofPath) above name) :
    ∃ root ∈ kept, ∃ top front, d.directoryAt? root = some top ∧ above = top ++ front := by
  obtain ⟨root, hroot, top, htop, front, rfl⟩ := h.isBelow
  obtain ⟨path, hpath, rfl⟩ := List.mem_map.mp hroot
  exact ⟨path, hpath, top, front, htop, rfl⟩

namespace Disk.HasRoots

variable (h : d₀.HasRoots kept)
include h

/-- Names that lead from a root to something below another root, or the same, have its name among
them. -/
theorem mem_of_prefix {root other : Path} {top place : Place} {front names : List String}
    (hroot : root ∈ kept) (hother : other ∈ kept) (htop : d₀.directoryAt? root = some top)
    (hplace : d₀.directoryAt? other = some place)
    (hpre : place ++ front ++ [name] <+: top ++ names) :
    name ∈ names := by
  -- both roots are on the way to one place, so they are one
  have hup : place <+: top ++ names :=
    ((List.prefix_append _ _).trans (List.prefix_append _ _)).trans hpre
  obtain rfl := h.areApart.eq_of_prefix_of_prefix hother hroot (topAt_eq hplace ▸ hup)
    (topAt_eq htop ▸ List.prefix_append top names)
  obtain rfl : place = top := Option.some.inj (hplace.symm.trans htop)
  rw [List.append_assoc, List.prefix_append_right_inj] at hpre
  exact hpre.subset (by simp)

/-- Nothing at or below an entry that is skipped is retained. -/
theorem place_ne (hskips : d₀.Skips ignored (kept.map .ofPath) above name)
    (he : e ∈ retained d₀ ignored kept) (rest : List String) : e.place ≠ above ++ name :: rest := by
  intro heq
  obtain ⟨other, hother, place, front, hplace, rfl⟩ := hskips.exists_root
  obtain ⟨hroot, hretains⟩ := (mem_retained_iff h.wellFormed).mp he
  have hpre : place ++ front ++ [name] <+: e.top ++ e.names := by
    rw [← e.place_eq, heq]
    exact ⟨rest, by simp⟩
  have hmem := h.mem_of_prefix hroot hother hretains.top hplace hpre
  have hskipped := List.all_eq_true.mp hretains.visible name hmem
  simp [hskips.isSkipped] at hskipped

end Disk.HasRoots

/-! ## Moves -/

/-- An entry is left alone, and all below it, while they have their own names. -/
theorem Disk.Stage.spares (hs : d₀.Stage ν [] d) (ht : d₀.tree.WellFormed)
    (hplaces : ∀ place, d₀.tree.node? place ≠ none → placeAfterAll made place = ν.relocate place)
    (hthere : d₀.tree.node? (above ++ [name]) ≠ none)
    (hown : ∀ rest, ν (above ++ name :: rest) = own (above ++ name :: rest)) :
    d₀.Spares made d above name := by
  have halong : ∀ rest, ν.along (above ++ [name]) rest = rest := by
    intro rest
    have hsame : ν.along (above ++ [name]) rest = own.along (above ++ [name]) rest :=
      along_congr fun front _ _ => by simpa using hown front
    rw [hsame, along_own]
  have hrelocate :
      ∀ rest, ν.relocate (above ++ name :: rest) = ν.relocate above ++ name :: rest := by
    intro rest
    have hname : ν (above ++ [name]) = name := by rw [hown, own_concat]
    rw [relocate_append, along, halong, hname]
  obtain ⟨node, hnode⟩ := Option.ne_none_iff_exists'.mp hthere
  have habove := isDirectory_iff.mp (ht.isDirectory_of_concat hnode)
  have hplace := hplaces above (by simp [habove])
  refine ⟨fun rest hrest => ?_, fun rest => ?_⟩
  · rw [hplaces _ hrest, hplace, hrelocate]
  · rw [hplace, hs.tree, Tree.arranged, without_nil]
    have hsep : d₀.tree.Separates ν := by simpa using hs.arranged.separates
    refine Option.ext fun found => ⟨fun hfound => ?_, fun hfound => ?_⟩
    · have hbelow :
          (d₀.tree.renamed ν).node? (ν.relocate (above ++ [name]) ++ rest) = some found := by
        rw [hrelocate]
        simpa using hfound
      obtain ⟨sources, rfl, hsource⟩ := hsep.exists_of_node?_append ht hthere hbelow
      rw [halong]
      simpa using hsource
    · rw [← hrelocate]
      exact hsep.node?_renamed ht hfound

/-- The names when a run has made its moves, or has failed at one of them. What is not retained has
its own. -/
theorem exists_stage_of_execute {isTaken : Path → Bool} {token : Nat → String} {moves : List Move}
    {w : World} (h : w.disk.HasRoots kept) (hlinks : w.disk.tree.LinkFree)
    (htoken : ∀ n, IsToken (token n))
    (hturns : Turns isTaken token (Retained.inOrder (retained w.disk ignored kept)) moves) :
    ∃ ν, w.disk.Stage ν [] (execute (World.mover false) none moves w).state.disk ∧
      (∀ place, (∀ e ∈ retained w.disk ignored kept, e.place ≠ place) → ν place = own place) ∧
      ((execute (World.mover false) none moves w).failure? = none →
        ν = namesAfterAll w.disk ignored kept) := by
  cases hdone : (execute (World.mover false) none moves w).failure? with
  | none =>
    obtain ⟨gone, hs⟩ := hturns.stage_end h htoken (execute_of_none hdone).disk.1
    obtain rfl := hs.gone_eq_nil hlinks
    exact ⟨_, hs, fun place hplace => Disk.HasRoots.namesAfter_of_not_retained
      (inOrder_eq_append _) hplace, fun _ => rfl⟩
  | some failure =>
    obtain ⟨before, m, after, s', hmoves, hperformed, hfails⟩ := execute_of_some hdone
    rw [World.mover_false] at hfails
    obtain ⟨hstate, hsome⟩ := Prod.mk.inj hfails
    have hsame : (execute (World.mover false) none moves w).state.disk = s'.disk :=
      directMove_eq_of_some (Prod.ext (congrArg World.disk hstate) hsome)
    rw [hmoves] at hturns
    obtain ⟨front, e, back, x, y, isPaired, gone, horder, -, -, -, -, hs⟩ :=
      exists_moment h htoken hturns hperformed.disk.1
    obtain rfl := hs.gone_eq_nil hlinks
    refine ⟨_, by rwa [hsame], fun place hplace => ?_, by simp⟩
    rw [Function.update_of_ne (hplace e (mem_of_inOrder horder).1).symm]
    exact Disk.HasRoots.namesAfter_of_not_retained horder hplace

/-! ## References -/

theorem placeAfterAll_of_wrote {place : Place}
    (h : ∀ change ∈ more, ∃ other written, change = .wrote other written) :
    placeAfterAll more place = place := by
  induction more with
  | nil => rfl
  | cons change rest ih =>
    obtain ⟨other, written, rfl⟩ := h change List.mem_cons_self
    exact ih fun change hchange => h change (List.mem_cons_of_mem _ hchange)

/-- Files that are written at the end leave everything where it is. -/
theorem placeAfterAll_append_of_wrote
    (h : ∀ change ∈ more, ∃ other written, change = .wrote other written) (place : Place) :
    placeAfterAll (made ++ more) place = placeAfterAll made place := by
  rw [placeAfterAll_append, placeAfterAll_of_wrote h]

theorem node?_of_wrote {t : Tree} {place : Place}
    (h : ∀ change ∈ more, ∃ other written, place ≠ other ∧ change = .wrote other written) :
    (more.foldl Tree.apply t).node? place = t.node? place := by
  induction more generalizing t with
  | nil => rfl
  | cons change rest ih =>
    obtain ⟨other, written, hne, rfl⟩ := h change List.mem_cons_self
    rw [List.foldl_cons, ih fun change hchange => h change (List.mem_cons_of_mem _ hchange)]
    exact node?_put_of_ne hne

/-- Files that are written elsewhere leave an entry alone, and all below it. -/
theorem Disk.Spares.written (h : d.Spares made d' above name) (hmore : d'.Becomes more d'')
    (hother : ∀ change ∈ more, ∃ place written,
      ¬ placeAfterAll made above ++ [name] <+: place ∧ change = .wrote place written) :
    d.Spares (made ++ more) d'' above name := by
  have hplace : ∀ place, placeAfterAll (made ++ more) place = placeAfterAll made place := by
    refine placeAfterAll_append_of_wrote fun change hchange => ?_
    obtain ⟨other, written, -, hwrote⟩ := hother change hchange
    exact ⟨other, written, hwrote⟩
  refine ⟨fun rest hrest => ?_, fun rest => ?_⟩
  · rw [hplace, hplace, h.stays rest hrest]
  · rw [hplace, ← h.node?_eq rest, hmore.tree, node?_of_wrote]
    intro change hchange
    obtain ⟨other, written, hnot, hwrote⟩ := hother change hchange
    refine ⟨other, written, ?_, hwrote⟩
    rintro rfl
    exact hnot ⟨rest, by simp⟩

/-- What the path of a source file leads to. -/
theorem Disk.IsSource.eq_of_find {root : Path} {names : List String} {place : Place}
    (h : d.IsSource extensions ignored root names) (ht : d.tree.WellFormed) (hroot : root.IsNormal)
    (hfind : d.find (root.below names).route .follow = .ok (.entry place)) :
    ∃ top, d.directoryAt? root = some top ∧ place = top ++ names := by
  obtain ⟨top, content, htop, hnode⟩ := h.node
  obtain ⟨name, hlast, -⟩ := h.extension
  obtain ⟨front, rfl⟩ := List.getLast?_eq_some_iff.mp hlast
  rw [← List.append_assoc] at hnode
  have hname := (ht.isPlain hnode (List.mem_append_right _ (List.mem_singleton_self name))).isName
  have henters := Disk.enters_below ht hroot htop (ht.isDirectory_of_concat hnode)
  obtain ⟨hnul, hlong, -⟩ := Disk.find_eq_ok_iff.mp hfind
  rw [henters.find_entry ht hname hnul hlong hnode (by simp)] at hfind
  cases hfind
  exact ⟨top, htop, List.append_assoc _ _ _⟩

/-- Once all moves are made, nothing is changed but files below roots that are written. No name on
the way to one of them is skipped. -/
theorem updateSources_becomes (extensions : List String) {w s : World} (h : w.disk.HasRoots kept)
    (htops : ∀ root ∈ kept, w.disk.directoryAt? root = some (w.disk.topAt root))
    (hs : w.disk.Stage (namesAfterAll w.disk ignored kept) [] s.disk) :
    ∃ more, s.disk.Becomes more (updateSources s extensions ignored (kept.map .ofPath)).world.disk ∧
      ∀ change ∈ more, ∃ root ∈ kept, ∃ names written, isRetained ignored names = true ∧
        change = .wrote (w.disk.topAt root ++ names) written := by
  have ht := hs.wellFormed h.wellFormed
  obtain ⟨more, hmore, hplaces⟩ :=
    updateFiles_becomes ht (sourceFiles s.disk extensions ignored (kept.map .ofPath)).files
  refine ⟨more, hmore, fun change hchange => ?_⟩
  obtain ⟨path, hpath, place, written, hfind, rfl⟩ := hplaces change hchange
  obtain ⟨found, hfound⟩ | ⟨hnil, -⟩ :=
    outermostRoots_cases s.disk extensions ignored (kept.map .ofPath)
  · obtain rfl := outermostRoots_of_stage h hs (fun root hroot => ⟨_, htops root hroot⟩) hfound
    obtain ⟨root, hroot, names, hsource, rfl⟩ := isSource_of_mem_sourceFiles ht hfound hpath
    obtain ⟨top, htop, rfl⟩ := hsource.eq_of_find ht (h.isNormal root hroot) hfind
    obtain rfl := hs.directoryAt?_eq h.wellFormed (h.isNormal root hroot) (htops root hroot)
      (h.relocate_top_of_all hroot (htops root hroot)) htop
    exact ⟨root, hroot, names, written, hsource.visible, rfl⟩
  · rw [hnil] at hpath
    cases hpath

/-! ## Runs -/

/-- The stage of the moves, and that of the references if it comes to it, leave everything alone
that is skipped. -/
theorem moveStage_spares {o : Options} {standing : Standing} {r : RunResult} {plan : Plan}
    {isTaken : Path → Bool} {token : Nat → String} {w : World} (h : w.disk.HasRoots kept)
    (htops : ∀ root ∈ kept, w.disk.directoryAt? root = some (w.disk.topAt root))
    (hlinks : w.disk.tree.LinkFree) (htoken : ∀ n, IsToken (token n))
    (hturns : Turns isTaken token (Retained.inOrder (retained w.disk o.ignored kept)) plan.moves)
    (hplain : o.useVersionControl.getD standing.isVersioned = false) (hsilent : o.logging = false) :
    w.disk.SparesSkipped o.ignored (kept.map .ofPath)
      (moveStage o kept standing r plan w).world.disk := by
  obtain ⟨ν, hs, hown, hall⟩ := exists_stage_of_execute h hlinks htoken hturns
  obtain ⟨made, hmade, hplaces⟩ := hs.course
  have hplaces' := fun place hplace => hplaces place hplace List.not_mem_nil
  have hmoved : ∀ above name, w.disk.Skips o.ignored (kept.map .ofPath) above name →
      w.disk.Spares made (execute (World.mover false) none plan.moves w).state.disk above name :=
    fun above name hskips => hs.spares h.wellFormed hplaces' hskips.isThere fun rest =>
      hown _ fun e he => h.place_ne hskips he rest
  unfold moveStage
  rw [hplain]
  dsimp only [world_after]
  cases hdone : (execute (World.mover false) none plan.moves w).failure? with
  | some failure => exact ⟨made, hmade, hmoved⟩
  | none =>
    dsimp only
    rw [world_updateStage hsilent]
    obtain rfl := hall hdone
    obtain ⟨more, hmore, hwrote⟩ := updateSources_becomes o.extensions h htops hs
    refine ⟨made ++ more, hmade.trans hmore, fun above name hskips => ?_⟩
    refine (hmoved above name hskips).written hmore fun change hchange => ?_
    obtain ⟨root, hroot, names, written, hvisible, rfl⟩ := hwrote change hchange
    refine ⟨_, written, fun hpre => ?_, rfl⟩
    obtain ⟨other, hother, place, front, hplace, rfl⟩ := hskips.exists_root
    obtain ⟨node, hnode⟩ := Option.ne_none_iff_exists'.mp hskips.isThere
    have hthere := isDirectory_iff.mp (h.wellFormed.isDirectory_of_concat hnode)
    rw [hplaces' _ (by simp [hthere]), relocate_append, h.relocate_top_of_all hother hplace] at hpre
    have hmem := h.mem_of_prefix hroot hother (htops root hroot) hplace hpre
    simpa [hskips.isSkipped] using List.all_eq_true.mp hvisible name hmem

theorem Disk.SparesSkipped.refl (d : Disk) (ignored : List String) (roots : List Root) :
    d.SparesSkipped ignored roots d :=
  ⟨[], .refl d, fun _ _ _ => ⟨fun _ _ => rfl, fun _ => rfl⟩⟩

/-- A run that makes the moves itself, and writes no log, leaves everything alone that is skipped
below its roots, however it ends. -/
theorem run_spares {o : Options} {texts : List String} {w : World} (ht : w.disk.tree.WellFormed)
    (hlinks : w.disk.tree.LinkFree) (htoken : ∀ n, IsToken (w.token n))
    (hplain : ∀ standing kept, admission o (texts.map .ofText) w = .ok (standing, kept) →
      o.useVersionControl.getD standing.isVersioned = false)
    (hsilent : o.logging = false) :
    w.disk.SparesSkipped o.ignored (texts.map .ofText)
        (run o (texts.map .ofText) w).world.disk := by
  obtain ⟨hsame, -⟩ | ⟨standing, kept, plan, reports, r, hadmitted, hplan, -, hrun⟩ :=
    run_unchanged_or_moves o (texts.map .ofText) w
  · rw [hsame]
    exact .refl _ _ _
  · obtain ⟨h, htops, -⟩ := hasRoots_of_admission ht (isNormal_ofText _) hadmitted
    have hturns := (isPlanOf_of_admission ht (isNormal_ofText _) hadmitted hplan).moves
    obtain ⟨made, hmade, hspares⟩ :=
      moveStage_spares (w := { w with drawn := (preview w o.ignored (kept.map .ofPath)).drawn })
        (r := r) h htops hlinks htoken hturns (hplain standing kept hadmitted) hsilent
    rw [hrun, world_after]
    exact ⟨made, hmade, fun above name hskips => hspares above name
      (hskips.of_outermostRoots ht (isNormal_ofText texts)
        (outermostRoots_of_admission hadmitted))⟩

/-- A directory with a skipped one in it, and a file in each. -/
def Tree.building : Tree :=
  ⟨[(["FooBar"], .directory), (["FooBar", "MainApp.ts"], .file "import A from './SubApp'".toUTF8),
    (["FooBar", "dist"], .directory),
    (["FooBar", "dist", "BazQux.ts"], .file "export default 1".toUTF8)]⟩

def Options.building : Options :=
  { Options.default (World.ofTree .building).disk with useVersionControl := some false }

/-- The directory above is renamed, and a file next to the skipped one is renamed and written. -/
theorem run_spares_building :
    let after := (run .building (["."].map .ofText) (.ofTree .building)).world.disk
    placeAfterAll after.changes ["FooBar", "dist", "BazQux.ts"] = ["foo-bar", "dist", "BazQux.ts"] ∧
      after.tree.node? ["foo-bar", "dist", "BazQux.ts"] = some (.file "export default 1".toUTF8) ∧
      after.tree.node? ["foo-bar", "main-app.ts"] =
          some (.file "import A from './sub-app'".toUTF8) := by
  have hspared : (World.ofTree .building).disk.SparesSkipped Options.building.ignored
      (["."].map .ofText) (run .building (["."].map .ofText) (.ofTree .building)).world.disk :=
    run_spares (by decide)
      (linkFree_of_entries (by simp [World.ofTree, Tree.building])) isToken_tokenText
      (fun _ _ _ => rfl) rfl
  obtain ⟨made, hmade, hspares⟩ := hspared
  obtain rfl : _ = made := hmade.changes
  have hdist := hspares ["FooBar"] "dist"
    ⟨by decide, by decide, .ofText ".", List.mem_singleton_self _, [], by decide, List.nil_prefix⟩
  have hplace :
      placeAfterAll (run .building (["."].map .ofText) (.ofTree .building)).world.disk.changes
      ["FooBar"] = ["foo-bar"] := by decide +kernel
  have hstays := hdist.stays ["BazQux.ts"] (by decide)
  have hnode := hdist.node?_eq ["BazQux.ts"]
  rw [hplace] at hstays hnode
  exact ⟨hstays, hnode, by decide +kernel⟩

end Recase
