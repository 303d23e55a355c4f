import Recase.Proofs.Converted
import Recase.Proofs.Covered

/-!
# A plan that is taken up again

The moves of a plan may stop between two turns. A new plan for what is there then makes the tree
that the first one was to make.

* `Move.leaveNoneHalfway`: a list of moves ends between two turns. `Turns.exists_of_append`: then it
  is made of whole turns.
* `HasRoots.retains_renamed`, `HasRoots.isRetained_along`: what is retained stays so under the names
  of the moment, as long as no directory gets a skipped name.
* `HasRoots.relocate_resumed`: the names after all turns of the new plan are those after all turns
  of the first one.
* `execute_resumed`: so the trees are the same.
-/

namespace Recase

open Name Naming Recase.Tree

variable {d₀ d : Disk} {ignored : List String} {kept : List Path} {front back : List Retained}
  {e r : Retained} {place : Place}

/-! ## Where a plan stops -/

/-- The two moves of a pair come one right after the other, so that none is left halfway when their
number is even. -/
def Move.leaveNoneHalfway (moves : List Move) : Bool := moves.countP (·.isPaired) % 2 == 0

theorem Turns.exists_of_append {isTaken : Path → Bool} {token : Nat → String}
    {entries : List Retained} {moves before after : List Move}
    (h : Turns isTaken token entries moves)
    (hmoves : moves = before ++ after) (hwhole : Move.leaveNoneHalfway before = true) :
    ∃ front back, entries = front ++ back ∧ Turns isTaken token front before ∧
      Turns isTaken token back after := by
  induction h generalizing before with
  | nil =>
    obtain ⟨rfl, rfl⟩ := List.append_eq_nil_iff.mp hmoves.symm
    exact ⟨[], [], rfl, .nil, .nil⟩
  | @cons e rest legs moves hlegs hrest ih =>
    cases before with
    | nil =>
      obtain rfl : _ = after := hmoves
      exact ⟨[], e :: rest, rfl, .nil, .cons hlegs hrest⟩
    | cons m before =>
      cases hlegs with
      | single =>
        obtain ⟨rfl, hbehind⟩ := List.cons.inj hmoves
        obtain ⟨front, back, rfl, hfront, hback⟩ := ih hbehind hwhole
        exact ⟨e :: front, back, rfl, .cons .single hfront, hback⟩
      | @paired temporary htemporary hfree =>
        obtain ⟨rfl, hbehind⟩ := List.cons.inj hmoves
        cases before with
        | nil => cases hwhole
        | cons m before =>
          obtain ⟨rfl, hmore⟩ := List.cons.inj hbehind
          have hrest : Move.leaveNoneHalfway before = true := by
            simpa [Move.leaveNoneHalfway, Retained.leg, Nat.add_assoc] using hwhole
          obtain ⟨front, back, rfl, hfront, hback⟩ := ih hmore hrest
          exact ⟨e :: front, back, rfl, .cons (.paired htemporary hfree) hfront, hback⟩

/-! ## The names of the moment -/

/-- No directory that is retained gets a name that is skipped. -/
def Disk.ShowsConverted (d : Disk) (ignored : List String) (kept : List Path) : Prop :=
  ∀ e ∈ retained d ignored kept, e.kind = .directory → isSkipped ignored e.newName = false

theorem Disk.showsConverted_of_scan {roots : List Root} {items : List Item} (ht : d.tree.WellFormed)
    (hkept : outermostRoots d roots = .ok kept) (hscan : (scan d ignored roots).items = .ok items)
    (hshown : ∀ item ∈ items, item.kind = .directory → item.convertedName ∉ ignored) :
    d.ShowsConverted ignored kept := by
  obtain ⟨found, hfound, rfl⟩ := scan_items hscan
  obtain rfl := Except.ok.inj (hkept.symm.trans hfound)
  intro e he hkind
  have hvisible := isVisible_of_mem_retained ht e he
  have hnot := hshown e.item (List.mem_map_of_mem he) hkind
  rw [hvisible.item_convertedName] at hnot
  simp [isSkipped, hvisible.head_newName, hnot]

namespace Disk.HasRoots

variable (h : d₀.HasRoots kept)
  (horder : Retained.inOrder (retained d₀ ignored kept) = front ++ back)
include h horder

/-- A retained entry has its own name or its converted one. -/
theorem namesAfter_cases (he : e ∈ retained d₀ ignored kept) :
    namesAfter front e.place = e.name ∨ namesAfter front e.place = e.newName := by
  by_cases hfront : e ∈ front
  · exact .inr (h.namesAfter_of_done horder he fun _ => hfront)
  · exact .inl (h.namesAfter_of_not_mem horder he hfront)

/-- The rule makes of the name of the moment what it makes of the entry's own. -/
theorem newName_renamed (he : e ∈ retained d₀ ignored kept) :
    (e.renamed (namesAfter front)).newName = e.newName := by
  unfold Retained.renamed Retained.newName
  dsimp only
  rcases h.namesAfter_cases horder he with hname | hname
  · rw [hname]
  · rw [hname]
    exact EntryKind.convert_convert _ _

variable (hshown : d₀.ShowsConverted ignored kept)
include hshown

/-- No directory on the way to a retained entry is skipped under the name of the moment. -/
theorem isRetained_along {root : Path} {top : Place} {above : List String} (hroot : root ∈ kept)
    (htop : d₀.directoryAt? root = some top) (hdir : d₀.tree.isDirectory (top ++ above) = true)
    (hvisible : isRetained ignored above = true) :
    isRetained ignored ((namesAfter front).along top above) = true := by
  induction above using List.reverseRecOn with
  | nil => rfl
  | append_singleton above name ih =>
    rw [← List.append_assoc] at hdir
    have hnode := isDirectory_iff.mp hdir
    obtain ⟨habove, hname⟩ := isRetained_concat.mp hvisible
    have he : ⟨root, top, above, name, .directory⟩ ∈ retained d₀ ignored kept :=
      (mem_retained_iff h.wellFormed).mpr ⟨hroot, htop, ⟨_, hnode, rfl⟩, hvisible⟩
    rw [along_append]
    refine isRetained_concat.mpr ⟨ih (h.wellFormed.isDirectory_of_concat hnode) habove, ?_⟩
    rcases h.namesAfter_cases horder he with hsame | hsame
    · exact hsame ▸ hname
    · exact hsame ▸ hshown _ he rfl

variable (hs : d₀.Stage (namesAfter front) [] d)
  (htops : ∀ root ∈ kept, d.directoryAt? root = d₀.directoryAt? root)
include hs htops

/-- What is retained stays so, unless it has got a name that is skipped. -/
theorem retains_renamed (he : e ∈ retained d₀ ignored kept)
    (hname : isSkipped ignored (namesAfter front e.place) = false) :
    e.renamed (namesAfter front) ∈ retained d ignored kept := by
  obtain ⟨hroot, hretains⟩ := (mem_retained_iff h.wellFormed).mp he
  obtain ⟨node, hnode, hkind⟩ := hretains.node
  have hfixed : (namesAfter front).relocate e.top = e.top :=
    h.relocate_top horder hroot hretains.top
  refine (mem_retained_iff (hs.wellFormed h.wellFormed)).mpr ⟨hroot, ?_, ⟨node, ?_, hkind⟩, ?_⟩
  · exact (htops _ hroot).trans hretains.top
  · rw [e.place_renamed hfixed]
    exact hs.node?_relocate h.wellFormed hnode (by simp)
  · have hvisible := isRetained_concat.mp hretains.visible
    rw [Retained.names, isRetained_concat]
    exact ⟨h.isRetained_along horder hshown hroot hretains.top
      (h.wellFormed.isDirectory_of_concat hnode) hvisible.1, hname⟩

/-- A new plan gives a retained entry its converted name, unless it has that already. -/
theorem namesAfterAll_renamed (h' : d.HasRoots kept) (he : e ∈ retained d₀ ignored kept) :
    namesAfterAll d ignored kept (e.renamed (namesAfter front)).place = e.newName := by
  have hvisible := ((mem_retained_iff h.wellFormed).mp he).2.visible
  cases hskipped : isSkipped ignored (namesAfter front e.place) with
  | false =>
    have hnow := h.retains_renamed horder hshown hs htops he hskipped
    rw [namesAfterAll, h'.namesAfter_of_done (inOrder_eq_append _) hnow fun hchanges =>
      Retained.mem_inOrder_iff.mpr ⟨hnow, hchanges⟩]
    exact h.newName_renamed horder he
  | true =>
    -- the entry's own name is not skipped, and what is skipped keeps the name that it has
    have hconverted : namesAfter front e.place = e.newName := by
      refine (h.namesAfter_cases horder he).resolve_left fun hname => ?_
      rw [hname, (isRetained_concat.mp hvisible).2] at hskipped
      cases hskipped
    rw [← hconverted, namesAfterAll, Disk.HasRoots.namesAfter_of_not_retained (inOrder_eq_append _)]
    · exact own_concat _ _
    · intro r hr heq
      have hshows := (isRetained_concat.mp ((mem_retained_iff h'.wellFormed).mp hr).2.visible).2
      have hname : r.name = namesAfter front e.place :=
        (List.cons.inj (List.append_inj' heq rfl).2).1
      rw [hname, hskipped] at hshows
      cases hshows

omit hshown in
/-- What was not retained is not retained now. -/
theorem relocate_ne_of_not_retained (h' : d.HasRoots kept) (hplace : d₀.tree.node? place ≠ none)
    (hnone : ∀ e ∈ retained d₀ ignored kept, e.place ≠ place) :
    ∀ r ∈ retained d ignored kept, r.place ≠ (namesAfter front).relocate place := by
  intro r hr heq
  obtain ⟨hroot, hretains⟩ := (mem_retained_iff h'.wellFormed).mp hr
  have htop := (htops _ hroot).symm.trans hretains.top
  obtain ⟨e, he, rfl⟩ := h.exists_of_retains horder hs hroot htop hretains
  obtain ⟨hroot, hretains⟩ := (mem_retained_iff h.wellFormed).mp he
  obtain ⟨node, hnode, -⟩ := hretains.node
  rw [e.place_renamed (h.relocate_top horder hroot hretains.top)] at heq
  refine hnone e he (hs.arranged.separates.relocate_injective
    (hs.arranged.wellFormed_without h.wellFormed) ?_ ?_ heq)
  · simp [hnode]
  · simpa using hplace

/-- A new plan gives what there is the names that the first one was to give it. -/
theorem namesAfterAll_resumed (h' : d.HasRoots kept) (hplace : d₀.tree.node? place ≠ none)
    (hne : place ≠ []) :
    namesAfterAll d ignored kept ((namesAfter front).relocate place) =
      namesAfterAll d₀ ignored kept place := by
  by_cases hretained : ∃ e ∈ retained d₀ ignored kept, e.place = place
  · obtain ⟨e, he, rfl⟩ := hretained
    obtain ⟨hroot, hretains⟩ := (mem_retained_iff h.wellFormed).mp he
    rw [← e.place_renamed (h.relocate_top horder hroot hretains.top),
      h.namesAfterAll_renamed horder hshown hs htops h' he, namesAfterAll,
      h.namesAfter_of_done (inOrder_eq_append _) he fun hchanges =>
        Retained.mem_inOrder_iff.mpr ⟨he, hchanges⟩]
  · have hnone : ∀ e ∈ retained d₀ ignored kept, e.place ≠ place :=
      fun e he heq => hretained ⟨e, he, heq⟩
    have hnone' := h.relocate_ne_of_not_retained horder hs htops h' hplace hnone
    obtain ⟨above, name, rfl⟩ : ∃ above name, place = above ++ [name] :=
      ⟨place.dropLast, place.getLast hne, (List.dropLast_append_getLast hne).symm⟩
    rw [namesAfterAll, Disk.HasRoots.namesAfter_of_not_retained (inOrder_eq_append _) hnone',
      relocate_concat, own_concat, Disk.HasRoots.namesAfter_of_not_retained horder hnone,
        namesAfterAll,
      Disk.HasRoots.namesAfter_of_not_retained (inOrder_eq_append _) hnone]

/-- Where something is after all turns of a new plan it would be after all turns of the first
one. -/
theorem relocate_resumed (h' : d.HasRoots kept) (hplace : d₀.tree.node? place ≠ none) :
    (namesAfterAll d ignored kept).relocate ((namesAfter front).relocate place) =
      (namesAfterAll d₀ ignored kept).relocate place := by
  induction place using List.reverseRecOn with
  | nil => rfl
  | append_singleton above name ih =>
    have hname := h.namesAfterAll_resumed horder hshown hs htops h' hplace (by simp)
    obtain ⟨node, hnode⟩ := Option.ne_none_iff_exists'.mp hplace
    have habove : d₀.tree.node? above ≠ none := by
      simp [isDirectory_iff.mp (h.wellFormed.isDirectory_of_concat hnode)]
    rw [relocate_concat] at hname
    rw [relocate_concat, relocate_concat, relocate_concat, ih habove, hname]

end Disk.HasRoots

/-! ## The trees -/

/-- The tree after the moves of a plan of a tree without links. -/
theorem IsPlanOf.tree_eq {w : World} {plan : Plan} (hplan : IsPlanOf w ignored kept plan)
    (h : w.disk.HasRoots kept) (hlinks : w.disk.tree.LinkFree) (htoken : ∀ n, IsToken (w.token n))
    (hdone : (execute (World.mover false) none plan.moves w).failure? = none) :
    (execute (World.mover false) none plan.moves w).state.disk.tree =
      w.disk.tree.renamed (namesAfterAll w.disk ignored kept) := by
  obtain ⟨hperformed, -⟩ := (execute_of_none hdone).disk
  obtain ⟨gone, hs⟩ := hplan.moves.stage_end h htoken hperformed
  obtain rfl := hs.gone_eq_nil hlinks
  rw [hs.tree, Tree.arranged, without_nil]
  rfl

/-- The moves of a plan may stop where none of a pair is left halfway. The moves of a new plan then
give the tree that all moves of the first one give, if both succeed and no directory gets a skipped
name. -/
theorem execute_resumed {w s : World} {text : String} {items : List Item} {plan plan' : Plan}
    {before after : List Move} (ht : w.disk.tree.WellFormed) (hlinks : w.disk.tree.LinkFree)
    (htoken : ∀ n, IsToken (w.token n)) (htoken' : ∀ n, IsToken (s.token n))
    (hscan : (scan w.disk ignored [.ofText text]).items = .ok items)
    (hshown : ∀ item ∈ items, item.kind = .directory → item.convertedName ∉ ignored)
    (hplan : (preview w ignored [.ofText text]).plan = .ok plan)
    (hmoves : plan.moves = before ++ after) (hwhole : Move.leaveNoneHalfway before = true)
    (hdone : (execute (World.mover false) none plan.moves w).failure? = none)
    (hstopped : s.disk = (execute (World.mover false) none before w).state.disk)
    (hplan' : (preview s ignored [.ofText text]).plan = .ok plan')
    (hdone' : (execute (World.mover false) none plan'.moves s).failure? = none) :
    (execute (World.mover false) none plan'.moves s).state.disk.tree =
      (execute (World.mover false) none plan.moves w).state.disk.tree := by
  have hnormal := isNormal_ofText [text]
  have hroot : (Root.ofText text).path.IsNormal := hnormal _ (by simp)
  obtain ⟨kept, hkept, hturns⟩ := isPlanOf_of_preview ht hplan
  obtain ⟨rfl, top, htop⟩ := (outermostRoots_singleton ht hroot).mp hkept
  have h := hasRoots_of_outermostRoots ht hnormal hkept
  have hshown' := Disk.showsConverted_of_scan ht hkept hscan hshown
  -- the disk between the turns
  obtain ⟨front, back, horder, hfront, -⟩ := hturns.moves.exists_of_append hmoves hwhole
  have hall := execute_of_none hdone
  rw [hmoves] at hall
  obtain ⟨between, hbefore, -⟩ := performed_append_iff.mp hall
  rw [hbefore.execute_eq.1] at hstopped
  have hperformed := hbefore.disk.1
  rw [← hstopped] at hperformed
  have horder' : Retained.inOrder (retained w.disk ignored [(Root.ofText text).path]) =
      [] ++ (front ++ back) := horder
  obtain ⟨gone, hs, -⟩ := hfront.stage h htoken horder' (stage_own ht) (fun _ => rfl) hperformed
  rw [List.nil_append] at hs
  obtain rfl := hs.gone_eq_nil hlinks
  have ht' := hs.wellFormed ht
  -- the root is where it was
  obtain ⟨kept', hkept', hturns'⟩ := isPlanOf_of_preview ht' hplan'
  obtain ⟨rfl, top', htop'⟩ := (outermostRoots_singleton ht' hroot).mp hkept'
  have h' := hasRoots_of_outermostRoots ht' hnormal hkept'
  have htops : ∀ root ∈ [(Root.ofText text).path],
      s.disk.directoryAt? root = w.disk.directoryAt? root := by
    intro root hmem
    obtain rfl := List.mem_singleton.mp hmem
    rw [htop, htop', hs.directoryAt?_eq ht hroot htop (h.relocate_top horder hmem htop) htop']
  have htree : s.disk.tree = w.disk.tree.renamed (namesAfter front) := by
    rw [hs.tree, Tree.arranged, without_nil]
  rw [hturns'.tree_eq h' (hs.linkFree ht hlinks) htoken' hdone',
    hturns.tree_eq h hlinks htoken hdone, htree]
  simp only [renamed, List.map_map, Tree.mk.injEq]
  refine List.map_congr_left fun e he => ?_
  have hplace : w.disk.tree.node? e.1 ≠ none := by simp [ht.node?_of_mem he]
  simp only [Function.comp_apply, h.relocate_resumed horder hshown' hs htops h' hplace]

/-- The first turn of the plan of the sample. -/
def Move.samplePair : List Move :=
  [⟨"Docs", "docs.temp-rename", ⟨.relative, []⟩, true⟩,
    ⟨"docs.temp-rename", "docs", ⟨.relative, []⟩, true⟩]

/-- A world in which only that turn has been had. -/
def World.sampleStopped : World :=
  { World.ofTree .sample with
    disk := (execute (World.mover false) none Move.samplePair (.ofTree .sample)).state.disk }

theorem execute_resumed_sample :
    ∃ plan plan', (preview (.ofTree .sample) ["dist"] [.ofText "."]).plan = .ok plan ∧
      (preview .sampleStopped ["dist"] [.ofText "."]).plan = .ok plan' ∧
      plan'.moves = plan.moves.drop 2 ∧
      (execute (World.mover false) none plan'.moves .sampleStopped).state.disk.tree =
        (execute (World.mover false) none plan.moves (.ofTree .sample)).state.disk.tree := by
  obtain ⟨items, hscan, hshown⟩ : ∃ items,
      (scan (World.ofTree .sample).disk ["dist"] [.ofText "."]).items = .ok items ∧
        ∀ item ∈ items, item.kind = .directory → item.convertedName ∉ ["dist"] :=
    exists_ok_of_any (by decide +kernel)
  obtain ⟨plan, hplan, hmoves, hdone⟩ : ∃ plan,
      (preview (.ofTree .sample) ["dist"] [.ofText "."]).plan = .ok plan ∧
        plan.moves = Move.samplePair ++ [⟨"srcFiles", "src-files", ⟨.relative, []⟩, false⟩,
          ⟨"src-files/FooBar.ts", "src-files/foo-bar.ts", ⟨.relative, []⟩, false⟩] ∧
        (execute (World.mover false) none plan.moves (.ofTree .sample)).failure? = none :=
    exists_ok_of_any (by decide +kernel)
  obtain ⟨plan', hplan', hmoves', hdone'⟩ : ∃ plan',
      (preview .sampleStopped ["dist"] [.ofText "."]).plan = .ok plan' ∧
        plan'.moves = [⟨"srcFiles", "src-files", ⟨.relative, []⟩, false⟩,
          ⟨"src-files/FooBar.ts", "src-files/foo-bar.ts", ⟨.relative, []⟩, false⟩] ∧
        (execute (World.mover false) none plan'.moves .sampleStopped).failure? = none :=
    exists_ok_of_any (by decide +kernel)
  refine ⟨plan, plan', hplan, hplan', by rw [hmoves, hmoves']; rfl, ?_⟩
  exact execute_resumed (w := .ofTree .sample) (s := .sampleStopped) (by decide)
    (linkFree_of_entries (by simp [World.ofTree, Tree.sample])) isToken_tokenText isToken_tokenText
    hscan hshown hplan hmoves (by decide) hdone rfl hplan' hdone'

end Recase
