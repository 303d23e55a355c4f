import Recase.Proofs.Plan.Pairs
import Recase.Proofs.Window.Ready
import Recase.Window.Texts

/-!
# Marked rows

What the table of the window shows, after whatever its user does.

* `Window.Redraws`: what an action does to the table and to the plan. Only a preview that gives a
  plan fills the table (`redraws_step`).
* `Window.Pictures`: the table has the rows of a plan, and those are marked whose items the plan
  takes over a temporary name. `pictures_of_preview`: the rows of the plan of a preview are marked
  so.
* `pictures_afterAll`: the table is empty or shows the plan of some preview in this way, that of the
  window if it has one, and each preview that gives a plan is shown.
-/

namespace Recase.Window

open Name Text

variable {w : Window} {world : World} {course : List Moment} {ignored : List String}
  {roots : List Root} {plan : Plan}

/-- What an action does to the table: it keeps it, empties it, or fills it with the plan of the
preview at work. A table that is kept may lose its plan. -/
inductive Redraws (world : World) (w w' : Window) : Prop
  | kept (htable : w'.table = w.table) (hplan : w'.plan? = w.plan? ∨ w'.plan? = none)
  | emptied (htable : w'.table = []) (hplan : w'.plan? = none)
  | filled {roots : List Root} {options : Options} {plan : Plan}
      (hjob : w.job? = some (.preview roots options))
      (hmade : (Recase.preview world options.ignored roots).plan = .ok plan)
      (htable : w'.table = plan.items.map (·.tableRow)) (hplan : w'.plan? = some plan)

theorem redraws_startPreview (w : Window) (d : Disk) : Redraws world w (w.startPreview d).1 := by
  unfold startPreview
  split
  · exact .kept rfl (.inl rfl)
  · exact .kept rfl (.inr rfl)

theorem redraws_startConversion (w : Window) (d : Disk) (isConfirmed : Bool) :
    Redraws world w (w.startConversion d isConfirmed).1 := by
  unfold startConversion
  split
  · exact .kept rfl (.inl rfl)
  · split
    · exact .kept rfl (.inl rfl)
    · cases isConfirmed <;> exact .kept rfl (.inl rfl)

/-- The end of a job. -/
theorem redraws_wait {job : Job} (hjob : w.job? = some job) (world : World) :
    Redraws world w (w.step world .wait).window := by
  have hends := ends_wait hjob world
  generalize houtcome : job.outcome world = outcome at hends
  cases hends with
  | @shown plan? _ hrests =>
    cases plan? with
    | none => exact .emptied hrests.table hrests.plan
    | some plan =>
      obtain ⟨roots, options, rfl, hmade⟩ := Job.exists_of_outcome houtcome
      exact .filled hjob hmade hrests.table hrests.plan
  | handled _ _ hrests => exact .emptied hrests.table hrests.plan
  | unhandled _ _ hlike => exact .kept (by rw [hlike]) (.inl (by rw [hlike]))

theorem redraws_step (w : Window) (world : World) (action : Action) :
    Redraws world w (w.step world action).window := by
  have hsame : Redraws world w w := .kept rfl (.inl rfl)
  cases action with
  | add path =>
    rw [step]
    split
    · unfold enlist
      split
      · exact hsame
      · exact .emptied rfl rfl
    · exact hsame
  | remove row? =>
    rw [step]
    split
    · exact .emptied rfl rfl
    · exact hsame
  | setForce on => exact .kept rfl (.inl rfl)
  | setLog on => exact .kept rfl (.inl rfl)
  | preview =>
    rw [step]
    split
    · exact redraws_startPreview w world.disk
    · exact hsame
  | convert isConfirmed =>
    rw [step]
    split
    · exact redraws_startConversion w world.disk isConfirmed
    · exact hsame
  | wait =>
    cases hjob : w.job? with
    | none => simpa [step, hjob] using hsame
    | some job => exact redraws_wait hjob world

/-! ## Rows and pairs -/

/-- The table shows the items of the plan, and those rows are marked whose items the plan takes over
a temporary name, which are those that it takes for a change of letter case alone. -/
structure Pictures (w : Window) (plan : Plan) : Prop where
  table : w.table = plan.items.map (·.tableRow)
  isMarked : ∀ item ∈ plan.items, (item.tableRow.isMarked = true ↔ plan.HasPair item)
  isRecased : ∀ item ∈ plan.items, item.tableRow.isMarked = item.isRecased
  /-- What is drawn: one row for each item, with a colour if the item is taken over a temporary
  name. -/
  rows : plan.items.Forall₂ (fun item cells =>
    (∃ cell ∈ cells, cell.colour? ≠ none) ↔ plan.HasPair item) w.face.rows

/-- The table shows a plan that a preview has given at one of the moments. -/
def IsPictured (course : List Moment) (w : Window) : Prop :=
  ∃ m ∈ course, ∃ ignored roots plan, (Recase.preview m.world ignored roots).plan = .ok plan ∧
    w.Pictures plan

/-- The rows of the plan of a preview are marked for its pairs. -/
theorem pictures_of_preview (ht : world.disk.tree.WellFormed)
    (htoken : ∀ n, IsToken (world.token n))
    (hmade : (Recase.preview world ignored roots).plan = .ok plan)
    (htable : w.table = plan.items.map (·.tableRow)) :
    w.Pictures plan := by
  have hcase : ∀ item ∈ plan.items, item.tableRow.isMarked = item.isRecased := by
    intro item hitem
    rw [Bool.eq_iff_iff, isRecased_iff_of_preview ht hmade hitem]
    simp [Item.tableRow]
  have hmarked : ∀ item ∈ plan.items, (item.tableRow.isMarked = true ↔ plan.HasPair item) := by
    intro item hitem
    rw [hcase item hitem, hasPair_iff ht htoken hmade hitem]
  refine ⟨htable, hmarked, hcase, ?_⟩
  rw [face, htable, List.forall₂_map_right_iff, List.forall₂_map_right_iff, List.forall₂_same]
  intro item hitem
  rw [TableRow.isMarked_iff, hmarked item hitem]

/-- What is shown depends on the table alone. -/
theorem Pictures.of_table {w' : Window} (h : w.Pictures plan) (htable : w'.table = w.table) :
    w'.Pictures plan :=
  ⟨htable.trans h.table, h.isMarked, h.isRecased, by rw [face, htable]; exact h.rows⟩

/-- What holds of the table after a course of actions: it shows the plan of the window, if there is
one, and otherwise nothing or a plan that the window had before. -/
structure Draws (course : List Moment) (w : Window) : Prop where
  plan : ∀ plan, w.plan? = some plan → w.Pictures plan
  table : w.table = [] ∨ w.IsPictured course

theorem IsPictured.concat (h : w.IsPictured course) (m : Moment) :
    w.IsPictured (course ++ [m]) := by
  obtain ⟨moment, hmem, hmade⟩ := h
  exact ⟨moment, List.mem_append_left _ hmem, hmade⟩

/-- Each action keeps what holds of the table. -/
theorem Draws.step (h : w.Draws course) (m : Moment) (ht : m.world.disk.tree.WellFormed)
    (htoken : ∀ n, IsToken (m.world.token n)) :
    (w.step m.world m.action).window.Draws (course ++ [m]) := by
  cases redraws_step w m.world m.action with
  | kept htable hplan =>
    refine ⟨fun plan hsome => ?_, ?_⟩
    · rcases hplan with hsame | hnone
      · exact (h.plan plan (hsame ▸ hsome)).of_table htable
      · cases hnone.symm.trans hsome
    · rw [htable]
      refine h.table.imp_right fun hpictured => ?_
      obtain ⟨moment, hmem, ignored, roots, plan, hmade, hpictures⟩ := hpictured.concat m
      exact ⟨moment, hmem, ignored, roots, plan, hmade, hpictures.of_table htable⟩
  | emptied htable hplan => exact ⟨fun plan hsome => (nomatch hplan.symm.trans hsome), .inl htable⟩
  | filled _ hmade htable hplan =>
    have hpictures := pictures_of_preview ht htoken hmade htable
    refine ⟨fun plan hsome => ?_, .inr ⟨m, by simp, _, _, _, hmade, hpictures⟩⟩
    cases hplan.symm.trans hsome
    exact hpictures

theorem draws_afterAll (hcourse : ∀ m ∈ course, m.world.disk.tree.WellFormed ∧
    ∀ n, IsToken (m.world.token n)) :
    (afterAll course).Draws course := by
  induction course using List.reverseRecOn with
  | nil => exact ⟨nofun, .inl rfl⟩
  | append_singleton course m ih =>
    obtain ⟨ht, htoken⟩ := hcourse m (by simp)
    rw [afterAll_concat]
    exact (ih fun moment hmem => hcourse moment (by simp [hmem])).step m ht htoken

/-- Whatever has been done, the table shows the plan of the window, if it has one, and otherwise
nothing or the plan of a preview made before: those rows are marked whose items that plan takes over
a temporary name. Each preview that gives a plan is shown so. -/
theorem pictures_afterAll (hcourse : ∀ m ∈ course, m.world.disk.tree.WellFormed ∧
    ∀ n, IsToken (m.world.token n)) :
    let w := afterAll course
    (∀ plan, w.plan? = some plan → w.Pictures plan) ∧ (w.table = [] ∨ w.IsPictured course) ∧
      ∀ world, world.disk.tree.WellFormed → (∀ n, IsToken (world.token n)) → ∀ roots options plan,
        w.job? = some (.preview roots options) →
          (Recase.preview world options.ignored roots).plan = .ok plan →
          (w.step world .wait).window.plan? = some plan ∧
              (w.step world .wait).window.Pictures plan := by
  obtain ⟨hplan, htable⟩ := draws_afterAll hcourse
  refine ⟨hplan, htable, fun world ht htoken roots options plan hjob hmade => ?_⟩
  have hends := ends_wait hjob world
  rw [Job.outcome, hmade] at hends
  cases hends with
  | shown _ hrests => exact ⟨hrests.plan, pictures_of_preview ht htoken hmade hrests.table⟩

/-- The world of two names with a capital sigma at the end of a word. -/
def worldOfSigmas : World :=
  .ofTree ⟨[(["docsDir"], .directory), (["docsDir", "ΑΣ.ts"], .file .empty),
    (["docsDir", "ΟΔΟΣ"], .directory)]⟩

/-- In lower case the sigma closes the word in the name of the directory, but not before an
extension: there it does so in the converted name alone. -/
theorem pictures_afterAll_worldOfSigmas :
    let w := afterAll (([.add ".", .preview, .wait] : List Action).map (⟨worldOfSigmas, ·⟩))
    ∃ plan, w.plan? = some plan ∧ w.Pictures plan ∧
      w.table.map (fun row => (row.convertedPath, row.isMarked)) =
        [("docs-dir", false), ("docs-dir/ας.ts", false), ("docs-dir/οδος", true)] := by
  have ht : worldOfSigmas.disk.tree.WellFormed := by decide
  have hsound : ∀ actions : List Action, ∀ m ∈ actions.map (⟨worldOfSigmas, ·⟩ : Action → Moment),
      m.world.disk.tree.WellFormed ∧ ∀ n, IsToken (m.world.token n) := by
    intro actions m hm
    obtain ⟨action, -, rfl⟩ := List.mem_map.mp hm
    exact ⟨ht, isToken_tokenText⟩
  obtain ⟨plan, hmade, hrows⟩ : ∃ plan,
      (Recase.preview worldOfSigmas ignoredNames [.ofText "."]).plan = .ok plan ∧
        (plan.items.map (·.tableRow)).map (fun row => (row.convertedPath, row.isMarked)) =
          [("docs-dir", false), ("docs-dir/ας.ts", false), ("docs-dir/οδος", true)] :=
    exists_ok_of_any (by decide +kernel)
  have hjob : (afterAll (([.add ".", .preview] : List Action).map (⟨worldOfSigmas, ·⟩))).job? =
      some (.preview [.ofText "."] (.default worldOfSigmas.disk)) := by decide +kernel
  obtain ⟨-, -, hshown⟩ := pictures_afterAll (hsound [.add ".", .preview])
  obtain ⟨hplan, -⟩ := hshown worldOfSigmas ht isToken_tokenText _ _ plan hjob hmade
  obtain ⟨hpictures, -, -⟩ := pictures_afterAll (hsound [.add ".", .preview, .wait])
  have htable := hpictures plan hplan
  exact ⟨plan, hplan, htable, htable.table ▸ hrows⟩

end Recase.Window
