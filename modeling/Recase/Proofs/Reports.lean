import Recase.Proofs.Execute
import Recase.Proofs.Run

/-!
# The reports of a run

* `Outcome.Climbs`: percentages that never fall, start at a given one or above it, and come to 100
  with the last report of a run that ends well and with no other.
* `climbs_failed`, `climbs_completed`, `Climbs.after`: the ways in which an outcome is made.
* `isOfMoves_of_announced`, `pairwise_announced`: an execution announces its moves with 40 to 60
  percent, and never falls.
* `climbs_logStage`, `climbs_updateStage`, `climbs_moveStage`, `climbs_planStage`,
  `climbs_scanStage`, `climbs_run`: the stages, from the last to the first.
* `MakesMoves`: a run that comes to its moves, and what becomes of them. `MakesMoves.run_eq`: where
  its reports stand among those of the run. `percent_run`: what is reported where no moves are made.
* `run_reports`: the percentages that a run reports, whatever becomes of it.
-/

namespace Recase

variable {o : Options} {w : World} {plan : Plan}

/-! ## Outcomes -/

/-- The percentages never fall, none is below `low`, and 100 comes with the last report of a run
that ends well and with no other. -/
structure Outcome.Climbs (low : Nat) (out : Outcome) : Prop where
  ordered : (out.reports.map (·.percent)).Pairwise (· ≤ ·)
  above : ∀ report ∈ out.reports, low ≤ report.percent
  ends : (∃ result front last, out.result = .ok result ∧ out.reports = front ++ [last] ∧
      last.percent = 100 ∧ ∀ report ∈ front, report.percent < 100) ∨
    (∃ failure, out.result = .error failure ∧ ∀ report ∈ out.reports, report.percent < 100)

namespace Outcome

theorem climbs_failed (low : Nat) (w : World) (failure : Failure) :
    (failed w failure).Climbs low where
  ordered := .nil
  above := by simp [failed]
  ends := .inr ⟨failure, rfl, by simp [failed]⟩

theorem climbs_completed {low : Nat} (hlow : low ≤ 100) (w : World) (message : String)
    (r : RunResult) :
    (completed w message r).Climbs low where
  ordered := List.pairwise_singleton _ _
  above := by simpa [completed] using hlow
  ends := .inl ⟨r, [], ⟨100, message⟩, rfl, rfl, rfl, by simp⟩

/-- Reports that never fall may come in front of others if they are not above them. -/
theorem Climbs.after {low : Nat} (high : Nat) {reports : List Report} {out : Outcome}
    (h : out.Climbs high) (hhigh : high < 100) (hle : low ≤ high)
    (hordered : (reports.map (·.percent)).Pairwise (· ≤ ·))
    (hbounds : ∀ report ∈ reports, low ≤ report.percent ∧ report.percent ≤ high) :
    (Outcome.after reports out).Climbs low where
  ordered := by
    rw [show (Outcome.after reports out).reports = reports ++ out.reports from rfl, List.map_append,
      List.pairwise_append]
    refine ⟨hordered, h.ordered, fun before hbefore next hnext => ?_⟩
    obtain ⟨first, hfirst, rfl⟩ := List.mem_map.mp hbefore
    obtain ⟨second, hsecond, rfl⟩ := List.mem_map.mp hnext
    exact (hbounds first hfirst).2.trans (h.above second hsecond)
  above := fun report hreport => by
    rcases List.mem_append.mp hreport with hfront | hrest
    · exact (hbounds report hfront).1
    · exact hle.trans (h.above report hrest)
  ends := by
    have hfront : ∀ report ∈ reports, report.percent < 100 := fun report hreport =>
      (hbounds report hreport).2.trans_lt hhigh
    obtain ⟨result, front, last, hok, hreports, hlast, hbelow⟩ | ⟨failure, herror, hbelow⟩ := h.ends
    · refine .inl ⟨result, reports ++ front, last, hok, ?_, hlast, fun report hreport => ?_⟩
      · rw [List.append_assoc, ← hreports]
        rfl
      · exact (List.mem_append.mp hreport).elim (hfront report) (hbelow report)
    · exact .inr ⟨failure, herror, fun report hreport =>
        (List.mem_append.mp hreport).elim (hfront report) (hbelow report)⟩

/-- A stage that starts with one report. -/
theorem Climbs.after_one {low : Nat} (high : Nat) {message : String} {out : Outcome}
    (h : out.Climbs high) (hhigh : high < 100) (hle : low ≤ high) :
    (Outcome.after [⟨low, message⟩] out).Climbs low :=
  h.after high hhigh hle (List.pairwise_singleton _ _) (by simpa using hle)

/-- Percentages that climb do not go past 100. -/
theorem Climbs.le_hundred {low : Nat} {out : Outcome} (h : out.Climbs low) :
    ∀ report ∈ out.reports, report.percent ≤ 100 := by
  intro report hreport
  obtain ⟨-, front, last, -, hreports, hlast, hbelow⟩ | ⟨-, -, hbelow⟩ := h.ends
  · rw [hreports, List.mem_append, List.mem_singleton] at hreport
    rcases hreport with hfront | rfl
    · exact (hbelow report hfront).le
    · exact hlast.le
  · exact (hbelow report hreport).le

theorem Climbs.lt_hundred {low : Nat} {out : Outcome} {failure : Failure} (h : out.Climbs low)
    (hfailed : out.result = .error failure) : ∀ report ∈ out.reports, report.percent < 100 := by
  obtain ⟨result, -, -, hok, -⟩ | ⟨-, -, hbelow⟩ := h.ends
  · rw [hok] at hfailed
    cases hfailed
  · exact hbelow

/-- The run ends well if and only if 100 is reported once, and last. -/
theorem Climbs.ends_iff {low : Nat} {out : Outcome} (h : out.Climbs low) :
    (∃ result, out.result = .ok result) ↔
      (out.reports.map (·.percent)).count 100 = 1 ∧
          (out.reports.map (·.percent)).getLast? = some 100 := by
  have hnone : ∀ reports : List Report, (∀ report ∈ reports, report.percent < 100) →
      100 ∉ reports.map (·.percent) := by
    intro reports hbelow hmem
    obtain ⟨report, hreport, heq⟩ := List.mem_map.mp hmem
    exact absurd heq (hbelow report hreport).ne
  obtain ⟨result, front, last, hok, hreports, hlast, hbelow⟩ | ⟨failure, herror, hbelow⟩ := h.ends
  · have hcount : (front.map (·.percent)).count 100 = 0 :=
      List.count_eq_zero.mpr (hnone front hbelow)
    refine iff_of_true ⟨result, hok⟩ ?_
    simp [hreports, hlast, hcount]
  · refine iff_of_false (by simp [herror]) fun ⟨honce, _⟩ => ?_
    rw [List.count_eq_zero.mpr (hnone _ hbelow)] at honce
    exact absurd honce (by decide)

end Outcome

/-! ## Moves that are announced -/

/-- An execution announces its moves, or some of the first of them. -/
theorem announced_executeFrom {σ : Type} (mover : Mover σ) (directory? : Option Path)
    (total done : Nat) (moves : List Move) (s : σ) :
    ∃ before, before <+: moves ∧
      (executeFrom mover directory? total done moves s).announced =
          announcements total done before := by
  obtain ⟨s', -, heq⟩ | ⟨before, m, after, _, _, _, rfl, -, -, heq⟩ :=
    executeFrom_cases mover directory? total done moves s
  · exact ⟨moves, List.prefix_rfl, by rw [heq]⟩
  · exact ⟨before ++ [m], ⟨after, by simp⟩, by rw [heq]⟩

/-- What is announced of moves of which there are `total`: there are some, and 40 to 60 percent is
reported. -/
structure Announcement.IsOfMoves (total : Nat) (a : Announcement) : Prop where
  total_eq : a.total = total
  total_ne_zero : a.total ≠ 0
  ge : 40 ≤ a.report.percent
  le : a.report.percent ≤ 60

theorem mem_announcements {total done : Nat} {moves : List Move} {a : Announcement}
    (h : a ∈ announcements total done moves) :
    a.total = total ∧ done < a.number ∧ a.number ≤ done + moves.length := by
  obtain ⟨i, hi, rfl⟩ := List.mem_mapIdx.mp h
  exact ⟨rfl, by dsimp only; omega, by dsimp only; omega⟩

variable {σ : Type} {mover : Mover σ} {directory? : Option Path} {moves : List Move} {s : σ}

/-- There are moves where one is announced, so nothing is divided by zero, and what is added to 40
is 20 at most. -/
theorem isOfMoves_of_announced {a : Announcement}
    (h : a ∈ (execute mover directory? moves s).announced) :
    a.IsOfMoves moves.length := by
  obtain ⟨before, hbefore, heq⟩ := announced_executeFrom mover directory? moves.length 0 moves s
  rw [execute, heq] at h
  obtain ⟨htotal, hfirst, hlast⟩ := mem_announcements h
  have hnumber : a.number ≤ a.total := by
    have := hbefore.length_le
    omega
  have hpart : 20 * a.number / a.total ≤ 20 := Nat.div_le_of_le_mul (by
    rw [Nat.mul_comm a.total]
    exact Nat.mul_le_mul_left 20 hnumber)
  exact ⟨htotal, by omega, Nat.le_add_right 40 _, Nat.add_le_add_left hpart 40⟩

theorem pairwise_announcements (total done : Nat) (moves : List Move) :
    ((announcements total done moves).map (·.report.percent)).Pairwise (· ≤ ·) := by
  induction moves generalizing done with
  | nil => exact .nil
  | cons m rest ih =>
    rw [announcements_cons, List.map_cons, List.pairwise_cons]
    refine ⟨fun percent hpercent => ?_, ih (done + 1)⟩
    obtain ⟨a, ha, rfl⟩ := List.mem_map.mp hpercent
    obtain ⟨htotal, hnumber, -⟩ := mem_announcements ha
    have hle : 20 * (done + 1) / total ≤ 20 * a.number / a.total := by
      rw [htotal]
      exact Nat.div_le_div_right (Nat.mul_le_mul_left 20 hnumber.le)
    exact Nat.add_le_add_left hle 40

/-- The percentages of the moves never fall. -/
theorem pairwise_announced (mover : Mover σ) (directory? : Option Path)
    (moves : List Move) (s : σ) :
    (((execute mover directory? moves s).announced.map (·.report)).map (·.percent)).Pairwise
        (· ≤ ·) := by
  obtain ⟨before, -, heq⟩ := announced_executeFrom mover directory? moves.length 0 moves s
  rw [execute, heq, List.map_map]
  exact pairwise_announcements _ _ before

/-! ## The stages -/

theorem climbs_logStage (o : Options) (roots : List Path) (r : RunResult) (w : World) :
    (logStage o roots r w).Climbs 80 := by
  unfold logStage
  dsimp only
  split
  · -- The stage starts at 90, where the references end at 80.
    refine Outcome.Climbs.after 90 ?_ (by decide) (by decide)
      (List.pairwise_singleton _ _) (by simp)
    split
    · exact Outcome.climbs_failed ..
    · exact Outcome.climbs_completed (by decide) ..
  · exact Outcome.climbs_completed (by decide) ..

theorem climbs_updateStage (o : Options) (roots : List Path) (r : RunResult) (w : World) :
    (updateStage o roots r w).Climbs 80 := by
  unfold updateStage
  dsimp only
  generalize (Source.updateSources w o.extensions o.ignored (roots.map .ofPath)) = done
  have hall : ∀ report ∈
      (⟨80, "Updating import statements..."⟩ :: done.report.notes.map (⟨80, ·⟩) : List Report),
      report.percent = 80 := by
    simp
  refine Outcome.Climbs.after 80 ?_ (by decide) le_rfl ?_ fun report hreport =>
    ⟨(hall report hreport).ge, (hall report hreport).le⟩
  · cases done.failure? with
    | some failure => exact Outcome.climbs_failed ..
    | none => exact climbs_logStage ..
  · rw [List.eq_replicate_of_mem (List.forall_mem_map.mpr hall)]
    exact List.pairwise_replicate.mpr (.inr le_rfl)

/-- The reports of the moves are between the one that starts them and those of what comes after. -/
theorem exists_moveStage (o : Options) (roots : List Path) (standing : Standing)
    (r : RunResult) (plan : Plan) (w : World) : ∃ rest : Outcome, rest.Climbs 80 ∧
      moveStage o roots standing r plan w = .after ([⟨40, "Renaming files and directories..."⟩] ++
        (execute (World.mover (o.useVersionControl.getD standing.isVersioned))
          none plan.moves w).announced.map (·.report)) rest := by
  refine ⟨_, ?_, rfl⟩
  split
  · exact Outcome.climbs_failed ..
  · exact climbs_updateStage ..

theorem climbs_moveStage (o : Options) (roots : List Path) (standing : Standing)
    (r : RunResult) (plan : Plan) (w : World) :
    (moveStage o roots standing r plan w).Climbs 40 := by
  obtain ⟨rest, hrest, heq⟩ := exists_moveStage o roots standing r plan w
  rw [heq]
  have hbounds :
      ∀ report ∈ (execute (World.mover (o.useVersionControl.getD standing.isVersioned)) none
      plan.moves w).announced.map (·.report), 40 ≤ report.percent ∧ report.percent ≤ 60 := by
    intro report hreport
    obtain ⟨a, ha, rfl⟩ := List.mem_map.mp hreport
    exact ⟨(isOfMoves_of_announced ha).ge, (isOfMoves_of_announced ha).le⟩
  refine hrest.after 80 (by decide) (by decide) ?_ fun report hreport => ?_
  · rw [List.singleton_append, List.map_cons, List.pairwise_cons]
    refine ⟨fun percent hpercent => ?_, pairwise_announced ..⟩
    obtain ⟨report, hreport, rfl⟩ := List.mem_map.mp hpercent
    exact (hbounds report hreport).1
  · rcases List.mem_cons.mp hreport with rfl | hmove
    · exact ⟨le_rfl, by dsimp only; decide⟩
    · exact ⟨(hbounds report hmove).1, (hbounds report hmove).2.trans (by decide)⟩

theorem climbs_planStage (o : Options) (roots : List Path) (standing : Standing)
    (plan : Plan) (w : World) :
    (planStage o roots standing plan w).Climbs 20 := by
  unfold planStage
  dsimp only
  split
  · exact Outcome.climbs_failed ..
  · split
    · exact Outcome.climbs_completed (by decide) ..
    · refine Outcome.Climbs.after_one 40 ?_ (by decide) (by decide)
      split
      · exact Outcome.climbs_completed (by decide) ..
      · exact climbs_moveStage ..

theorem climbs_scanStage (o : Options) (roots : List Path) (standing : Standing) (w : World) :
    (scanStage o roots standing w).Climbs 20 := by
  unfold scanStage
  refine Outcome.Climbs.after_one 20 ?_ (by decide) le_rfl
  split
  · exact Outcome.climbs_failed ..
  · exact climbs_planStage ..

theorem climbs_run (o : Options) (roots : List Root) (w : World) : (run o roots w).Climbs 0 := by
  unfold run
  refine Outcome.Climbs.after_one 20 ?_ (by decide) (by decide)
  split
  · exact Outcome.climbs_failed ..
  · exact climbs_scanStage ..

/-! ## The whole run -/

/-- A run comes to its moves if it is admitted, has a plan without conflicts in which there is
something to rename, and is not dry. With what becomes of them. -/
inductive MakesMoves (o : Options) (roots : List Root) (w : World) : Execution World → Prop
  | intro {standing : Standing} {kept : List Path} {plan : Plan}
      (admitted : admission o roots w = .ok (standing, kept))
      (planned : (preview w o.ignored (kept.map .ofPath)).plan = .ok plan)
      (conflicts : plan.conflicts = []) (items : plan.items ≠ []) (isReal : o.dryRun = false) :
      MakesMoves o roots w
        (execute (World.mover (o.useVersionControl.getD standing.isVersioned)) none
        plan.moves { w with drawn := (preview w o.ignored (kept.map .ofPath)).drawn })

/-- The stage of a plan with moves to make goes on with them. -/
theorem planStage_of_moves (roots : List Path) (standing : Standing) (w : World)
    (hconflicts : plan.conflicts = []) (hitems : plan.items ≠ []) (hreal : o.dryRun = false) :
    ∃ message r, planStage o roots standing plan w =
      .after [⟨20, message⟩] (moveStage o roots standing r plan w) := by
  have hsome : plan.items.isEmpty = false := by simpa using hitems
  simp only [planStage, hconflicts, hsome, hreal, List.isEmpty_nil, Bool.not_true,
    Bool.false_eq_true, if_false]
  exact ⟨_, _, rfl⟩

/-- The stage of any other plan ends there. -/
theorem percent_planStage (roots : List Path) (standing : Standing) (w : World)
    (hends : plan.conflicts = [] → plan.items ≠ [] → o.dryRun = true) :
    ∀ report ∈ (planStage o roots standing plan w).reports, report.percent ∈ [20, 100] := by
  unfold planStage
  by_cases hconflicts : plan.conflicts = []
  · by_cases hitems : plan.items = []
    · simp [hconflicts, hitems, Outcome.completed]
    · simp [hconflicts, hitems, hends hconflicts hitems, Outcome.after, Outcome.completed]
  · simp [hconflicts, Outcome.failed]

section MakesMoves

variable {roots : List Root} {done : Execution World}

/-- A run that comes to its moves has reported 40 percent at most, and goes on with 80 when they are
made. -/
theorem MakesMoves.run_eq (h : MakesMoves o roots w done) :
    ∃ before rest, (∀ report ∈ before, report.percent ≤ 40) ∧ Outcome.Climbs 80 rest ∧
      run o roots w = .after (before ++ done.announced.map (·.report)) rest := by
  obtain @⟨standing, kept, plan, hadmitted, hplan, hconflicts, hitems, hreal⟩ := h
  obtain ⟨message, r, hstage⟩ := planStage_of_moves kept standing
    { w with drawn := (preview w o.ignored (kept.map .ofPath)).drawn } hconflicts hitems hreal
  obtain ⟨rest, hrest, hmoved⟩ := exists_moveStage o kept standing r plan
    { w with drawn := (preview w o.ignored (kept.map .ofPath)).drawn }
  rw [run, hadmitted]
  simp only [scanStage, hplan]
  rw [hstage, hmoved, after_after, after_after, after_after, ← List.append_assoc]
  exact ⟨_, rest, by simp, hrest, rfl⟩

/-- A run that does not come to its moves reports the start of its first stages, or that it is
done. -/
theorem percent_run (h : ∀ done, ¬ MakesMoves o roots w done) :
    ∀ report ∈ (run o roots w).reports, report.percent ∈ [0, 20, 100] := by
  rw [run]
  cases hadmitted : admission o roots w with
  | error failure => simp [Outcome.after, Outcome.failed]
  | ok admitted =>
    obtain ⟨standing, kept⟩ := admitted
    simp only [scanStage]
    cases hplan : (preview w o.ignored (kept.map .ofPath)).plan with
    | error failure => simp [Outcome.after, Outcome.failed]
    | ok plan =>
      have hends : plan.conflicts = [] → plan.items ≠ [] → o.dryRun = true := by
        intro hconflicts hitems
        by_contra hreal
        exact h _ (.intro hadmitted hplan hconflicts hitems (Bool.eq_false_iff.mpr hreal))
      have hstage := percent_planStage kept standing
        { w with drawn := (preview w o.ignored (kept.map .ofPath)).drawn } hends
      intro report hreport
      rcases List.mem_cons.mp hreport with rfl | hreport
      · exact List.mem_cons_self
      · rcases List.mem_cons.mp hreport with rfl | hreport
        · exact List.mem_cons_of_mem _ List.mem_cons_self
        · exact List.mem_cons_of_mem _ (hstage report hreport)

end MakesMoves

/-- Whatever becomes of a run, its percentages start at 0, never fall and do not go past 100. While
moves are made they lie from 40 to 60, and the number of the moves, by which they are divided, is
not zero. 100 is reported once and last if the run ends well, and only then. -/
theorem run_reports (o : Options) (roots : List Root) (w : World) :
    (∃ rest, (run o roots w).reports = ⟨0, "Checking git status..."⟩ :: rest) ∧
      ((run o roots w).reports.map (·.percent)).Pairwise (· ≤ ·) ∧
      (∀ report ∈ (run o roots w).reports, report.percent ≤ 100) ∧
      ((∃ done before after, MakesMoves o roots w done ∧
          (run o roots w).reports = before ++ done.announced.map (·.report) ++ after ∧
          (∀ report ∈ before, report.percent ≤ 40) ∧ (∀ report ∈ after, 80 ≤ report.percent) ∧
          ∀ a ∈ done.announced, a.total ≠ 0 ∧ 40 ≤ a.report.percent ∧ a.report.percent ≤ 60) ∨
        (∀ done, ¬ MakesMoves o roots w done) ∧
          ∀ report ∈ (run o roots w).reports, report.percent ∈ [0, 20, 100]) ∧
      ((∃ result, (run o roots w).result = .ok result) ↔
        ((run o roots w).reports.map (·.percent)).count 100 = 1 ∧
          ((run o roots w).reports.map (·.percent)).getLast? = some 100) ∧
      (∀ failure, (run o roots w).result = .error failure →
        ∀ report ∈ (run o roots w).reports, report.percent < 100) := by
  have hclimbs := climbs_run o roots w
  refine ⟨⟨_, rfl⟩, hclimbs.ordered, hclimbs.le_hundred, ?_, hclimbs.ends_iff,
    fun _ => hclimbs.lt_hundred⟩
  by_cases hmoves : ∃ done, MakesMoves o roots w done
  · obtain ⟨done, hmoves⟩ := hmoves
    obtain ⟨before, rest, hbefore, hrest, hrun⟩ := hmoves.run_eq
    rw [hrun]
    refine .inl ⟨done, before, rest.reports, hmoves, rfl, hbefore, hrest.above, fun a ha => ?_⟩
    cases hmoves
    obtain ⟨-, htotal, hge, hle⟩ := isOfMoves_of_announced ha
    exact ⟨htotal, hge, hle⟩
  · rw [not_exists] at hmoves
    exact .inr ⟨hmoves, percent_run hmoves⟩

end Recase
