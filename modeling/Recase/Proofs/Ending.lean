import Recase.Proofs.Execute
import Recase.Proofs.Move
import Recase.Proofs.Run
import Recase.Proofs.Source.Files

/-!
# How runs end

What the stages of a run from the moves on can end with, and what they leave as it was.

* `World.failure_of_mover`, `failure_of_sourceFiles`: the failures of a move and of the search for
  source files.
* `updateStage_error`, `moveStage_error`: of those that are reported, a move that fails is one, and
  the rejection of a root after all moves is the other.
* `updateStage_of_eq_ok`, `moveStage_of_eq_ok`: a run that ends well has the result of its plan.
-/

namespace Recase

open Source

variable {o : Options} {w s : World} {kept : List Path} {roots : List Root} {plan : Plan}
  {standing : Standing} {r r' : RunResult} {failure : Failure} {ignored : List String}

/-! ## Failures of roots -/

/-- A reported failure to locate a root is the rejection of it. -/
theorem Root.failure_of_located {d : Disk} {root : Root} (h : root.located d = .error failure)
    (hreported : failure.isReported = true) :
    failure = .rootMissing root.given ∨ failure = .rootNotDirectory root.given := by
  unfold located at h
  cases hcheck : root.check d with
  | error other =>
    rw [hcheck] at h
    cases h
    unfold check at hcheck
    split at hcheck
    · rename_i hpresent
      cases hcheck
      unfold isPresent at hpresent
      split at hpresent <;> cases hpresent
      cases hreported
    · cases hcheck
      exact .inl rfl
    · split at hcheck <;> cases hcheck
      · cases hreported
      · exact .inr rfl
  | ok _ =>
    rw [hcheck] at h
    simp only [bind, Except.bind, Disk.resolved] at h
    split at h
    · rename_i hresolved
      cases h
      split at hresolved <;> cases hresolved <;> cases hreported
    · cases h

/-- Roots that are not sorted out, for a reason that is reported, have one among them that is
rejected. -/
theorem failure_of_outermostRoots {d : Disk} (h : outermostRoots d roots = .error failure)
    (hreported : failure.isReported = true) :
    ∃ root ∈ roots, root.located d = .error failure ∧
      (failure = .rootMissing root.given ∨ failure = .rootNotDirectory root.given) := by
  obtain ⟨root, hroot, herror⟩ := exists_of_outermostRoots_eq_error h
  exact ⟨root, hroot, herror, Root.failure_of_located herror hreported⟩

/-! ## Failures of moves -/

theorem failure_of_isBlocked {d : Disk} {src dst : Path}
    (h : isBlocked d src dst = .error failure) :
    failure = .embeddedNul := by
  unfold isBlocked at h
  split at h
  · cases h
  · split at h <;> cases h
    rfl

/-- A move ends with the failure of a move, or its text is one that no call takes. -/
theorem World.failure_of_mover {useVersionControl : Bool} {m : Move} {directory : Path}
    (h : World.mover useVersionControl m directory w = (s, some failure)) :
    (∃ f, failure = .moveFailed f) ∨ failure = .embeddedNul := by
  cases useVersionControl with
  | false =>
    rw [World.mover_false] at h
    have hfailure : Recase.directMove m directory w.disk =
        ((Recase.directMove m directory w.disk).1, some failure) := by
      rw [← (Prod.mk.inj h).2]
    obtain ⟨other, hblocked, hsome⟩ | ⟨-, hsome⟩ |
        ⟨-, ⟨-, hsome⟩ | ⟨-, hsome⟩ | ⟨errno, text, -, hsome⟩⟩ := directMove_cases hfailure
    · exact .inr ((Option.some.inj hsome).trans (failure_of_isBlocked hblocked))
    · exact .inl ⟨_, Option.some.inj hsome⟩
    · cases hsome
    · exact .inr (Option.some.inj hsome)
    · exact .inl ⟨_, Option.some.inj hsome⟩
  | true =>
    have hreply := (Prod.mk.inj h).2
    unfold MoveReply.failure? at hreply
    split at hreply
    · cases hreply
    · exact .inl ⟨_, (Option.some.inj hreply).symm⟩
    · exact .inl ⟨_, (Option.some.inj hreply).symm⟩
    · exact .inr (Option.some.inj hreply).symm

/-! ## Failures of the search and the log -/

theorem Failure.isReported_of_isSystem (h : failure.isSystem = true) :
    failure.isReported = false := by
  cases failure <;> first | rfl | cases h

theorem isSystem_of_searchEntries {root : Path} {entries : List (List String × Node)}
    (h : (searchEntries root entries).failure? = some failure) : failure.isSystem = true := by
  induction entries with
  | nil => cases h
  | cons e rest ih =>
    rw [searchEntries] at h
    split at h
    · cases h
      rfl
    · split at h
      · exact ih h
      · exact ih h

theorem isSystem_of_searches {searches : List Search}
    (hall : ∀ s ∈ searches, ∀ f, s.failure? = some f → f.isSystem = true)
    (h : (searches.foldr Search.append .empty).failure? = some failure) :
    failure.isSystem = true := by
  induction searches with
  | nil => cases h
  | cons first rest ih =>
    rw [List.forall_mem_cons] at hall
    rw [List.foldr_cons, Search.append] at h
    split at h
    · exact hall.1 failure h
    · exact ih hall.2 h

/-- A search for source files that fails has not sorted out the roots, or the system refuses
something. -/
theorem failure_of_sourceFiles {d : Disk} {extensions ignored : List String}
    (h : (sourceFiles d extensions ignored roots).failure? = some failure) :
    (outermostRoots d roots = .error failure ∧
      (sourceFiles d extensions ignored roots).files = []) ∨ failure.isSystem = true := by
  unfold sourceFiles at h ⊢
  split at h
  · rename_i hroots
    rw [hroots]
    exact .inl ⟨by rw [Option.some.inj h], rfl⟩
  · refine .inr (isSystem_of_searches (fun s hs f hf => ?_) h)
    obtain ⟨root, -, rfl⟩ := List.mem_map.mp hs
    unfold sourceFilesBelow at hf
    split at hf
    · cases hf
    · exact isSystem_of_searchEntries hf

theorem isReported_of_callFailure (path : Path) (fault : Disk.Fault) :
    (RunLog.callFailure path fault).isReported = false := by
  cases fault <;> rfl

theorem isReported_of_save {log : RunLog} {file : Path} {d : Disk}
    (h : (log.save file d).1 = .error failure) : failure.isReported = false := by
  unfold RunLog.save at h
  split at h
  · cases h
    exact isReported_of_callFailure _ _
  · split at h
    · cases h
    · cases h
      exact isReported_of_callFailure _ _

/-! ## The last stages -/

theorem logStage_error (h : (logStage o kept r w).result = .error failure) :
    failure.isReported = false := by
  unfold logStage at h
  split at h
  · dsimp only at h
    split at h
    · rename_i other hsaved
      cases h
      exact isReported_of_save hsaved
    · cases h
  · cases h

theorem logStage_of_eq_ok (h : (logStage o kept r w).result = .ok r') :
    r'.scanned = r.scanned ∧ r'.moves = r.moves ∧ r'.renamed = r.renamed := by
  unfold logStage at h
  split at h
  · dsimp only at h
    split at h
    · cases h
    · cases h
      exact ⟨rfl, rfl, rfl⟩
  · cases h
    exact ⟨rfl, rfl, rfl⟩

/-- The stage of the references ends with a reported failure only if the search rejects a root, and
then it has changed nothing. -/
theorem updateStage_error (h : (updateStage o kept r w).result = .error failure)
    (hreported : failure.isReported = true) :
    outermostRoots w.disk (kept.map .ofPath) = .error failure ∧
        (updateStage o kept r w).world = w := by
  unfold updateStage at h ⊢
  dsimp only at h ⊢
  cases hsearch : (updateSources w o.extensions o.ignored (kept.map .ofPath)).failure? with
  | none =>
    rw [hsearch] at h
    rw [logStage_error h] at hreported
    cases hreported
  | some other =>
    rw [hsearch] at h
    cases h
    obtain ⟨hroots, hnone⟩ := (failure_of_sourceFiles hsearch).resolve_right fun hsystem => by
      rw [Failure.isReported_of_isSystem hsystem] at hreported
      cases hreported
    refine ⟨hroots, ?_⟩
    simp [Outcome.failed, updateSources, hnone, updateFiles]

theorem updateStage_of_eq_ok (h : (updateStage o kept r w).result = .ok r') :
    r'.scanned = r.scanned ∧ r'.moves = r.moves ∧ r'.renamed = r.renamed := by
  unfold updateStage at h
  dsimp only at h
  split at h
  · cases h
  · obtain ⟨hscanned, hmoves, hrenamed⟩ := logStage_of_eq_ok h
    exact ⟨hscanned, hmoves, hrenamed⟩

theorem moveStage_of_eq_ok (h : (moveStage o kept standing r plan w).result = .ok r') :
    r'.scanned = r.scanned ∧ r'.moves = r.moves ∧ r'.renamed = plan.items := by
  unfold moveStage at h
  dsimp only at h
  split at h
  · cases h
  · obtain ⟨hscanned, hmoves, hrenamed⟩ := updateStage_of_eq_ok h
    exact ⟨hscanned, hmoves, hrenamed⟩

/-- The stage of the moves ends with a reported failure if a move fails, or if all have been made
and a root is rejected then. -/
theorem moveStage_error (h : (moveStage o kept standing r plan w).result = .error failure)
    (hreported : failure.isReported = true) :
    (∃ f, failure = .moveFailed f) ∨
      ∃ s, Performed (World.mover (o.useVersionControl.getD standing.isVersioned)) plan.moves w s ∧
        outermostRoots s.disk (kept.map .ofPath) = .error failure ∧
        (moveStage o kept standing r plan w).world = s := by
  unfold moveStage at h ⊢
  dsimp only at h ⊢
  cases hdone :
      (execute (World.mover (o.useVersionControl.getD standing.isVersioned)) none plan.moves
      w).failure? with
  | some other =>
    rw [hdone] at h
    cases h
    obtain ⟨before, m, after, s', -, -, hfails⟩ := execute_of_some hdone
    rcases World.failure_of_mover hfails with hmove | rfl
    · exact .inl hmove
    · cases hreported
  | none =>
    rw [hdone] at h
    obtain ⟨hroots, hworld⟩ := updateStage_error h hreported
    exact .inr ⟨_, execute_of_none hdone, hroots, hworld⟩

end Recase
