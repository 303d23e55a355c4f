import Recase.Proofs.Tree.Walk

/-!
# Where steps lead

* `Leads.unique`: steps lead to one place, over one number of links.
* `Leads.split`: steps that are followed by others lead to where those start; `Leads.append` is the
  converse.
* `Leads.of_filter`: the steps that are passed over do not matter (`isTaken`).
* `Leads.eq_append`: without links and two dots, steps lead down.
-/

namespace Recase.Tree

variable {t : Tree} {n m : Nat} {here place other : Place} {steps more : List String}

theorem IsName.not_skip {name : String} (h : IsName name) : ¬ (name = "" ∨ name = ".") :=
  fun hskip => hskip.elim h.ne_empty h.ne_dot

/-- Steps lead to one place, over the same number of links. -/
theorem Leads.unique (h : Leads t n here steps place) (h' : Leads t m here steps other) :
    n = m ∧ place = other := by
  induction h generalizing m with
  | done => cases h'; exact ⟨rfl, rfl⟩
  | skip hstep _ ih =>
    cases h' with
    | skip _ next => exact ih next
    | up => simp at hstep
    | down hname => exact absurd hstep hname.not_skip
    | link hname => exact absurd hstep hname.not_skip
  | up _ ih =>
    cases h' with
    | skip hstep => simp at hstep
    | up next => exact ih next
    | down hname => exact absurd rfl hname.ne_dots
    | link hname => exact absurd rfl hname.ne_dots
  | down hname hnode _ ih =>
    cases h' with
    | skip hstep => exact absurd hstep hname.not_skip
    | up => exact absurd rfl hname.ne_dots
    | down _ _ next => exact ih next
    | link _ hnode' => rw [hnode] at hnode'; cases hnode'
  | link hname hnode _ ih =>
    cases h' with
    | skip hstep => exact absurd hstep hname.not_skip
    | up => exact absurd rfl hname.ne_dots
    | down _ hnode' => rw [hnode] at hnode'; cases hnode'
    | link _ hnode' next =>
      rw [hnode] at hnode'
      cases hnode'
      obtain ⟨rfl, rfl⟩ := ih next
      exact ⟨rfl, rfl⟩

/-- Steps that are followed by others lead to where those start. -/
theorem Leads.split (h : Leads t n here (steps ++ more) place) :
    ∃ n₁ n₂ between, n = n₁ + n₂ ∧ Leads t n₁ here steps between ∧
      Leads t n₂ between more place := by
  generalize hall : steps ++ more = all at h
  induction h generalizing steps with
  | done here =>
    obtain ⟨rfl, rfl⟩ := List.append_eq_nil_iff.mp hall
    exact ⟨0, 0, here, rfl, .done here, .done here⟩
  | @skip n here place step rest hstep next ih =>
    rcases List.append_eq_cons_iff.mp hall with ⟨rfl, rfl⟩ | ⟨front, rfl, rfl⟩
    · exact ⟨0, n, here, by simp, .done here, .skip hstep next⟩
    · obtain ⟨n₁, n₂, between, rfl, h₁, h₂⟩ := ih rfl
      exact ⟨n₁, n₂, between, rfl, .skip hstep h₁, h₂⟩
  | @up n here place rest next ih =>
    rcases List.append_eq_cons_iff.mp hall with ⟨rfl, rfl⟩ | ⟨front, rfl, rfl⟩
    · exact ⟨0, n, here, by simp, .done here, .up next⟩
    · obtain ⟨n₁, n₂, between, rfl, h₁, h₂⟩ := ih rfl
      exact ⟨n₁, n₂, between, rfl, .up h₁, h₂⟩
  | @down n here place name rest hname hnode next ih =>
    rcases List.append_eq_cons_iff.mp hall with ⟨rfl, rfl⟩ | ⟨front, rfl, rfl⟩
    · exact ⟨0, n, here, by simp, .done here, .down hname hnode next⟩
    · obtain ⟨n₁, n₂, between, rfl, h₁, h₂⟩ := ih rfl
      exact ⟨n₁, n₂, between, rfl, .down hname hnode h₁, h₂⟩
  | @link n here place name target rest hname hnode next ih =>
    rcases List.append_eq_cons_iff.mp hall with ⟨rfl, rfl⟩ | ⟨front, rfl, rfl⟩
    · exact ⟨0, n + 1, here, by simp, .done here, .link hname hnode next⟩
    · obtain ⟨n₁, n₂, between, rfl, h₁, h₂⟩ := ih (List.append_assoc _ _ _)
      exact ⟨n₁ + 1, n₂, between, by omega, .link hname hnode h₁, h₂⟩

/-- Steps lead on from where others lead. -/
theorem Leads.append (h : Leads t n here steps place) (h' : Leads t m place more other) :
    Leads t (n + m) here (steps ++ more) other := by
  induction h with
  | done => rwa [Nat.zero_add]
  | skip hstep _ ih => exact .skip hstep (ih h')
  | up _ ih => exact .up (ih h')
  | down hname hnode _ ih => exact .down hname hnode (ih h')
  | @link n here place name target rest hname hnode _ ih =>
    have hnext := ih h'
    rw [List.append_assoc] at hnext
    rw [Nat.add_right_comm]
    exact .link hname hnode hnext

/-- Whether a step is not passed over. -/
def isTaken (step : String) : Bool := step != "" && step != "."

theorem isTaken_eq_false_iff {step : String} : isTaken step = false ↔ step = "" ∨ step = "." := by
  by_cases h : step = "" <;> simp [isTaken, h]

theorem IsName.isTaken {name : String} (h : IsName name) : isTaken name = true := by
  simp [Tree.isTaken, h.ne_empty, h.ne_dot]

theorem Leads.skip_all {blank : List String} (hblank : ∀ step ∈ blank, ¬ isTaken step = true)
    (h : Leads t n here steps place) : Leads t n here (blank ++ steps) place := by
  induction blank with
  | nil => exact h
  | cons step rest ih =>
    refine .skip (isTaken_eq_false_iff.mp (by simpa using hblank step (by simp))) (ih ?_)
    exact fun step hstep => hblank step (by simp [hstep])

/-- The steps that are passed over do not matter. -/
theorem Leads.of_filter (h : Leads t n here steps place)
    (heq : steps.filter isTaken = more.filter isTaken) : Leads t n here more place := by
  induction h generalizing more with
  | done here =>
    have hblank := List.filter_eq_nil_iff.mp heq.symm
    simpa using Leads.skip_all hblank (.done here)
  | skip hstep _ ih =>
    refine ih ?_
    rwa [List.filter_cons_of_neg (by simp [isTaken_eq_false_iff.mpr hstep])] at heq
  | up _ ih =>
    rw [List.filter_cons_of_pos (by decide)] at heq
    obtain ⟨blank, rest', rfl, hblank, -, hrest⟩ := List.filter_eq_cons_iff.mp heq.symm
    exact .skip_all hblank (.up (ih hrest.symm))
  | down hname hnode _ ih =>
    rw [List.filter_cons_of_pos hname.isTaken] at heq
    obtain ⟨blank, rest', rfl, hblank, -, hrest⟩ := List.filter_eq_cons_iff.mp heq.symm
    exact .skip_all hblank (.down hname hnode (ih hrest.symm))
  | link hname hnode _ ih =>
    rw [List.filter_cons_of_pos hname.isTaken] at heq
    obtain ⟨blank, rest', rfl, hblank, -, hrest⟩ := List.filter_eq_cons_iff.mp heq.symm
    refine .skip_all hblank (.link hname hnode (ih ?_))
    rw [List.filter_append, List.filter_append, hrest]

/-- Without links and two dots, steps lead down. -/
theorem Leads.eq_append (h : Leads t n here steps place) (hlinks : t.LinkFree)
    (hdots : ".." ∉ steps) :
    n = 0 ∧ place = here ++ steps.filter isTaken := by
  induction h with
  | done => simp
  | skip hstep _ ih =>
    rw [List.filter_cons_of_neg (by simp [isTaken_eq_false_iff.mpr hstep])]
    exact ih fun hm => hdots (List.mem_cons_of_mem _ hm)
  | up => simp at hdots
  | down hname _ _ ih =>
    rw [List.filter_cons_of_pos hname.isTaken]
    simpa using ih fun hm => hdots (List.mem_cons_of_mem _ hm)
  | link _ hnode => exact absurd hnode (hlinks _ _)

end Recase.Tree
