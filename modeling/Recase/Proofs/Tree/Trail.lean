import Recase.Proofs.Tree.Leads
import Recase.Proofs.Tree.Move

/-!
# What steps go over

* `Tree.GoesOver`: steps that lead from one directory to another, with the places of the directories
  that they enter and of the links that they follow.
* `GoesOver.append`, `exists_goesOver_below`: steps that go on, and names that lead down.
* `Place.carried_concat`, `Place.carried_dropLast`: what is in a directory is carried along with it.
* `GoesOver.carried`: steps that do not go over an entry lead to the same directory, by the same
  way, after the entry has got a free name.
-/

namespace Recase

/-! ## Places that are carried -/

namespace Place

variable {parent place here : Place} {x y name : String}

/-- What is in a directory is carried along with it, and so is all but the entry that gets another
name. -/
theorem carried_concat (h : place ++ [name] ≠ parent ++ [x]) :
    (place ++ [name]).carried (parent ++ [x]) (parent ++ [y]) =
      place.carried (parent ++ [x]) (parent ++ [y]) ++ [name] := by
  by_cases hbelow : parent ++ [x] <+: place
  · obtain ⟨rest, rfl⟩ := hbelow
    rw [List.append_assoc, carried_append, carried_append, List.append_assoc (parent ++ [y])]
  · rw [Place.carried_of_not_prefix hbelow, Place.carried_of_not_prefix fun hpre => ?_]
    exact (List.prefix_concat_iff.mp hpre).elim (fun heq => h heq.symm) hbelow

/-- The directory above is the one above what is carried. -/
theorem carried_dropLast (parent place : Place) (x y : String) :
    Place.carried place.dropLast (parent ++ [x]) (parent ++ [y]) =
      (place.carried (parent ++ [x]) (parent ++ [y])).dropLast := by
  have hshort : ¬ parent ++ [x] <+: parent := fun hpre => absurd hpre.length_le (by simp)
  rcases List.eq_nil_or_concat place with rfl | ⟨front, last, rfl⟩
  · rw [List.dropLast_nil, Place.carried_of_not_prefix (by simp)]
    rfl
  · rw [List.concat_eq_append, List.dropLast_concat]
    by_cases hsame : front ++ [last] = parent ++ [x]
    · obtain ⟨rfl, -⟩ := List.append_inj' hsame rfl
      have hcarried := carried_append (front ++ [x]) (front ++ [y]) []
      rw [List.append_nil, List.append_nil] at hcarried
      rw [hsame, hcarried, List.dropLast_concat, Place.carried_of_not_prefix hshort]
    · rw [carried_concat hsame, List.dropLast_concat]

/-- The place from which a route starts is carried. -/
theorem startAt_carried (route : Route) (here : Place) :
    route.startAt (here.carried (parent ++ [x]) (parent ++ [y])) =
      (route.startAt here).carried (parent ++ [x]) (parent ++ [y]) := by
  unfold Route.startAt
  split
  · rw [Place.carried_of_not_prefix (by simp)]
  · rfl

end Place

namespace Tree

variable {t t' : Tree} {n m : Nat} {here place other : Place} {steps more : List String}
  {trail trail' : List Place}

/-! ## Trails -/

/-- The steps from the directory `here` lead to the directory `place`. On the way so many links are
followed, and these are the places of the directories that are entered and of the links. -/
inductive GoesOver (t : Tree) : Nat → Place → List String → List Place → Place → Prop
  | done (here : Place) : GoesOver t 0 here [] [] here
  | skip {n : Nat} {here place : Place} {step : String} {rest : List String} {trail : List Place}
      (hstep : step = "" ∨ step = ".") (next : GoesOver t n here rest trail place) :
      GoesOver t n here (step :: rest) trail place
  | up {n : Nat} {here place : Place} {rest : List String} {trail : List Place}
      (next : GoesOver t n here.dropLast rest trail place) :
      GoesOver t n here (".." :: rest) trail place
  | down {n : Nat} {here place : Place} {name : String} {rest : List String} {trail : List Place}
      (hname : IsName name) (hnode : t.node? (here ++ [name]) = some .directory)
      (next : GoesOver t n (here ++ [name]) rest trail place) :
      GoesOver t n here (name :: rest) ((here ++ [name]) :: trail) place
  | link {n : Nat} {here place : Place} {name target : String} {rest : List String}
      {trail : List Place} (hname : IsName name)
      (hnode : t.node? (here ++ [name]) = some (.link target))
      (next : GoesOver t n ((Route.ofText target).startAt here)
        ((Route.ofText target).steps ++ rest) trail place) :
      GoesOver t (n + 1) here (name :: rest) ((here ++ [name]) :: trail) place

theorem GoesOver.leads (h : t.GoesOver n here steps trail place) : t.Leads n here steps place := by
  induction h with
  | done here => exact .done here
  | skip hstep _ ih => exact .skip hstep ih
  | up _ ih => exact .up ih
  | down hname hnode _ ih => exact .down hname hnode ih
  | link hname hnode _ ih => exact .link hname hnode ih

/-- There is something at every place that steps go over. -/
theorem GoesOver.node?_ne_none (h : t.GoesOver n here steps trail place) :
    ∀ q ∈ trail, t.node? q ≠ none := by
  induction h with
  | done => simp
  | skip _ _ ih => exact ih
  | up _ ih => exact ih
  | down _ hnode _ ih => exact List.forall_mem_cons.mpr ⟨by simp [hnode], ih⟩
  | link _ hnode _ ih => exact List.forall_mem_cons.mpr ⟨by simp [hnode], ih⟩

/-- Steps lead on from where others lead. -/
theorem GoesOver.append (h : t.GoesOver n here steps trail place)
    (h' : t.GoesOver m place more trail' other) :
    t.GoesOver (n + m) here (steps ++ more) (trail ++ trail') other := by
  induction h with
  | done => rwa [Nat.zero_add]
  | skip hstep _ ih => exact .skip hstep (ih h')
  | up _ ih => exact .up (ih h')
  | down hname hnode _ ih => exact .down hname hnode (ih h')
  | link hname hnode _ ih =>
    have hnext := ih h'
    rw [List.append_assoc] at hnext
    rw [Nat.add_right_comm]
    exact .link hname hnode hnext

/-- The names of directories lead down, over the directories that they name. -/
theorem exists_goesOver_below (ht : t.WellFormed) (h : t.isDirectory (here ++ steps) = true) :
    ∃ trail, t.GoesOver 0 here steps trail (here ++ steps) ∧
      ∀ q ∈ trail, ∃ front, front ≠ [] ∧ front <+: steps ∧ q = here ++ front := by
  induction steps generalizing here with
  | nil => exact ⟨[], by simpa using GoesOver.done here, by simp⟩
  | cons name rest ih =>
    have hname : Name.IsPlain name := ht.isPlain (isDirectory_iff.mp h) (by simp)
    have hnext : here ++ name :: rest = (here ++ [name]) ++ rest := by simp
    rw [hnext] at h ⊢
    obtain ⟨trail, htrail, hbelow⟩ := ih h
    refine ⟨(here ++ [name]) :: trail,
      .down hname.isName (isDirectory_iff.mp (ht.isDirectory_of_isDirectory_append h)) htrail,
      List.forall_mem_cons.mpr ⟨⟨[name], by simp, ⟨rest, rfl⟩, rfl⟩, fun q hq => ?_⟩⟩
    obtain ⟨front, -, hfront, rfl⟩ := hbelow q hq
    exact ⟨name :: front, by simp, List.cons_prefix_cons.mpr ⟨rfl, hfront⟩, by simp⟩

/-- Steps that do not go over an entry lead to the same directory after it has got a free name,
wherever it has carried that and what is on the way. -/
theorem GoesOver.carried {parent : Place} {x y : String} (ht : t.WellFormed)
    (hcarries : t.Carries t' (parent ++ [x]) (parent ++ [y]))
    (hfree : t.node? (parent ++ [y]) = none)
    (h : t.GoesOver n here steps trail place) (hnot : parent ++ [x] ∉ trail) :
    t'.GoesOver n (here.carried (parent ++ [x]) (parent ++ [y])) steps
      (trail.map (·.carried (parent ++ [x]) (parent ++ [y])))
      (place.carried (parent ++ [x]) (parent ++ [y])) := by
  have hentry : ∀ {here : Place} {name : String} {node : Node}, here ++ [name] ≠ parent ++ [x] →
      t.node? (here ++ [name]) = some node →
        t'.node? (here.carried (parent ++ [x]) (parent ++ [y]) ++ [name]) = some node := by
    intro here name node hne hnode
    rw [← Place.carried_concat hne,
      hcarries.node?_carried (ht.not_prefix_of_free hfree (by simp [hnode])), hnode]
  induction h with
  | done here => exact .done _
  | skip hstep _ ih => exact .skip hstep (ih hnot)
  | up _ ih =>
    have hnext := ih hnot
    rw [Place.carried_dropLast] at hnext
    exact .up hnext
  | down hname hnode _ ih =>
    rw [List.mem_cons, not_or] at hnot
    have hnext := ih hnot.2
    rw [Place.carried_concat (Ne.symm hnot.1)] at hnext
    rw [List.map_cons, Place.carried_concat (Ne.symm hnot.1)]
    exact .down hname (hentry (Ne.symm hnot.1) hnode) hnext
  | link hname hnode _ ih =>
    rw [List.mem_cons, not_or] at hnot
    have hnext := ih hnot.2
    rw [← Place.startAt_carried] at hnext
    rw [List.map_cons, Place.carried_concat (Ne.symm hnot.1)]
    exact .link hname (hentry (Ne.symm hnot.1) hnode) hnext

end Tree

end Recase
