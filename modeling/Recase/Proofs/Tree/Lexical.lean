import Recase.Proofs.Tree.Move
import Recase.Proofs.Tree.Settle

/-!
# Places without links

Where no link is followed, steps lead to a place that can be told from them.

* `Leads.eq_lexically`: the place to which steps lead in a tree without links.
* `Place.lexically_eq_append`: names lead down.
* `Path.placeFrom_carried`: the place of a path stays when an entry on the way to the working
  directory gets another name, unless it is at the entry or below.
-/

namespace Recase

open Recase.Tree

namespace Place

variable {here : Place} {names : List String}

theorem lexically_eq_append (h : ∀ n ∈ names, IsName n) : lexically here names = here ++ names := by
  induction names generalizing here with
  | nil => simp [lexically]
  | cons name rest ih =>
    rw [List.forall_mem_cons] at h
    rw [lexically, if_neg h.1.ne_dot, if_neg h.1.ne_dots, ih h.2]
    simp

/-- A name on the way to where steps start is on the way to where they end, or does not matter. -/
theorem lexically_cases (above below : Place) (steps : List String) :
    (∃ rest, ∀ name, lexically (above ++ [name] ++ below) steps = above ++ [name] ++ rest) ∨
      ∃ place, ∀ name, lexically (above ++ [name] ++ below) steps = place := by
  induction steps generalizing below with
  | nil => exact .inl ⟨below, fun name => rfl⟩
  | cons step rest ih =>
    by_cases hdot : step = "."
    · simpa only [lexically, hdot, if_true] using ih below
    by_cases hdots : step = ".."
    · simp only [lexically, hdots, if_neg (show ¬ ".." = "." by decide), if_true]
      rcases List.eq_nil_or_concat below with rfl | ⟨front, last, rfl⟩
      · simp only [List.append_nil, List.dropLast_concat]
        exact .inr ⟨_, fun name => rfl⟩
      · simpa only [List.concat_eq_append, ← List.append_assoc, List.dropLast_concat] using ih front
    · simpa only [lexically, if_neg hdot, if_neg hdots, List.append_assoc] using ih
        (below ++ [step])

end Place

/-- In a tree without links, steps lead to the place that can be told from them. -/
theorem Tree.Leads.eq_lexically {t : Tree} {n : Nat} {here place : Place} {steps : List String}
    (h : t.Leads n here steps place) (hlinks : t.LinkFree) :
    n = 0 ∧ place = Place.lexically here (steps.filter isTaken) := by
  induction h with
  | done => simp [Place.lexically]
  | skip hstep _ ih =>
    rwa [List.filter_cons_of_neg (by simp [isTaken_eq_false_iff.mpr hstep])]
  | up _ ih =>
    rwa [List.filter_cons_of_pos (by decide), Place.lexically, if_neg (by decide), if_pos rfl]
  | down hname _ _ ih =>
    rwa [List.filter_cons_of_pos hname.isTaken, Place.lexically, if_neg hname.ne_dot,
      if_neg hname.ne_dots]
  | link _ hnode => exact absurd hnode (hlinks _ _)

namespace Path

variable {p : Path} {here parent : Place} {names : List String} {x y : String}

theorem placeFrom_below (h : ∀ n ∈ names, IsName n) :
    (p.below names).placeFrom here = p.placeFrom here ++ names := by
  rw [placeFrom, below, Place.lexically_append, Place.lexically_eq_append h]
  rfl

/-- The place of a path stays when an entry gets another name, unless it is at the entry or
below. -/
theorem placeFrom_carried (h : ¬ parent ++ [x] <+: p.placeFrom here) :
    p.placeFrom (here.carried (parent ++ [x]) (parent ++ [y])) = p.placeFrom here := by
  by_cases hbelow : parent ++ [x] <+: here
  · obtain ⟨rest, rfl⟩ := hbelow
    rw [Place.carried_append]
    cases hrel : p.isRelative with
    | false => simp [placeFrom, hrel]
    | true =>
      rw [placeFrom, hrel] at h
      rw [placeFrom, placeFrom, hrel]
      obtain ⟨end', hall⟩ | ⟨place, hall⟩ := Place.lexically_cases parent rest p.segments
      · exact absurd ⟨end', (hall x).symm⟩ h
      · exact (hall y).trans (hall x).symm
  · rw [Place.carried_of_not_prefix hbelow]

end Path

end Recase
