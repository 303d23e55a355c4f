import Recase.Proofs.Tree.Basic
import Recase.Tree.Walk

/-!
# Walks from step to step

What a walk of a well-formed tree does with its first step, and what the steps of a walk that goes
on lead to.

* `walk_nil`, `walk_skip`, `walk_up`, `walk_name`: a walk from a directory, by its first step;
  `walk_entry`: one that ends with it.
* `Tree.Leads`: steps that lead from one directory to another, with the number of links followed.
* `walk_append`: a walk that goes on after some steps, or ends with them in a directory, has been
  led to a directory by them. `Leads.walk_append` and `Leads.walk_eq` are the converse.
* `leads_below`: the names of directories lead down to the last of them.
* `Tree.Arrives`: steps that end at a directory or a file. A walk that follows links and finds
  something has done so (`arrives_of_walk`), and `Arrives.walk_eq` is the converse.
-/

namespace Recase

/-- A step that is neither passed over nor leads up. -/
structure Tree.IsName (step : String) : Prop where
  ne_empty : step ≠ ""
  ne_dot : step ≠ "."
  ne_dots : step ≠ ".."

theorem Name.IsPlain.isName {name : String} (h : IsPlain name) : Tree.IsName name :=
  ⟨h.ne_empty, h.ne_dot, h.ne_dots⟩

namespace Tree

theorem step_cases (step : String) : (step = "" ∨ step = ".") ∨ step = ".." ∨ IsName step := by
  by_cases h1 : step = ""
  · exact .inl (.inl h1)
  by_cases h2 : step = "."
  · exact .inl (.inr h2)
  by_cases h3 : step = ".."
  · exact .inr (.inl h3)
  exact .inr (.inr ⟨h1, h2, h3⟩)

variable {t : Tree} {last : LastStep} {k : Nat} {here : Place} {step name : String}
  {rest steps more : List String} {landing : Landing} {node : Node}

/-! ## The first step -/

theorem isDirectory_startAt (h : t.isDirectory here = true) (route : Route) :
    t.isDirectory (route.startAt here) = true := by
  unfold Route.startAt
  split
  · exact isDirectory_nil t
  · exact h

/-- A walk starts in a directory. -/
theorem isDirectory_of_walk (h : t.walk last k here steps = .ok landing) :
    t.isDirectory here = true := by
  by_contra hdir
  rw [walk.eq_def, advanceFrom, if_neg hdir] at h
  cases h

theorem walk_nil (h : t.isDirectory here = true) :
    t.walk last k here [] = .ok (.entry here) := by
  rw [walk, advanceFrom, if_pos h, advance]

theorem walk_skip (h : step = "" ∨ step = ".") :
    t.walk last k here (step :: rest) = t.walk last k here rest := by
  have hs : (step = "" || step = ".") = true := by simpa using h
  have key : t.advanceFrom last here (step :: rest) = t.advanceFrom last here rest := by
    simp only [advanceFrom, advance, hs, if_true]
  rw [walk.eq_def, walk.eq_def _ _ _ _ rest, key]

theorem walk_up (ht : t.WellFormed) (h : t.isDirectory here = true) :
    t.walk last k here (".." :: rest) = t.walk last k here.dropLast rest := by
  have key : t.advanceFrom last here (".." :: rest) = t.advanceFrom last here.dropLast rest := by
    simp [advanceFrom, advance, h, ht.isDirectory_dropLast h]
  rw [walk.eq_def, walk.eq_def _ _ _ _ rest, key]

theorem advanceFrom_name (h : t.isDirectory here = true) (hlast : last = .make → rest ≠ [""])
    (hname : IsName name) :
    t.advanceFrom last here (name :: rest) =
      if nameLimit < name.utf8ByteSize then .refused .nameTooLong
      else
        match t.node? (here ++ [name]) with
        | none => if rest = [] then .landed (.vacant (here ++ [name])) else .refused .noEntry
        | some .directory => t.advanceFrom last (here ++ [name]) rest
        | some (.file _) =>
          if rest = [] then .landed (.entry (here ++ [name])) else .refused .notDirectory
        | some (.link target) =>
          if rest = [] ∧ last = .stay then .landed (.entry (here ++ [name]))
          else .linked (here ++ [name]) target rest := by
  have hmake : ¬ (last = .make ∧ rest = [""]) := fun hboth => hlast hboth.1 hboth.2
  rw [advanceFrom, if_pos h, advance]
  simp only [hname.ne_empty, hname.ne_dot, hname.ne_dots, hmake, decide_false, Bool.or_self,
    Bool.false_eq_true, if_false, node?_subtree, List.cons_ne_nil,
    subtree_subtree, List.isEmpty_iff, Bool.and_eq_true, decide_eq_true_eq]
  split
  · rfl
  · split <;> rename_i hnode
    · simp [hnode]
    · simp [hnode, advanceFrom, isDirectory]
    · simp [hnode]
    · simp [hnode]

/-- A walk by its first step, a name. A walk to make a file does not end with a name before a
slash. -/
theorem walk_name (h : t.isDirectory here = true) (hlast : last = .make → rest ≠ [""])
    (hname : IsName name) :
    t.walk last k here (name :: rest) =
      if nameLimit < name.utf8ByteSize then .error .nameTooLong
      else
        match t.node? (here ++ [name]) with
        | none => if rest = [] then .ok (.vacant (here ++ [name])) else .error .noEntry
        | some .directory => t.walk last k (here ++ [name]) rest
        | some (.file _) =>
          if rest = [] then .ok (.entry (here ++ [name])) else .error .notDirectory
        | some (.link target) =>
          if rest = [] ∧ last = .stay then .ok (.entry (here ++ [name]))
          else
            match k with
            | 0 => .error .tooManyLinks
            | k + 1 =>
              t.walk last k ((Route.ofText target).startAt here)
                ((Route.ofText target).steps ++ rest) := by
  rw [walk.eq_def, advanceFrom_name h hlast hname]
  by_cases hsize : nameLimit < name.utf8ByteSize
  · rw [if_pos hsize, if_pos hsize]
  rw [if_neg hsize, if_neg hsize]
  cases hnode : t.node? (here ++ [name]) with
  | none => by_cases hrest : rest = [] <;> simp only [hrest, if_true, if_false]
  | some node =>
    cases node with
    | directory => rw [walk.eq_def _ _ _ _ rest]
    | file content => by_cases hrest : rest = [] <;> simp only [hrest, if_true, if_false]
    | link target =>
      by_cases hstay : rest = [] ∧ last = .stay
      · simp only [if_pos hstay]
      · cases k <;> simp only [if_neg hstay, List.dropLast_concat]

/-- An entry of a directory that is no link is found by its name. -/
theorem walk_entry (hhere : t.isDirectory here = true) (hlast : last ≠ .make)
    (hname : IsName name) (hsize : name.utf8ByteSize ≤ nameLimit)
    (hnode : t.node? (here ++ [name]) = some node) (hlink : ∀ target, node ≠ .link target)
    (k : Nat) : t.walk last k here [name] = .ok (.entry (here ++ [name])) := by
  rw [walk_name hhere (absurd · hlast) hname, if_neg (Nat.not_lt.mpr hsize), hnode]
  cases node with
  | directory => exact walk_nil (isDirectory_iff.mpr hnode)
  | file content => rfl
  | link target => exact absurd rfl (hlink target)

/-! ## Several steps -/

/-- The steps from the directory `here` lead to the directory `place`, and so many links are
followed on the way. -/
inductive Leads (t : Tree) : Nat → Place → List String → Place → Prop
  | done (here : Place) : Leads t 0 here [] here
  | skip {n : Nat} {here place : Place} {step : String} {rest : List String}
      (hstep : step = "" ∨ step = ".") (next : Leads t n here rest place) :
      Leads t n here (step :: rest) place
  | up {n : Nat} {here place : Place} {rest : List String}
      (next : Leads t n here.dropLast rest place) : Leads t n here (".." :: rest) place
  | down {n : Nat} {here place : Place} {name : String} {rest : List String} (hname : IsName name)
      (hnode : t.node? (here ++ [name]) = some .directory)
      (next : Leads t n (here ++ [name]) rest place) : Leads t n here (name :: rest) place
  | link {n : Nat} {here place : Place} {name target : String} {rest : List String}
      (hname : IsName name) (hnode : t.node? (here ++ [name]) = some (.link target))
      (next : Leads t n ((Route.ofText target).startAt here)
        ((Route.ofText target).steps ++ rest) place) :
      Leads t (n + 1) here (name :: rest) place

/-- A walk that goes on after a name, or ends with it in a directory, goes into a directory or
follows a link. -/
theorem walk_name_cases (hhere : t.isDirectory here = true) (hlast : last ≠ .make)
    (hname : IsName name)
    (hgo : rest = [] → ∃ place, landing = .entry place ∧ t.isDirectory place = true)
    (h : t.walk last k here (name :: rest) = .ok landing) :
    (t.node? (here ++ [name]) = some .directory ∧
        t.walk last k (here ++ [name]) rest = .ok landing) ∨
      ∃ target links, t.node? (here ++ [name]) = some (.link target) ∧ k = links + 1 ∧
        t.walk last links ((Route.ofText target).startAt here)
          ((Route.ofText target).steps ++ rest) = .ok landing := by
  have hend : rest = [] → landing = .entry (here ++ [name]) →
      t.node? (here ++ [name]) = some .directory := by
    intro hnil hentry
    obtain ⟨place, rfl, hplace⟩ := hgo hnil
    cases hentry
    exact isDirectory_iff.mp hplace
  rw [walk_name hhere (absurd · hlast) hname] at h
  split at h
  · cases h
  split at h <;> rename_i hnode
  · split at h
    · rename_i hnil
      obtain ⟨place, rfl, -⟩ := hgo hnil
      cases h
    · cases h
  · exact .inl ⟨hnode, h⟩
  · split at h
    · rename_i hnil
      cases h
      rw [hend hnil rfl] at hnode
      cases hnode
    · cases h
  · rename_i target
    split at h
    · rename_i hnil
      cases h
      rw [hend hnil.1 rfl] at hnode
      cases hnode
    · cases k with
      | zero => cases h
      | succ k => exact .inr ⟨target, k, hnode, rfl, h⟩

/-- A walk that goes on after some steps, or ends with them in a directory, has been led to a
directory by them. -/
theorem walk_append (ht : t.WellFormed) (hhere : t.isDirectory here = true) (hlast : last ≠ .make)
    (hgo : more = [] → ∃ place, landing = .entry place ∧ t.isDirectory place = true)
    (h : t.walk last k here (steps ++ more) = .ok landing) :
    ∃ n place, n ≤ k ∧ Leads t n here steps place ∧ t.isDirectory place = true ∧
      t.walk last (k - n) place more = .ok landing := by
  induction k using Nat.strongRecOn generalizing here steps with
  | ind k ihk =>
    -- up to the next link the number of links stays, and the steps get fewer
    induction steps generalizing here with
    | nil => exact ⟨0, here, Nat.zero_le _, .done here, hhere, h⟩
    | cons step rest ih =>
      rw [List.cons_append] at h
      rcases step_cases step with hstep | rfl | hname
      · rw [walk_skip hstep] at h
        obtain ⟨n, place, hn, hleads, hplace, hwalk⟩ := ih hhere h
        exact ⟨n, place, hn, .skip hstep hleads, hplace, hwalk⟩
      · rw [walk_up ht hhere] at h
        obtain ⟨n, place, hn, hleads, hplace, hwalk⟩ := ih (ht.isDirectory_dropLast hhere) h
        exact ⟨n, place, hn, .up hleads, hplace, hwalk⟩
      · have hgo' : rest ++ more = [] → _ := fun hnil => hgo (List.append_eq_nil_iff.mp hnil).2
        obtain ⟨hnode, hnext⟩ | ⟨target, links, hnode, rfl, hnext⟩ :=
          walk_name_cases hhere hlast hname hgo' h
        · obtain ⟨n, place, hn, hleads, hplace, hwalk⟩ := ih (isDirectory_iff.mpr hnode) hnext
          exact ⟨n, place, hn, .down hname hnode hleads, hplace, hwalk⟩
        · rw [← List.append_assoc] at hnext
          obtain ⟨n, place, hn, hleads, hplace, hwalk⟩ :=
            ihk links (Nat.lt_succ_self _) (isDirectory_startAt hhere _) hnext
          refine ⟨n + 1, place, by omega, .link hname hnode hleads, hplace, ?_⟩
          rw [Nat.add_sub_add_right]
          exact hwalk

/-- Steps from a directory lead to a directory. -/
theorem Leads.isDirectory {n : Nat} {place : Place} (ht : t.WellFormed)
    (hleads : Leads t n here steps place) (hhere : t.isDirectory here = true) :
    t.isDirectory place = true := by
  induction hleads with
  | done => exact hhere
  | skip _ _ ih => exact ih hhere
  | up _ ih => exact ih (ht.isDirectory_dropLast hhere)
  | down _ hnode _ ih => exact ih (isDirectory_iff.mpr hnode)
  | link _ _ _ ih => exact ih (isDirectory_startAt hhere _)

/-- A walk goes on from where its first steps lead. -/
theorem Leads.walk_append {n : Nat} {place : Place} (ht : t.WellFormed)
    (hleads : Leads t n here steps place) (hhere : t.isDirectory here = true) (hlast : last ≠ .make)
    (hgo : more = [] → last ≠ .stay) (hn : n ≤ k) :
    t.walk last k here (steps ++ more) = t.walk last (k - n) place more := by
  induction hleads generalizing k with
  | done => rfl
  | skip hstep _ ih =>
    rw [List.cons_append, walk_skip hstep]
    exact ih hhere hn
  | up _ ih =>
    rw [List.cons_append, walk_up ht hhere]
    exact ih (ht.isDirectory_dropLast hhere) hn
  | down hname hnode _ ih =>
    have hsize := ht.size_le hnode (List.mem_append_right _ List.mem_cons_self)
    rw [List.cons_append, walk_name hhere (absurd · hlast) hname,
      if_neg (Nat.not_lt.mpr hsize), hnode]
    exact ih (isDirectory_iff.mpr hnode) hn
  | @link n here place name target rest hname hnode _ ih =>
    have hsize := ht.size_le hnode (List.mem_append_right _ List.mem_cons_self)
    obtain ⟨k, rfl⟩ : ∃ links, k = links + 1 := ⟨k - 1, by omega⟩
    have hgoes : ¬ (rest ++ more = [] ∧ last = .stay) :=
      fun hnil => hgo (List.append_eq_nil_iff.mp hnil.1).2 hnil.2
    rw [List.cons_append, walk_name hhere (absurd · hlast) hname,
      if_neg (Nat.not_lt.mpr hsize), hnode]
    dsimp only
    rw [if_neg hgoes, ← List.append_assoc, Nat.add_sub_add_right]
    exact ih (isDirectory_startAt hhere _) (by omega)

/-- Steps are walked to where they lead. -/
theorem Leads.walk_eq {n : Nat} {place : Place} (ht : t.WellFormed)
    (hleads : Leads t n here steps place) (hhere : t.isDirectory here = true) (hn : n ≤ k) :
    t.walk .follow k here steps = .ok (.entry place) := by
  have hwalk : t.walk .follow k here (steps ++ []) = t.walk .follow (k - n) place [] :=
    hleads.walk_append ht hhere (by decide) (by decide) hn
  rwa [List.append_nil, walk_nil (hleads.isDirectory ht hhere)] at hwalk

/-- The names of directories lead down to the last of them. -/
theorem leads_below (ht : t.WellFormed) (h : t.isDirectory (here ++ steps) = true) :
    Leads t 0 here steps (here ++ steps) := by
  induction steps generalizing here with
  | nil => simpa using Leads.done here
  | cons name rest ih =>
    have hname : Name.IsPlain name := ht.isPlain (isDirectory_iff.mp h) (by simp)
    have hnext : here ++ name :: rest = (here ++ [name]) ++ rest := by simp
    rw [hnext] at h ⊢
    exact .down hname.isName (isDirectory_iff.mp (ht.isDirectory_of_isDirectory_append h)) (ih h)

/-! ## Steps that end at something -/

/-- The steps from the directory `here` end at the directory or file `place`, and at most so many
links are followed on the way. -/
inductive Arrives (t : Tree) : Nat → Place → List String → Place → Prop
  | stop {k : Nat} {here : Place} : Arrives t k here [] here
  | skip {k : Nat} {here place : Place} {step : String} {rest : List String}
      (hstep : step = "" ∨ step = ".") (next : Arrives t k here rest place) :
      Arrives t k here (step :: rest) place
  | up {k : Nat} {here place : Place} {rest : List String}
      (next : Arrives t k here.dropLast rest place) : Arrives t k here (".." :: rest) place
  | down {k : Nat} {here place : Place} {name : String} {rest : List String} (hname : IsName name)
      (hnode : t.node? (here ++ [name]) = some .directory)
      (next : Arrives t k (here ++ [name]) rest place) : Arrives t k here (name :: rest) place
  | file {k : Nat} {here : Place} {name : String} {content : ByteArray} (hname : IsName name)
      (hnode : t.node? (here ++ [name]) = some (.file content)) :
      Arrives t k here [name] (here ++ [name])
  | link {k : Nat} {here place : Place} {name target : String} {rest : List String}
      (hname : IsName name) (hnode : t.node? (here ++ [name]) = some (.link target))
      (next : Arrives t k ((Route.ofText target).startAt here)
        ((Route.ofText target).steps ++ rest) place) :
      Arrives t (k + 1) here (name :: rest) place

/-- A walk that follows links and finds something has arrived there. -/
theorem arrives_of_walk {place : Place} (ht : t.WellFormed) (hhere : t.isDirectory here = true)
    (h : t.walk .follow k here steps = .ok (.entry place)) : t.Arrives k here steps place := by
  induction k using Nat.strongRecOn generalizing here steps with
  | ind k ihk =>
    -- as in `walk_append`, the steps get fewer up to the next link
    induction steps generalizing here with
    | nil =>
      rw [walk_nil hhere] at h
      cases h
      exact .stop
    | cons step rest ih =>
      rcases step_cases step with hstep | rfl | hname
      · rw [walk_skip hstep] at h
        exact .skip hstep (ih hhere h)
      · rw [walk_up ht hhere] at h
        exact .up (ih (ht.isDirectory_dropLast hhere) h)
      · rw [walk_name hhere (by simp) hname] at h
        split at h
        · cases h
        split at h <;> rename_i hnode
        · split at h <;> cases h
        · exact .down hname hnode (ih (isDirectory_iff.mpr hnode) h)
        · split at h
          · rename_i hrest
            cases h
            subst hrest
            exact .file hname hnode
          · cases h
        · rw [if_neg (by simp)] at h
          cases k with
          | zero => cases h
          | succ k =>
            exact .link hname hnode
              (ihk k (Nat.lt_succ_self _) (isDirectory_startAt hhere _) h)

namespace Arrives

variable {place : Place} (h : t.Arrives k here steps place)
include h

/-- Steps from a directory end at a directory or a file. -/
theorem isDirectory_or_file (ht : t.WellFormed) (hhere : t.isDirectory here = true) :
    t.isDirectory place = true ∨ ∃ content, t.node? place = some (.file content) := by
  induction h with
  | stop => exact .inl hhere
  | skip _ _ ih => exact ih hhere
  | up _ ih => exact ih (ht.isDirectory_dropLast hhere)
  | down _ hnode _ ih => exact ih (isDirectory_iff.mpr hnode)
  | file _ hnode => exact .inr ⟨_, hnode⟩
  | link _ _ _ ih => exact ih (isDirectory_startAt hhere _)

/-- Steps with a slash after them end at a directory. -/
theorem isDirectory_of_slash (ht : t.WellFormed) (hhere : t.isDirectory here = true)
    (hslash : steps.getLast? = some "") : t.isDirectory place = true := by
  induction h with
  | stop => cases hslash
  | @skip _ _ _ _ rest _ next ih =>
    rcases eq_or_ne rest [] with rfl | hrest
    · cases next
      exact hhere
    · exact ih hhere (by rwa [List.getLast?_cons_of_ne_nil hrest] at hslash)
  | @up _ _ _ rest next ih =>
    rcases eq_or_ne rest [] with rfl | hrest
    · exact absurd hslash (by decide)
    · exact ih (ht.isDirectory_dropLast hhere)
        (by rwa [List.getLast?_cons_of_ne_nil hrest] at hslash)
  | @down _ _ _ _ rest hname hnode _ ih =>
    rcases eq_or_ne rest [] with rfl | hrest
    · exact absurd (Option.some.inj hslash) hname.ne_empty
    · exact ih (isDirectory_iff.mpr hnode) (by rwa [List.getLast?_cons_of_ne_nil hrest] at hslash)
  | file hname => exact absurd (Option.some.inj hslash) hname.ne_empty
  | @link _ _ _ _ _ rest hname _ _ ih =>
    rcases eq_or_ne rest [] with rfl | hrest
    · exact absurd (Option.some.inj hslash) hname.ne_empty
    · refine ih (isDirectory_startAt hhere _) ?_
      rwa [List.getLast?_append_of_ne_nil _ hrest, ← List.getLast?_cons_of_ne_nil hrest]

omit h in
/-- A file has no slash after its name. -/
theorem rest_ne_slash (h : t.Arrives k here (name :: rest) place) (ht : t.WellFormed)
    (hhere : t.isDirectory here = true) (hplace : t.isDirectory place = false) : rest ≠ [""] := by
  rintro rfl
  rw [h.isDirectory_of_slash ht hhere rfl] at hplace
  cases hplace

/-- Steps are walked to where they end. A walk to make a file has to end at one. -/
theorem walk_eq (ht : t.WellFormed) (hhere : t.isDirectory here = true) (hlast : last ≠ .stay)
    (hmake : last = .make → t.isDirectory place = false) :
    t.walk last k here steps = .ok (.entry place) := by
  induction h with
  | stop => exact walk_nil hhere
  | skip hstep _ ih =>
    rw [walk_skip hstep]
    exact ih hhere hmake
  | up _ ih =>
    rw [walk_up ht hhere]
    exact ih (ht.isDirectory_dropLast hhere) hmake
  | down hname hnode next ih =>
    have hsize := ht.size_le hnode (List.mem_append_right _ List.mem_cons_self)
    have hslash := fun h => rest_ne_slash (.down hname hnode next) ht hhere (hmake h)
    rw [walk_name hhere hslash hname, if_neg (Nat.not_lt.mpr hsize), hnode]
    exact ih (isDirectory_iff.mpr hnode) hmake
  | file hname hnode =>
    have hsize := ht.size_le hnode (List.mem_append_right _ List.mem_cons_self)
    rw [walk_name hhere (by simp) hname, if_neg (Nat.not_lt.mpr hsize), hnode]
    rfl
  | link hname hnode next ih =>
    have hsize := ht.size_le hnode (List.mem_append_right _ List.mem_cons_self)
    have hslash := fun h => rest_ne_slash (.link hname hnode next) ht hhere (hmake h)
    rw [walk_name hhere hslash hname, if_neg (Nat.not_lt.mpr hsize), hnode]
    dsimp only
    rw [if_neg (by simp [hlast])]
    exact ih (isDirectory_startAt hhere _) hmake

end Arrives

end Tree

end Recase
