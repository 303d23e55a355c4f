import Mathlib.Data.List.Perm.Subperm
import Recase.Proofs.Path.Normal
import Recase.Tree.Settle

/-!
# Settling and walks

Settling a path follows the steps that a walk would take.

* `Path.IsSettled`: the paths that are reached while a path is settled; `Path.placeFrom_child` and
  `Path.placeFrom_above` are the places of those next to them.
* `Tree.KnowsLinks`, `Tree.EntersLinks`: what holds of the links that are settled and of those that
  are being settled. `EntersLinks.entering_eq`: there is always room to enter one more.
* `settleWith_leads`: settling follows the steps that lead somewhere. The induction is on the number
  of links that are followed: links that are entered need more of them than what is left.
* `settle_leads`: the steps of a normal path.
-/

namespace Recase

open Text

/-! ## Paths without links -/

namespace Place

variable {here : Place} {steps more : List String} {name : String}

theorem lexically_append (here : Place) (steps more : List String) :
    lexically here (steps ++ more) = lexically (lexically here steps) more := by
  induction steps generalizing here with
  | nil => rfl
  | cons step rest ih =>
    simp only [List.cons_append, lexically]
    split
    · exact ih here
    · split
      · exact ih here.dropLast
      · exact ih (here ++ [step])

theorem lexically_dots (here : Place) : lexically here [".."] = here.dropLast := by
  simp [lexically]

theorem lexically_name (here : Place) (h : Tree.IsName name) :
    lexically here [name] = here ++ [name] := by
  simp [lexically, h.ne_dot, h.ne_dots]

end Place

namespace Path

open Recase.Tree

/-- A path that is reached while a path is settled: names, after two dots where it is relative. -/
def IsSettled (p : Path) : Prop := ∀ s ∈ p.segments, IsName s ∨ p.isRelative = true ∧ s = ".."

variable {p : Path} {here : Place} {name : String}

theorem IsSettled.child (h : p.IsSettled) (hname : IsName name) : (p.child name).IsSettled := by
  intro s hs
  rcases List.mem_append.mp hs with hs | hs
  · exact h s hs
  · exact .inl (List.mem_singleton.mp hs ▸ hname)

theorem placeFrom_child (hname : IsName name) :
    (p.child name).placeFrom here = p.placeFrom here ++ [name] :=
  (Place.lexically_append _ p.segments [name]).trans (Place.lexically_name _ hname)

theorem placeFrom_child_dots : (p.child "..").placeFrom here = (p.placeFrom here).dropLast :=
  (Place.lexically_append _ p.segments [".."]).trans (Place.lexically_dots _)

theorem above_cases (h : p.IsSettled) :
    p.isRelative = true ∧ p.above = p.child ".." ∨
      p.above = p.parent ∧ (p.segments = [] ∧ p.isRelative = false ∨
        ∃ front name, p.segments = front ++ [name] ∧ IsName name) := by
  rcases List.eq_nil_or_concat p.segments with hp | ⟨front, s, hp⟩
  · cases hrel : p.isRelative <;> simp [above, hp, hrel]
  · rw [List.concat_eq_append] at hp
    rcases h s (by simp [hp]) with hname | ⟨hrel, rfl⟩
    · exact .inr ⟨by simp [above, hp, hname.ne_dots], .inr ⟨front, s, hp, hname⟩⟩
    · exact .inl ⟨hrel, by simp [above, hrel, hp]⟩

theorem IsSettled.above (h : p.IsSettled) : p.above.IsSettled := by
  rcases above_cases h with ⟨hrel, heq⟩ | ⟨heq, -⟩ <;> rw [heq] <;> intro s hs
  · rcases List.mem_append.mp hs with hs | hs
    · exact h s hs
    · exact .inr ⟨hrel, List.mem_singleton.mp hs⟩
  · exact h s ((List.dropLast_sublist _).mem hs)

theorem placeFrom_above (h : p.IsSettled) :
    p.above.placeFrom here = (p.placeFrom here).dropLast := by
  rcases above_cases h with ⟨-, heq⟩ | ⟨heq, ⟨hnil, hrel⟩ | ⟨front, name, hfront, hname⟩⟩
  · rw [heq, placeFrom_child_dots]
  · have htop : p.placeFrom here = [] := by simp [placeFrom, hrel, hnil, Place.lexically]
    have hparent : p.parent = p := by
      obtain ⟨anchor, segments⟩ := p
      obtain rfl : segments = [] := hnil
      rfl
    rw [heq, hparent, htop, List.dropLast_nil]
  · have hchild : p = p.parent.child name := by
      obtain ⟨anchor, segments⟩ := p
      obtain rfl : segments = front ++ [name] := hfront
      simp [Path.child, parent]
    rw [heq, hchild, placeFrom_child hname, List.dropLast_concat, ← hchild]

end Path

/-! ## Settling -/

namespace Tree

variable {t : Tree} {n depth : Nat} {here place : Place} {steps : List String}
  {known : SettledLinks} {entered : List Path} {sofar : Path}

/-- How a link is settled inside those that are entered. -/
def entering (t : Tree) (here : Place) (entered : List Path) :
    Nat → SettledLinks → Path → String → Except String (Path × SettledLinks)
  | 0, _, link, _ => .error link.toString
  | depth + 1, known, link, target =>
    if entered.contains link then .error link.toString
    else t.settleWithin here (link :: entered) depth known link.parent target

theorem settleWithin_eq (t : Tree) (here : Place) (entered : List Path) (depth : Nat)
    (known : SettledLinks) (sofar : Path) (text : String) :
    t.settleWithin here entered depth known sofar text =
      t.settleWith here (t.entering here entered depth) known (settleStart sofar text)
        (PathText.segments text) := by
  cases depth <;> rfl

/-- The settled links lead to their settled forms. -/
def KnowsLinks (t : Tree) (here : Place) (known : SettledLinks) : Prop :=
  ∀ link settled, known.lookup link = some settled → settled.IsSettled ∧
    ∃ m above name, link.placeFrom here = above ++ [name] ∧
      t.Leads m above [name] (settled.placeFrom here)

/-- The entered links are at different places, and each leads somewhere over more than `n` links. -/
structure EntersLinks (t : Tree) (here : Place) (entered : List Path) (n : Nat) : Prop where
  nodup : (entered.map (·.placeFrom here)).Nodup
  leads : ∀ link ∈ entered, ∃ m above name place, n < m ∧ link.placeFrom here = above ++ [name] ∧
    t.node? (above ++ [name]) ≠ none ∧ t.Leads m above [name] place

theorem KnowsLinks.cons (h : t.KnowsLinks here known) {link settled : Path}
    (hsettled : settled.IsSettled) {m : Nat} {above : Place} {name : String}
    (hlink : link.placeFrom here = above ++ [name])
    (hleads : t.Leads m above [name] (settled.placeFrom here)) :
    t.KnowsLinks here ((link, settled) :: known) := by
  intro other settled' hlookup
  rw [List.lookup_cons] at hlookup
  by_cases heq : other = link
  · subst heq
    rw [BEq.rfl, Option.some.injEq] at hlookup
    subst hlookup
    exact ⟨hsettled, m, above, name, hlink, hleads⟩
  · rw [beq_false_of_ne heq] at hlookup
    exact h other settled' hlookup

/-- A link that is known has been settled to where it leads. -/
theorem KnowsLinks.placeFrom_eq (h : t.KnowsLinks here known) {link settled : Path} {above : Place}
    {name : String} (hlookup : known.lookup link = some settled)
    (hlink : link.placeFrom here = above ++ [name]) (hleads : t.Leads n above [name] place) :
    settled.IsSettled ∧ settled.placeFrom here = place := by
  obtain ⟨hsettled, m, above', name', heq, hleads'⟩ := h _ _ hlookup
  obtain ⟨rfl, hlast⟩ := List.append_inj' (hlink.symm.trans heq) rfl
  obtain rfl : name = name' := by simpa using hlast
  exact ⟨hsettled, (hleads.unique hleads').2.symm⟩

theorem EntersLinks.mono (h : t.EntersLinks here entered n) {m : Nat} (hm : m ≤ n) :
    t.EntersLinks here entered m where
  nodup := h.nodup
  leads := fun link hlink => by
    obtain ⟨c, above, name, place, hc, hrest⟩ := h.leads link hlink
    exact ⟨c, above, name, place, by omega, hrest⟩

/-- A link that leads somewhere over as many links as are left is not among those entered. -/
theorem EntersLinks.not_mem (h : t.EntersLinks here entered n) {m : Nat} {above : Place}
    {name : String} (hm : m ≤ n) (hleads : t.Leads m above [name] place) :
    above ++ [name] ∉ entered.map (·.placeFrom here) := by
  intro hmem
  obtain ⟨link, hlink, heq⟩ := List.mem_map.mp hmem
  obtain ⟨c, above', name', place', hc, heq', -, hleads'⟩ := h.leads link hlink
  obtain ⟨rfl, hname⟩ := List.append_inj' (heq.symm.trans heq') rfl
  obtain rfl : name = name' := by simpa using hname
  obtain ⟨rfl, -⟩ := hleads.unique hleads'
  omega

theorem EntersLinks.length_le (h : t.EntersLinks here entered n) (ht : t.WellFormed) :
    entered.length ≤ t.entries.length := by
  have hsub : entered.map (·.placeFrom here) ⊆ t.entries.map (·.1) := by
    intro place hplace
    obtain ⟨link, hlink, rfl⟩ := List.mem_map.mp hplace
    obtain ⟨c, above, name, place, -, heq, hnode, -⟩ := h.leads link hlink
    obtain ⟨node, hnode⟩ := Option.ne_none_iff_exists'.mp hnode
    rw [heq]
    exact List.mem_map.mpr ⟨_, (ht.node?_eq_some_iff (by simp)).mp hnode, rfl⟩
  simpa using (h.nodup.subperm hsub).length_le

/-- A link is entered with those left over which its target leads. -/
theorem EntersLinks.cons (h : t.EntersLinks here entered n) {m : Nat} {link : Path} {above : Place}
    {name : String} (hm : m < n) (hlink : link.placeFrom here = above ++ [name])
    (hnode : t.node? (above ++ [name]) ≠ none) (hleads : t.Leads (m + 1) above [name] place) :
    t.EntersLinks here (link :: entered) m where
  nodup := by
    have hnew : link.placeFrom here ∉ entered.map (·.placeFrom here) := by
      rw [hlink]
      exact h.not_mem hm hleads
    exact List.nodup_cons.mpr ⟨hnew, h.nodup⟩
  leads other hmem := by
    rcases List.mem_cons.mp hmem with rfl | hmem
    · exact ⟨_, _, _, _, Nat.lt_succ_self _, hlink, hnode, hleads⟩
    · exact (h.mono hm.le).leads other hmem

/-- There are enough links left to enter one, and it is not among those entered. -/
theorem EntersLinks.entering_eq {link : Path} (h : t.EntersLinks here (link :: entered) n)
    (ht : t.WellFormed) (hdepth : t.entries.length ≤ depth + entered.length) :
    ∃ more, t.entries.length ≤ more + (link :: entered).length ∧ ∀ known target,
      t.entering here entered depth known link target =
        t.settleWith here (t.entering here (link :: entered) more) known
          (settleStart link.parent target) (PathText.segments target) := by
  have hlen := h.length_le ht
  rw [List.length_cons] at hlen
  obtain ⟨more, rfl⟩ : ∃ more, depth = more + 1 := ⟨depth - 1, by omega⟩
  have hcontains : entered.contains link = false := by
    rw [List.contains_eq_mem, decide_eq_false_iff_not]
    exact fun hmem => (List.nodup_cons.mp h.nodup).1 (List.mem_map_of_mem hmem)
  refine ⟨more, by rw [List.length_cons]; omega, fun known target => ?_⟩
  rw [entering, hcontains, if_neg Bool.false_ne_true, settleWithin_eq]

theorem settleStart_isSettled (h : sofar.IsSettled) (text : String) :
    (settleStart sofar text).IsSettled := by
  unfold settleStart
  split
  · simp [Path.IsSettled]
  · exact h

theorem placeFrom_settleStart (sofar : Path) (text : String) :
    (settleStart sofar text).placeFrom here =
      (Route.ofText text).startAt (sofar.placeFrom here) := by
  unfold settleStart Route.startAt Route.ofText
  by_cases h : text.toList.head? = some '/'
  · simp [h, Path.placeFrom, Path.isRelative, Place.lexically]
  · simp [h]

/-- Settling follows the steps that lead somewhere. -/
theorem settleWith_leads (ht : t.WellFormed) (hleads : t.Leads n (sofar.placeFrom here) steps place)
    (hsofar : sofar.IsSettled) (hknown : t.KnowsLinks here known)
    (hentered : t.EntersLinks here entered n)
    (hdepth : t.entries.length ≤ depth + entered.length) :
    ∃ settled known',
      t.settleWith here (t.entering here entered depth) known sofar steps = .ok (settled, known') ∧
        settled.IsSettled ∧ settled.placeFrom here = place ∧ t.KnowsLinks here known' := by
  induction n using Nat.strongRecOn generalizing depth entered known sofar steps place with
  | ind n ihn =>
    induction steps generalizing known sofar with
    | nil => cases hleads; exact ⟨sofar, known, rfl, hsofar, rfl, hknown⟩
    | cons step rest ih =>
      rw [settleWith]
      cases hleads with
      | skip hstep next =>
        rw [if_pos (by simpa using hstep)]
        exact ih next hsofar hknown
      | up next =>
        rw [if_neg (by decide), if_pos rfl]
        rw [← Path.placeFrom_above hsofar] at next
        exact ih next hsofar.above hknown
      | down hname hnode next =>
        rw [if_neg (by simpa using hname.not_skip), if_neg hname.ne_dots]
        rw [← Path.placeFrom_child hname] at hnode next
        obtain ⟨settled, known', hsettle, hrest⟩ := ih next (hsofar.child hname) hknown
        refine ⟨settled, known', ?_, hrest⟩
        simp only [hnode]
        exact hsettle
      | @link n _ _ _ target _ hname hnode next =>
        rw [if_neg (by simpa using hname.not_skip), if_neg hname.ne_dots]
        obtain ⟨n₁, n₂, between, rfl, htarget, hrest⟩ := next.split
        have hlink : (sofar.child step).placeFrom here = sofar.placeFrom here ++ [step] :=
          Path.placeFrom_child hname
        have hover : t.Leads (n₁ + 1) (sofar.placeFrom here) [step] between :=
          .link hname hnode (by simpa using htarget)
        simp only [hlink, hnode]
        cases hlookup : known.lookup (sofar.child step) with
        | some settled =>
          obtain ⟨hsettled, rfl⟩ := hknown.placeFrom_eq hlookup hlink hover
          exact ihn n₂ (by omega) hrest hsettled hknown (hentered.mono (by omega)) hdepth
        | none =>
          have henters := hentered.cons (by omega) hlink (by simp [hnode]) hover
          obtain ⟨more, hmore, hentering⟩ := henters.entering_eq ht hdepth
          have hparent : (sofar.child step).parent = sofar := by simp [Path.child, Path.parent]
          have hinside : t.Leads n₁ ((settleStart sofar target).placeFrom here)
              (PathText.segments target) between := by
            rw [placeFrom_settleStart]
            exact htarget.of_filter (filter_steps_ofText target)
          obtain ⟨settled, known', hsettle, hsettled, rfl, hknown'⟩ :=
            ihn n₁ (by omega) hinside (settleStart_isSettled hsofar target) hknown henters hmore
          simp only [hentering, hparent, hsettle]
          exact ihn n₂ (by omega) hrest hsettled (hknown'.cons hsettled hlink hover)
            (hentered.mono (by omega)) hdepth

theorem startAt_route (path : Path) (here : Place) :
    path.route.startAt here = if path.isRelative then here else [] := by
  cases h : path.isRelative <;> simp [Route.startAt, Path.route, h]

/-- A normal path is settled to where its steps lead. -/
theorem settle_leads (ht : t.WellFormed) {path : Path} (hpath : path.IsNormal)
    (hleads : t.Leads n (path.route.startAt here) path.route.names place) :
    t.settle here path.toString = .ok ⟨.absolute, place⟩ := by
  have hstart : (settleStart ⟨.relative, []⟩ path.toString).placeFrom here =
      path.route.startAt here := by
    rw [startAt_route]
    unfold settleStart
    cases hrel : path.isRelative with
    | true =>
      have hhead : path.toString.toList.head? ≠ some '/' := by
        rw [ne_eq, Path.head?_toString hpath, hrel]
        simp
      rw [if_neg hhead]
      rfl
    | false =>
      rw [if_pos ((Path.head?_toString hpath).mpr hrel)]
      rfl
  have hsteps :
      path.route.names.filter isTaken = (PathText.segments path.toString).filter isTaken := by
    rw [Path.filter_names_route hpath, Path.filter_segments_toString hpath]
  have hall := hleads.of_filter hsteps
  rw [← hstart] at hall
  have hknown : t.KnowsLinks here [] := by simp [KnowsLinks]
  have henters : t.EntersLinks here [] n := ⟨List.nodup_nil, by simp⟩
  have hdepth : t.entries.length ≤ t.settleDepth here + ([] : List Path).length := by
    rw [settleDepth, List.length_nil, Nat.add_zero]
    exact Nat.le_mul_of_pos_left _ (by omega)
  obtain ⟨settled, known, hsettle, -, hplace, -⟩ :=
    settleWith_leads ht hall (settleStart_isSettled (by simp [Path.IsSettled]) _)
      hknown henters hdepth
  rw [settle, settleWithin_eq, hsettle]
  simp [hplace]

end Tree

end Recase
