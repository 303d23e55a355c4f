import Recase.Proofs.Tree.Renamed
import Recase.Proofs.Tree.Walk

/-!
# Trees in the course of a renaming

Halfway through a renaming some entries have new names. Links keep their own, but a link in the way
of a file that it leads to is gone, with the file in its place.

* `Tree.Arranged`: what holds of the names and of the links that are gone; `Tree.arranged` is the
  tree then. It is well formed (`Arranged.wellFormed`).
* `Arranged.node?_concat`: what stands where a directory or a link of the tree had its name:
  nothing, a file, or the same entry with the same name.
* `Arranged.rename`, `Arranged.remove`: an entry may get a free name, and a link may go;
  `Arranged.move_eq`, `Arranged.move_eq_of_link` are the moves that do so.
* `Arranged.follows`: steps that led from one directory to another lead from where the one is to
  where the other is, if they still lead to a directory at all.
-/

namespace Recase.Tree

open Naming

/-- The tree with the names given, and without the links that are gone. -/
def arranged (t : Tree) (ν : Naming) (gone : List Place) : Tree := (t.without gone).renamed ν

/-- What holds of names and of the links that are gone in the course of a renaming. -/
structure Arranged (t : Tree) (ν : Naming) (gone : List Place) : Prop where
  /-- Only links are gone. -/
  isLink : ∀ place ∈ gone, ∃ target, t.node? place = some (.link target)
  /-- No directory has got the name of one of them. -/
  vacated : ∀ above name source, above ++ [name] ∈ gone →
    t.node? (above ++ [source]) = some .directory → ν (above ++ [source]) ≠ name
  /-- What is there is told apart by its names. -/
  separates : (t.without gone).Separates ν
  /-- The names are names of entries. -/
  isEntryName : ∀ above name, t.node? (above ++ [name]) ≠ none →
    Tree.isEntryName (ν (above ++ [name])) = true
  /-- Links have their own names. -/
  link : ∀ above name target, t.node? (above ++ [name]) = some (.link target) →
    ν (above ++ [name]) = name
  /-- A directory with a new name had a name that the rule changes, and has one that it does not. -/
  directory : ∀ above name, t.node? (above ++ [name]) = some .directory →
    ν (above ++ [name]) = name ∨
      EntryKind.directory.convert name ≠ name ∧
        EntryKind.directory.convert (ν (above ++ [name])) = ν (above ++ [name])

variable {t : Tree} {ν : Naming} {gone : List Place} {above here place : Place} {name : String}
  {node found : Node}

theorem relocate_dropLast (ν : Naming) (place : Place) :
    (ν.relocate place).dropLast = ν.relocate place.dropLast := by
  rcases List.eq_nil_or_concat place with rfl | ⟨above, name, rfl⟩
  · rfl
  · rw [List.concat_eq_append, relocate_concat, List.dropLast_concat, List.dropLast_concat]

theorem relocate_startAt (ν : Naming) (route : Route) (here : Place) :
    ν.relocate (route.startAt here) = route.startAt (ν.relocate here) := by
  unfold Route.startAt
  split
  · rfl
  · rfl

/-- Before anything is renamed. -/
theorem arranged_own (ht : t.WellFormed) : t.Arranged own [] where
  isLink := by simp
  vacated := by simp
  separates := by rw [without_nil]; exact separates_own t
  isEntryName above name h := by
    obtain ⟨node, hnode⟩ := Option.ne_none_iff_exists'.mp h
    rw [own_concat]
    exact ht.entryName hnode (by simp)
  link := by simp
  directory := by simp

namespace Arranged

variable (h : t.Arranged ν gone) (ht : t.WellFormed)
include h

theorem isDirectory_gone : ∀ place ∈ gone, t.isDirectory place = false := by
  intro place hplace
  obtain ⟨target, htarget⟩ := h.isLink place hplace
  simp [isDirectory, htarget]

include ht

theorem wellFormed_without : (t.without gone).WellFormed := ht.without h.isDirectory_gone

theorem node?_without :
    (t.without gone).node? place = some node ↔ t.node? place = some node ∧ place ∉ gone :=
  ht.node?_without h.isDirectory_gone

theorem node?_without_of_ne_link (hnode : t.node? place = some node)
    (hlink : ∀ target, node ≠ .link target) : (t.without gone).node? place = some node := by
  refine (h.node?_without ht).mpr ⟨hnode, fun hm => ?_⟩
  obtain ⟨target, htarget⟩ := h.isLink place hm
  rw [hnode] at htarget
  exact hlink target (Option.some.inj htarget)

/-- The tree in the course of a renaming is well formed. -/
theorem wellFormed : (t.arranged ν gone).WellFormed := by
  refine (h.wellFormed_without ht).renamed h.separates fun above name hnode => ?_
  obtain ⟨node, hnode⟩ := Option.ne_none_iff_exists'.mp hnode
  exact h.isEntryName above name (by simp [((h.node?_without ht).mp hnode).1])

theorem isDirectory (hdir : t.isDirectory place = true) :
    (t.arranged ν gone).isDirectory (ν.relocate place) = true := by
  refine h.separates.isDirectory_renamed (h.wellFormed_without ht) (isDirectory_iff.mpr ?_)
  exact h.node?_without_of_ne_link ht (isDirectory_iff.mp hdir) (by simp)

/-- What is in a directory was in it, and is not gone. -/
theorem exists_of_node?_concat (hdir : t.isDirectory above = true)
    (hfound : (t.arranged ν gone).node? (ν.relocate above ++ [name]) = some found) :
    ∃ source, name = ν (above ++ [source]) ∧ t.node? (above ++ [source]) = some found ∧
      above ++ [source] ∉ gone := by
  have habove := h.node?_without_of_ne_link ht (isDirectory_iff.mp hdir) (by simp)
  obtain ⟨source, rfl, hnode⟩ := h.separates.exists_of_node?_concat (h.wellFormed_without ht)
    (by simp [habove]) hfound
  exact ⟨source, rfl, (h.node?_without ht).mp hnode⟩

/-- Entries that are not gone are told apart by their names. -/
theorem name_inj {other : String} (hname : t.node? (above ++ [name]) ≠ none)
    (hother : t.node? (above ++ [other]) ≠ none) (hgone : above ++ [name] ∉ gone)
    (hgone' : above ++ [other] ∉ gone) (heq : ν (above ++ [name]) = ν (above ++ [other])) :
    name = other := by
  obtain ⟨node, hnode⟩ := Option.ne_none_iff_exists'.mp hname
  obtain ⟨node', hnode'⟩ := Option.ne_none_iff_exists'.mp hother
  exact h.separates above name other (by simp [(h.node?_without ht).mpr ⟨hnode, hgone⟩])
    (by simp [(h.node?_without ht).mpr ⟨hnode', hgone'⟩]) heq

theorem not_gone_of_ne_link (hnode : t.node? place = some node)
    (hlink : ∀ target, node ≠ .link target) : place ∉ gone :=
  ((h.node?_without ht).mp (h.node?_without_of_ne_link ht hnode hlink)).2

/-- Where a directory or a link of the tree had its name stands nothing, a file, or the same entry
with the same name. -/
theorem node?_concat (hnode : t.node? (above ++ [name]) = some node)
    (hfile : ∀ content, node ≠ .file content)
    (hfound : (t.arranged ν gone).node? (ν.relocate above ++ [name]) = some found) :
    (∃ content, found = .file content) ∨
      found = node ∧ ν.relocate (above ++ [name]) = ν.relocate above ++ [name] := by
  have hdir := ht.isDirectory_of_concat hnode
  obtain ⟨source, hsource, hfrom, hstays⟩ := h.exists_of_node?_concat ht hdir hfound
  have hsame : source = name → found = node ∧
      ν.relocate (above ++ [name]) = ν.relocate above ++ [name] := by
    rintro rfl
    rw [hnode] at hfrom
    exact ⟨(Option.some.inj hfrom).symm, by rw [relocate_concat, ← hsource]⟩
  cases found with
  | file content => exact .inl ⟨content, rfl⟩
  | link target => exact .inr (hsame ((h.link above source target hfrom).symm.trans hsource.symm))
  | directory =>
    refine .inr (hsame ?_)
    rcases h.directory above source hfrom with hown | ⟨-, hfixed⟩
    · exact hown.symm.trans hsource.symm
    rw [← hsource] at hfixed
    cases node with
    | file content => exact absurd rfl (hfile content)
    | directory =>
      -- the rule leaves the name alone, so this directory has kept it
      have hown : ν (above ++ [name]) = name :=
        (h.directory above name hnode).resolve_right fun hnew => hnew.1 hfixed
      exact h.name_inj ht (by simp [hfrom]) (by simp [hnode]) hstays
        (h.not_gone_of_ne_link ht hnode (by simp)) (hsource.symm.trans hown.symm)
    | link target =>
      by_cases hgone : above ++ [name] ∈ gone
      · exact absurd hsource.symm (h.vacated above name source hgone hfrom)
      · exact h.name_inj ht (by simp [hfrom]) (by simp [hnode]) hstays hgone
          (hsource.symm.trans (h.link above name target hnode).symm)

/-- Steps that led from one directory to another lead from where the one is to where the other is,
if they still lead anywhere. -/
theorem follows {n k : Nat} {steps more : List String} {last : LastStep} {landing : Landing}
    (hleads : t.Leads n here steps place) (hhere : t.isDirectory here = true)
    (hlast : last ≠ .make)
    (hgo : more = [] → ∃ q, landing = .entry q ∧ (t.arranged ν gone).isDirectory q = true)
    (hwalk : (t.arranged ν gone).walk last k (ν.relocate here) (steps ++ more) = .ok landing) :
    n ≤ k ∧ (t.arranged ν gone).walk last (k - n) (ν.relocate place) more = .ok landing := by
  have hs := h.wellFormed ht
  induction hleads generalizing k with
  | done => exact ⟨Nat.zero_le _, hwalk⟩
  | skip hstep _ ih =>
    rw [List.cons_append, walk_skip hstep] at hwalk
    exact ih hhere hwalk
  | up _ ih =>
    rw [List.cons_append, walk_up hs (h.isDirectory ht hhere), relocate_dropLast] at hwalk
    exact ih (ht.isDirectory_dropLast hhere) hwalk
  | @down n here place name rest hname hnode _ ih =>
    have hgo' : rest ++ more = [] → _ := fun hnil => hgo (List.append_eq_nil_iff.mp hnil).2
    obtain ⟨hfound, hnext⟩ | ⟨target, links, hfound, -, -⟩ :=
      walk_name_cases (h.isDirectory ht hhere) hlast hname hgo' hwalk <;>
      obtain ⟨content, hfile⟩ | ⟨hsame, hplace⟩ := h.node?_concat ht hnode (by simp) hfound
    · cases hfile
    · rw [← hplace] at hnext
      exact ih (isDirectory_iff.mpr hnode) hnext
    · cases hfile
    · cases hsame
  | @link n here place name target rest hname hnode _ ih =>
    have hgo' : rest ++ more = [] → _ := fun hnil => hgo (List.append_eq_nil_iff.mp hnil).2
    obtain ⟨hfound, -⟩ | ⟨target', links, hfound, rfl, hnext⟩ :=
      walk_name_cases (h.isDirectory ht hhere) hlast hname hgo' hwalk <;>
      obtain ⟨content, hfile⟩ | ⟨hsame, -⟩ := h.node?_concat ht hnode (by simp) hfound
    · cases hfile
    · cases hsame
    · cases hfile
    · cases hsame
      rw [← relocate_startAt, ← List.append_assoc] at hnext
      obtain ⟨hle, hwalk⟩ := ih (isDirectory_startAt hhere _) hnext
      exact ⟨by omega, by rw [Nat.add_sub_add_right]; exact hwalk⟩

/-- A link may go at any time. -/
theorem remove {target : String} (hlink : t.node? (above ++ [name]) = some (.link target))
    (hstays : above ++ [name] ∉ gone) : t.Arranged ν ((above ++ [name]) :: gone) where
  isLink place hplace := by
    rcases List.mem_cons.mp hplace with rfl | hplace
    · exact ⟨target, hlink⟩
    · exact h.isLink place hplace
  vacated above' name' source hgone hdir := by
    rcases List.mem_cons.mp hgone with heq | hgone
    · obtain ⟨rfl, hlast⟩ := List.append_inj' heq rfl
      obtain rfl : name' = name := by simpa using hlast
      intro hsource
      have hsame := h.name_inj ht (by simp [hdir]) (by simp [hlink])
        (h.not_gone_of_ne_link ht hdir (by simp)) hstays
        (hsource.trans (h.link _ _ _ hlink).symm)
      rw [hsame, hlink] at hdir
      cases hdir
    · exact h.vacated above' name' source hgone hdir
  separates above' name' other hname hother := by
    have hcut : ∀ place, (t.without ((above ++ [name]) :: gone)).node? place ≠ none →
        (t.without gone).node? place ≠ none := by
      intro place hplace
      obtain ⟨node, hnode⟩ := Option.ne_none_iff_exists'.mp hplace
      have hgone : ∀ place ∈ (above ++ [name]) :: gone, t.isDirectory place = false := by
        intro place hmem
        rcases List.mem_cons.mp hmem with rfl | hmem
        · simp [Tree.isDirectory, hlink]
        · exact h.isDirectory_gone place hmem
      obtain ⟨hnode, hmem⟩ := (ht.node?_without hgone).mp hnode
      simp [(h.node?_without ht).mpr ⟨hnode, fun hm => hmem (List.mem_cons_of_mem _ hm)⟩]
    exact h.separates above' name' other (hcut _ hname) (hcut _ hother)
  isEntryName := h.isEntryName
  link := h.link
  directory := h.directory

/-- An entry that is not a link may get a name that no other entry of its directory has. A directory
gets one that the rule leaves alone, in place of one that it changes, and before links go. -/
theorem rename {new : String} (hnode : t.node? (above ++ [name]) = some node)
    (hlink : ∀ target, node ≠ .link target) (hnew : Tree.isEntryName new = true)
    (hfree : ∀ other, t.node? (above ++ [other]) ≠ none → above ++ [other] ∉ gone →
      ν (above ++ [other]) = new → other = name)
    (hdir : node = .directory → gone = [] ∧ EntryKind.directory.convert name ≠ name ∧
      EntryKind.directory.convert new = new) :
    t.Arranged (Function.update ν (above ++ [name]) new) gone where
  isLink := h.isLink
  vacated above' name' source hgone hsource := by
    by_cases heq : above' ++ [source] = above ++ [name]
    · rw [heq, hnode] at hsource
      obtain rfl := Option.some.inj hsource
      simp [(hdir rfl).1] at hgone
    · rw [Function.update_of_ne heq]
      exact h.vacated above' name' source hgone hsource
  separates above' name' other hname hother := by
    obtain ⟨node₁, hnode₁⟩ := Option.ne_none_iff_exists'.mp hname
    obtain ⟨node₂, hnode₂⟩ := Option.ne_none_iff_exists'.mp hother
    obtain ⟨hnode₁, hstays₁⟩ := (h.node?_without ht).mp hnode₁
    obtain ⟨hnode₂, hstays₂⟩ := (h.node?_without ht).mp hnode₂
    by_cases heq₁ : above' ++ [name'] = above ++ [name] <;>
      by_cases heq₂ : above' ++ [other] = above ++ [name]
    · intro _
      simpa using heq₁.trans heq₂.symm
    · obtain ⟨rfl, hlast⟩ := List.append_inj' heq₁ rfl
      obtain rfl : name' = name := by simpa using hlast
      rw [Function.update_self, Function.update_of_ne heq₂]
      exact fun hsame => (hfree other (by simp [hnode₂]) hstays₂ hsame.symm).symm
    · obtain ⟨rfl, hlast⟩ := List.append_inj' heq₂ rfl
      obtain rfl : other = name := by simpa using hlast
      rw [Function.update_self, Function.update_of_ne heq₁]
      exact fun hsame => hfree name' (by simp [hnode₁]) hstays₁ hsame
    · rw [Function.update_of_ne heq₁, Function.update_of_ne heq₂]
      exact h.separates above' name' other hname hother
  isEntryName above' name' hname := by
    by_cases heq : above' ++ [name'] = above ++ [name]
    · rwa [heq, Function.update_self]
    · rw [Function.update_of_ne heq]
      exact h.isEntryName above' name' hname
  link above' name' target htarget := by
    have hne : above' ++ [name'] ≠ above ++ [name] := by
      intro heq
      rw [heq, hnode] at htarget
      exact hlink target (Option.some.inj htarget)
    rw [Function.update_of_ne hne]
    exact h.link above' name' target htarget
  directory above' name' hname := by
    by_cases heq : above' ++ [name'] = above ++ [name]
    · obtain ⟨rfl, hlast⟩ := List.append_inj' heq rfl
      obtain rfl : name' = name := by simpa using hlast
      rw [hnode] at hname
      rw [Function.update_self]
      exact .inr (hdir (Option.some.inj hname)).2
    · rw [Function.update_of_ne heq]
      exact h.directory above' name' hname

/-- Carrying an entry to a free name of its directory. -/
theorem move_eq {new : String} (hnode : t.node? (above ++ [name]) = some node)
    (hlink : ∀ target, node ≠ .link target)
    (hfree : (t.arranged ν gone).node? (ν.relocate above ++ [new]) = none) :
    (t.arranged ν gone).move (ν.relocate (above ++ [name])) (ν.relocate above ++ [new]) =
      t.arranged (Function.update ν (above ++ [name]) new) gone :=
  h.separates.move_renamed (h.wellFormed_without ht)
    (by simp [h.node?_without_of_ne_link ht hnode hlink]) hfree

/-- Carrying an entry to the name of a link of its directory. -/
theorem move_eq_of_link {taken target : String} (hnode : t.node? (above ++ [name]) = some node)
    (hlink : ∀ target, node ≠ .link target)
    (htaken : t.node? (above ++ [taken]) = some (.link target))
    (hstays : above ++ [taken] ∉ gone) :
    (t.arranged ν gone).move (ν.relocate (above ++ [name])) (ν.relocate above ++ [taken]) =
      t.arranged (Function.update ν (above ++ [name]) taken) ((above ++ [taken]) :: gone) := by
  have hname := h.link above taken target htaken
  have hsource : (t.without gone).node? (above ++ [name]) ≠ none := by
    simp [h.node?_without_of_ne_link ht hnode hlink]
  have hthere : (t.without gone).node? (above ++ [taken]) ≠ none := by
    simp [(h.node?_without ht).mpr ⟨htaken, hstays⟩]
  have hmove := h.separates.move_renamed_of_taken (h.wellFormed_without ht) hsource hthere
  rw [relocate_concat ν above taken, hname, ← without_cons] at hmove
  exact hmove

/-- What is there is carried along. -/
theorem carried_eq {new : String} (hnode : t.node? (above ++ [name]) = some node)
    (hlink : ∀ target, node ≠ .link target) (hplace : t.node? place ≠ none) (hgone : place ∉ gone) :
    (ν.relocate place).carried (ν.relocate (above ++ [name])) (ν.relocate above ++ [new]) =
      Naming.relocate (Function.update ν (above ++ [name]) new) place := by
  obtain ⟨other, hother⟩ := Option.ne_none_iff_exists'.mp hplace
  exact h.separates.carried_relocate (h.wellFormed_without ht) new
    (by simp [h.node?_without_of_ne_link ht hnode hlink])
    (by simp [(h.node?_without ht).mpr ⟨hother, hgone⟩])

end Arranged

end Recase.Tree
