import Mathlib.Data.List.Nodup
import Mathlib.Logic.Function.Basic
import Recase.Proofs.Tree.Basic

/-!
# Renamed trees

A tree in which every entry may have a name other than the one that it is known by.

* `Naming`: names for entries, by the places that they are known by. `Naming.own` are their own.
* `Naming.relocate`: where an entry is once it and all above it have their names;
  `Tree.renamed`: the tree then.
* `Tree.Separates`: entries of one directory have different names. Entries are told apart by where
  they are then (`Separates.relocate_injective`), and the renamed tree holds what the tree holds
  (`node?_renamed`, `exists_of_node?_renamed`). It is well formed (`WellFormed.renamed`).
* `move_renamed`: carrying an entry to another name in its directory gives it that name, and
  takes away what is there.
* `Tree.without`: a tree without some of its entries.
-/

namespace Recase

/-- Names for entries, by the places that they are known by. -/
abbrev Naming := Place → String

namespace Naming

/-- The names that entries have of their own. -/
def own : Naming := fun place => place.getLast?.getD ""

/-- The names on the way from a place on. -/
def along (ν : Naming) (above : Place) : List String → List String
  | [] => []
  | name :: rest => ν (above ++ [name]) :: ν.along (above ++ [name]) rest

/-- Where what is known by a place is once it and all above it have their names. -/
def relocate (ν : Naming) (place : Place) : Place := ν.along [] place

variable {ν μ : Naming} {above place : Place} {names more : List String} {name : String}

theorem along_append (ν : Naming) (above : Place) (names more : List String) :
    ν.along above (names ++ more) = ν.along above names ++ ν.along (above ++ names) more := by
  induction names generalizing above with
  | nil => simp [along]
  | cons name rest ih => simp [along, ih]

@[simp] theorem length_along (ν : Naming) (above : Place) (names : List String) :
    (ν.along above names).length = names.length := by
  induction names generalizing above with
  | nil => rfl
  | cons name rest ih => simp [along, ih]

@[simp] theorem relocate_nil (ν : Naming) : ν.relocate [] = [] := rfl

@[simp] theorem length_relocate (ν : Naming) (place : Place) :
    (ν.relocate place).length = place.length := length_along ν [] place

theorem relocate_append (ν : Naming) (place : Place) (more : List String) :
    ν.relocate (place ++ more) = ν.relocate place ++ ν.along place more := by
  rw [relocate, along_append]; rfl

theorem relocate_concat (ν : Naming) (place : Place) (name : String) :
    ν.relocate (place ++ [name]) = ν.relocate place ++ [ν (place ++ [name])] :=
  relocate_append ν place [name]

@[simp] theorem relocate_eq_nil_iff : ν.relocate place = [] ↔ place = [] := by
  rw [← List.length_eq_zero_iff, length_relocate, List.length_eq_zero_iff]

@[simp] theorem own_concat (above : Place) (name : String) : own (above ++ [name]) = name := by
  simp [own]

theorem along_congr
    (h : ∀ front, front ≠ [] → front <+: names → ν (above ++ front) = μ (above ++ front)) :
    ν.along above names = μ.along above names := by
  induction names generalizing above with
  | nil => rfl
  | cons name rest ih =>
    rw [along, along, h [name] (by simp) ⟨rest, rfl⟩, ih]
    intro front hne hfront
    obtain ⟨back, rfl⟩ := hfront
    simpa using h (name :: front) (by simp) ⟨back, by simp⟩

/-- Only the names on the way to a place matter to where it is. -/
theorem relocate_congr (h : ∀ front, front ≠ [] → front <+: place → ν front = μ front) :
    ν.relocate place = μ.relocate place :=
  along_congr (by simpa using h)

theorem along_own (above : Place) (names : List String) : own.along above names = names := by
  induction names generalizing above with
  | nil => rfl
  | cons name rest ih => simp [along, ih]

@[simp] theorem relocate_own (place : Place) : own.relocate place = place := along_own [] place

/-- Where what has its own name on the way to it is. -/
theorem relocate_eq_self (h : ∀ front, front ≠ [] → front <+: place → ν front = own front) :
    ν.relocate place = place := by
  rw [relocate_congr h, relocate_own]

/-- A name given anew matters to what it leads to alone. -/
theorem relocate_update_of_not_above {new : String} (h : ¬ above <+: place) :
    relocate (Function.update ν above new) place = ν.relocate place :=
  relocate_congr fun _ _ hfront => Function.update_of_ne (fun he => h (by rwa [← he])) _ _

theorem relocate_update_append {new : String} :
    relocate (Function.update ν (above ++ [name]) new) (above ++ [name] ++ more) =
      ν.relocate above ++ [new] ++ ν.along (above ++ [name]) more := by
  have habove : relocate (Function.update ν (above ++ [name]) new) above = ν.relocate above :=
    relocate_update_of_not_above fun h => by
      have := h.length_le
      simp only [List.length_append, List.length_singleton] at this
      omega
  have hmore : along (Function.update ν (above ++ [name]) new) (above ++ [name]) more =
      ν.along (above ++ [name]) more :=
    along_congr fun front hne _ => Function.update_of_ne (by simp [hne]) _ _
  rw [relocate_append, relocate_concat, habove, hmore, Function.update_self]

end Naming

namespace Tree

open Naming

/-- The tree in which every entry has the name that it is given. -/
def renamed (t : Tree) (ν : Naming) : Tree :=
  ⟨t.entries.map fun e => (ν.relocate e.1, e.2)⟩

/-- Entries of one directory have different names. -/
def Separates (t : Tree) (ν : Naming) : Prop :=
  ∀ above name other, t.node? (above ++ [name]) ≠ none → t.node? (above ++ [other]) ≠ none →
    ν (above ++ [name]) = ν (above ++ [other]) → name = other

@[simp] theorem renamed_own (t : Tree) : t.renamed own = t := by simp [renamed]

theorem separates_own (t : Tree) : t.Separates own := by
  intro above name other _ _ h
  simpa using h

variable {t : Tree} {ν μ : Naming} {place other above : Place} {node : Node} {name : String}

theorem renamed_congr (h : ∀ e ∈ t.entries, ν.relocate e.1 = μ.relocate e.1) :
    t.renamed ν = t.renamed μ := by
  unfold renamed
  congr 1
  exact List.map_congr_left fun e he => by rw [h e he]

/-- Entries are told apart by where they are. -/
theorem Separates.relocate_injective (hsep : t.Separates ν) (ht : t.WellFormed)
    (hp : t.node? place ≠ none) (ho : t.node? other ≠ none)
    (h : ν.relocate place = ν.relocate other) : place = other := by
  induction place using List.reverseRecOn generalizing other with
  | nil => exact (relocate_eq_nil_iff.mp h.symm).symm
  | append_singleton above name ih =>
    rcases List.eq_nil_or_concat other with rfl | ⟨above', name', rfl⟩
    · simp at h
    · rw [List.concat_eq_append] at h ho ⊢
      rw [relocate_concat, relocate_concat] at h
      obtain ⟨node, hnode⟩ := Option.ne_none_iff_exists'.mp hp
      obtain ⟨node', hnode'⟩ := Option.ne_none_iff_exists'.mp ho
      have hdir := isDirectory_iff.mp (ht.isDirectory_of_concat hnode)
      have hdir' := isDirectory_iff.mp (ht.isDirectory_of_concat hnode')
      obtain ⟨habove, hlast⟩ := List.append_inj' h rfl
      obtain rfl := ih (by simp [hdir]) (by simp [hdir']) habove
      rw [hsep above name name' hp ho (by simpa using hlast)]

/-- What is below an entry once it is renamed was below it. -/
theorem Separates.exists_append (hsep : t.Separates ν) (ht : t.WellFormed)
    (hp : t.node? place ≠ none) (ho : t.node? other ≠ none)
    (h : ν.relocate place <+: ν.relocate other) : place <+: other := by
  have hlen : place.length ≤ other.length := by simpa using h.length_le
  have hsplit : ν.relocate other =
      ν.relocate (other.take place.length) ++ ν.along (other.take place.length)
        (other.drop place.length) := by
    rw [← relocate_append, List.take_append_drop]
  have htake : ν.relocate place = ν.relocate (other.take place.length) := by
    rw [List.prefix_iff_eq_take.mp h, hsplit, List.take_left' (by simp [hlen])]
  have hfront : t.node? (other.take place.length) ≠ none := by
    rcases eq_or_ne (other.drop place.length) [] with hnil | hne
    · rwa [List.take_of_length_le (List.drop_eq_nil_iff.mp hnil)]
    · obtain ⟨node, hnode⟩ := Option.ne_none_iff_exists'.mp ho
      rw [← List.take_append_drop place.length other] at hnode
      simp [isDirectory_iff.mp (ht.isDirectory_of_append hne hnode)]
  rw [hsep.relocate_injective ht hp hfront htake]
  exact List.take_prefix _ _

theorem Separates.nodup (hsep : t.Separates ν) (ht : t.WellFormed) :
    ((t.renamed ν).entries.map (·.1)).Nodup := by
  have hmap : (t.renamed ν).entries.map (·.1) = (t.entries.map (·.1)).map ν.relocate := by
    simp [renamed, Function.comp_def]
  rw [hmap]
  refine List.Nodup.map_on (fun place hp other ho h => ?_) ht.nodup
  have hentry : ∀ q ∈ t.entries.map (·.1), t.node? q ≠ none := by
    intro q hq
    obtain ⟨⟨_, node⟩, he, rfl⟩ := List.mem_map.mp hq
    simp [ht.node?_of_mem he]
  exact hsep.relocate_injective ht (hentry _ hp) (hentry _ ho) h

/-- The renamed tree holds what the tree holds. -/
theorem Separates.node?_renamed (hsep : t.Separates ν) (ht : t.WellFormed)
    (h : t.node? place = some node) : (t.renamed ν).node? (ν.relocate place) = some node := by
  rcases eq_or_ne place [] with rfl | hne
  · simpa using h
  · rw [node?_of_ne_nil (by simpa using hne), lookup_eq_some_iff (hsep.nodup ht)]
    exact List.mem_map.mpr ⟨_, (ht.node?_eq_some_iff hne).mp h, rfl⟩

/-- The renamed tree holds nothing else. -/
theorem Separates.exists_of_node?_renamed (hsep : t.Separates ν) (ht : t.WellFormed)
    (h : (t.renamed ν).node? place = some node) :
    ∃ source, place = ν.relocate source ∧ t.node? source = some node := by
  rcases eq_or_ne place [] with rfl | hne
  · exact ⟨[], rfl, by simpa using h⟩
  · rw [node?_of_ne_nil hne, lookup_eq_some_iff (hsep.nodup ht)] at h
    obtain ⟨⟨source, node'⟩, he, heq⟩ := List.mem_map.mp h
    cases heq
    exact ⟨source, rfl, ht.node?_of_mem he⟩

/-- What is at or below an entry of the renamed tree was at or below it. -/
theorem Separates.exists_of_node?_append (hsep : t.Separates ν) (ht : t.WellFormed)
    (hplace : t.node? place ≠ none) {names : List String}
    (h : (t.renamed ν).node? (ν.relocate place ++ names) = some node) :
    ∃ sources, names = ν.along place sources ∧ t.node? (place ++ sources) = some node := by
  obtain ⟨source, heq, hnode⟩ := hsep.exists_of_node?_renamed ht h
  obtain ⟨sources, rfl⟩ := hsep.exists_append ht hplace (by simp [hnode]) ⟨names, heq⟩
  rw [relocate_append] at heq
  exact ⟨sources, List.append_cancel_left heq, hnode⟩

/-- What is in a directory of the renamed tree was in it. -/
theorem Separates.exists_of_node?_concat (hsep : t.Separates ν) (ht : t.WellFormed)
    (habove : t.node? above ≠ none)
    (h : (t.renamed ν).node? (ν.relocate above ++ [name]) = some node) :
    ∃ source, name = ν (above ++ [source]) ∧ t.node? (above ++ [source]) = some node := by
  obtain ⟨sources, hnames, hnode⟩ := hsep.exists_of_node?_append ht habove h
  obtain ⟨source, rfl⟩ : ∃ source, sources = [source] :=
    List.length_eq_one_iff.mp (by simpa using (congrArg List.length hnames).symm)
  exact ⟨source, by simpa [along] using hnames, hnode⟩

theorem Separates.isDirectory_renamed (hsep : t.Separates ν) (ht : t.WellFormed)
    (h : t.isDirectory place = true) : (t.renamed ν).isDirectory (ν.relocate place) = true :=
  isDirectory_iff.mpr (hsep.node?_renamed ht (isDirectory_iff.mp h))

theorem WellFormed.renamed (ht : t.WellFormed) (hsep : t.Separates ν)
    (hnames : ∀ above name, t.node? (above ++ [name]) ≠ none →
      isEntryName (ν (above ++ [name])) = true) : (t.renamed ν).WellFormed := by
  have hentry : ∀ e ∈ t.entries, ∃ above name, e.1 = above ++ [name] ∧
      t.node? (above ++ [name]) = some e.2 := by
    rintro ⟨place, node⟩ he
    rcases List.eq_nil_or_concat place with rfl | ⟨above, name, rfl⟩
    · exact absurd rfl (ht.ne_top _ he)
    · exact ⟨above, name, by simp, by simpa using ht.node?_of_mem he⟩
  refine ⟨hsep.nodup ht, fun e' he' => ?_, fun e' he' => ?_, fun e' he' => ?_⟩ <;>
    obtain ⟨e, he, rfl⟩ := List.mem_map.mp he' <;>
    obtain ⟨above, name, heq, hnode⟩ := hentry e he <;>
    dsimp only
  · simpa using ht.ne_top e he
  · rw [heq, relocate_concat, List.dropLast_concat]
    exact hsep.isDirectory_renamed ht (ht.isDirectory_of_concat hnode)
  · have hall :
        ∀ place, t.node? place ≠ none → ∀ n ∈ ν.relocate place, Tree.isEntryName n = true := by
      intro place
      induction place using List.reverseRecOn with
      | nil => simp
      | append_singleton above name ih =>
        intro hp n hn
        rw [relocate_concat, List.mem_append] at hn
        rcases hn with hn | hn
        · obtain ⟨node, hnode⟩ := Option.ne_none_iff_exists'.mp hp
          exact ih (by simp [isDirectory_iff.mp (ht.isDirectory_of_concat hnode)]) n hn
        · rw [List.mem_singleton.mp hn]
          exact hnames above name hp
    rw [heq]
    exact hall _ (by simp [hnode])

/-! ## Giving an entry a name -/

/-- What is known by a place is carried along with the entry that is given a name. -/
theorem Separates.carried_relocate (hsep : t.Separates ν) (ht : t.WellFormed) (new : String)
    (hp : t.node? (above ++ [name]) ≠ none) (ho : t.node? other ≠ none) :
    (ν.relocate other).carried (ν.relocate (above ++ [name])) (ν.relocate above ++ [new]) =
      Naming.relocate (Function.update ν (above ++ [name]) new) other := by
  unfold Place.carried
  by_cases hbelow : above ++ [name] <+: other
  · obtain ⟨more, rfl⟩ := hbelow
    have hsplit := relocate_append ν (above ++ [name]) more
    rw [Place.isPrefixOf?_eq_some_iff.mpr hsplit, relocate_update_append]
  · rw [relocate_update_of_not_above hbelow]
    split
    · rename_i rest hrest
      rw [Place.isPrefixOf?_eq_some_iff] at hrest
      exact absurd (hsep.exists_append ht hp ho ⟨rest, hrest.symm⟩) hbelow
    · rfl

/-- The tree without the entries at some places. -/
def without (t : Tree) (gone : List Place) : Tree :=
  ⟨t.entries.filter fun e => !gone.contains e.1⟩

@[simp] theorem without_nil (t : Tree) : t.without [] = t := by simp [without]

theorem without_cons (t : Tree) (place : Place) (gone : List Place) :
    t.without (place :: gone) = (t.without gone).without [place] := by
  unfold without
  rw [List.filter_filter]
  congr 2
  funext e
  rw [List.contains_cons, Bool.not_or, List.contains_cons, List.contains_nil, Bool.or_false]

theorem WellFormed.without (ht : t.WellFormed) {gone : List Place}
    (hgone : ∀ place ∈ gone, t.isDirectory place = false) : (t.without gone).WellFormed := by
  have hnodup : ((t.without gone).entries.map (·.1)).Nodup :=
    ht.nodup.sublist (List.filter_sublist.map _)
  have hmem : ∀ e ∈ (t.without gone).entries, e ∈ t.entries := fun e he =>
    (List.mem_filter.mp he).1
  refine ⟨hnodup, fun e he => ht.ne_top e (hmem e he), fun e he => ?_,
    fun e he => ht.names e (hmem e he)⟩
  have hparent := ht.parent e (hmem e he)
  rw [isDirectory_iff]
  by_cases hnil : e.1.dropLast = []
  · rw [hnil, node?_nil]
  · rw [node?_of_ne_nil hnil, lookup_eq_some_iff hnodup]
    refine List.mem_filter.mpr
      ⟨(ht.node?_eq_some_iff hnil).mp (isDirectory_iff.mp hparent), ?_⟩
    simp only [Bool.not_eq_true', List.contains_eq_mem, decide_eq_false_iff_not]
    intro hm
    rw [hgone _ hm] at hparent
    cases hparent

/-- What is not taken away stays, and nothing is added. -/
theorem WellFormed.node?_without (ht : t.WellFormed) {gone : List Place}
    (hgone : ∀ place ∈ gone, t.isDirectory place = false) :
    (t.without gone).node? place = some node ↔ t.node? place = some node ∧ place ∉ gone := by
  by_cases hnil : place = []
  · subst hnil
    have : [] ∉ gone := fun hm => by simpa using hgone _ hm
    simp [this]
  · rw [(ht.without hgone).node?_eq_some_iff hnil, ht.node?_eq_some_iff hnil]
    simp [Tree.without]

/-- Carrying an entry to a free name of its directory gives it that name. -/
theorem Separates.move_renamed (hsep : t.Separates ν) (ht : t.WellFormed) {new : String}
    (hp : t.node? (above ++ [name]) ≠ none)
    (hfree : (t.renamed ν).node? (ν.relocate above ++ [new]) = none) :
    (t.renamed ν).move (ν.relocate (above ++ [name])) (ν.relocate above ++ [new]) =
      t.renamed (Function.update ν (above ++ [name]) new) := by
  have hkept : ∀ e ∈ (t.renamed ν).entries, (e.1 != ν.relocate above ++ [new]) = true := by
    rintro ⟨place, node⟩ he
    rw [bne_iff_ne]
    rintro rfl
    rw [node?_of_ne_nil (by simp), (lookup_eq_some_iff (hsep.nodup ht)).mpr he] at hfree
    cases hfree
  unfold move
  rw [List.filter_eq_self.mpr hkept]
  unfold renamed
  rw [List.map_map]
  congr 1
  refine List.map_congr_left fun e he => ?_
  have hnode : t.node? e.1 ≠ none := by simp [ht.node?_of_mem he]
  simp only [Function.comp_apply]
  rw [hsep.carried_relocate ht new hp hnode]

/-- Carrying an entry to a name that another entry of its directory has takes that one away. -/
theorem Separates.move_renamed_of_taken (hsep : t.Separates ν) (ht : t.WellFormed)
    {taken : String} (hp : t.node? (above ++ [name]) ≠ none)
    (htaken : t.node? (above ++ [taken]) ≠ none) :
    (t.renamed ν).move (ν.relocate (above ++ [name])) (ν.relocate (above ++ [taken])) =
      (t.without [above ++ [taken]]).renamed
        (Function.update ν (above ++ [name]) (ν (above ++ [taken]))) := by
  unfold move renamed without
  rw [List.filter_map, List.map_map]
  have hfilter : t.entries.filter
        ((fun e => e.1 != ν.relocate (above ++ [taken])) ∘ fun e => (ν.relocate e.1, e.2)) =
      t.entries.filter fun e => !([above ++ [taken]].contains e.1) := by
    refine List.filter_congr fun e he => ?_
    have hnode : t.node? e.1 ≠ none := by simp [ht.node?_of_mem he]
    by_cases heq : e.1 = above ++ [taken]
    · simp [heq]
    · have hne : ν.relocate e.1 ≠ ν.relocate (above ++ [taken]) :=
        fun h => heq (hsep.relocate_injective ht hnode htaken h)
      simp [heq, hne]
  rw [hfilter]
  congr 1
  refine List.map_congr_left fun e he => ?_
  have hnode : t.node? e.1 ≠ none := by simp [ht.node?_of_mem (List.mem_filter.mp he).1]
  simp only [Function.comp_apply]
  rw [relocate_concat ν above taken, hsep.carried_relocate ht _ hp hnode]

end Tree

end Recase
