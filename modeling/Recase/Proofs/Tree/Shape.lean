import Recase.Proofs.Tree.Walk
import Recase.Tree.Change

/-!
# Trees that differ in what files hold

* `Tree.SameShape`: two trees of which one is the other but for what its files hold.
  `SameShape.exists_of_node?` says what they have in common, and `SameShape.lookUp_eq` that routes
  lead to the same places in both.
* `sameShape_put`: writing a file leaves the shape of a tree alone. `node?_put_of_ne`: it leaves
  what is elsewhere alone.
* `walk_make_of_follow`, `writePlace_of_content`: a file that can be read is found where it is
  written.
-/

namespace Recase

/-- The node, without what it holds if it is a file. -/
def Node.emptied : Node → Node
  | .file _ => .file ⟨#[]⟩
  | node => node

namespace Node

@[simp] theorem emptied_directory : emptied .directory = .directory := rfl

@[simp] theorem emptied_file (content : ByteArray) : emptied (.file content) = .file ⟨#[]⟩ := rfl

@[simp] theorem emptied_link (target : String) : emptied (.link target) = .link target := rfl

theorem emptied_eq_directory_iff {node : Node} : node.emptied = .directory ↔ node = .directory := by
  cases node <;> simp

end Node

namespace Tree

variable {t t' t'' : Tree} {place here : Place} {node : Node} {content : ByteArray}

/-- The tree with all its files empty. -/
def emptied (t : Tree) : Tree := ⟨t.entries.map fun e => (e.1, e.2.emptied)⟩

/-- One tree is the other but for what its files hold. -/
def SameShape (t t' : Tree) : Prop := t.emptied = t'.emptied

theorem lookup_emptied (entries : List (Place × Node)) (place : Place) :
    (entries.map fun e => (e.1, e.2.emptied)).lookup place =
      (entries.lookup place).map Node.emptied := by
  induction entries with
  | nil => rfl
  | cons e rest ih =>
    rw [List.map_cons, List.lookup_cons, List.lookup_cons, ih]
    split <;> rfl

theorem node?_emptied (t : Tree) (place : Place) :
    t.emptied.node? place = (t.node? place).map Node.emptied := by
  unfold node?
  split
  · rfl
  · exact lookup_emptied t.entries place

namespace SameShape

protected theorem refl (t : Tree) : t.SameShape t := rfl

protected theorem symm (h : t.SameShape t') : t'.SameShape t := Eq.symm h

protected theorem trans (h : t.SameShape t') (h' : t'.SameShape t'') : t.SameShape t'' :=
  Eq.trans h h'

variable (h : t.SameShape t')
include h

theorem map_node?_eq (place : Place) :
    (t.node? place).map Node.emptied = (t'.node? place).map Node.emptied := by
  rw [← node?_emptied, ← node?_emptied, h]

/-- There is a node in one tree where there is one in the other, and both are the same but for what
a file holds. -/
theorem exists_of_node? (hnode : t.node? place = some node) :
    ∃ node', t'.node? place = some node' ∧ node'.emptied = node.emptied := by
  have hsame := h.map_node?_eq place
  rw [hnode, Option.map_some] at hsame
  exact Option.map_eq_some_iff.mp hsame.symm

theorem node?_eq_directory (hnode : t.node? place = some .directory) :
    t'.node? place = some .directory := by
  obtain ⟨node', hnode', hsame⟩ := h.exists_of_node? hnode
  rw [hnode', Node.emptied_eq_directory_iff.mp hsame]

theorem isDirectory_eq (hdir : t.isDirectory place = true) : t'.isDirectory place = true :=
  isDirectory_iff.mpr (h.node?_eq_directory (isDirectory_iff.mp hdir))

theorem map_entries_eq : t.entries.map (·.1) = t'.entries.map (·.1) := by
  have hentries := congrArg (fun t => t.entries.map (·.1)) h
  simpa [emptied, Function.comp_def] using hentries

theorem wellFormed (ht : t.WellFormed) : t'.WellFormed := by
  have hplaces : ∀ e' ∈ t'.entries, ∃ e ∈ t.entries, e.1 = e'.1 := by
    intro e' he'
    have hmem : e'.1 ∈ t'.entries.map (·.1) := List.mem_map_of_mem he'
    rw [← h.map_entries_eq] at hmem
    exact List.mem_map.mp hmem
  refine ⟨?_, fun e' he' => ?_, fun e' he' => ?_, fun e' he' => ?_⟩
  · rw [← h.map_entries_eq]
    exact ht.nodup
  all_goals
    obtain ⟨e, he, hplace⟩ := hplaces e' he'
    rw [← hplace]
  · exact ht.ne_top e he
  · exact h.isDirectory_eq (ht.parent e he)
  · exact ht.names e he

end SameShape

/-! ## Walks -/

theorem subtree_emptied (t : Tree) (top : Place) :
    t.emptied.subtree top = (t.subtree top).emptied := by
  rw [subtree, subtree, emptied, emptied, below, below, List.filterMap_map, List.map_filterMap]
  congr 2
  funext e
  simp only [Function.comp_apply]
  split <;> rfl

theorem advance_emptied (t : Tree) (last : LastStep) (here : Place) (inside : Tree)
    (steps : List String) :
    t.emptied.advance last here inside.emptied steps = t.advance last here inside steps := by
  induction steps generalizing here inside with
  | nil => rfl
  | cons step rest ih =>
    rw [advance, advance, node?_emptied, subtree_emptied, subtree_emptied, ih, ih]
    cases inside.node? [step] with
    | none => rfl
    | some node =>
      cases node with
      | directory => simp only [Option.map_some, Node.emptied_directory, ih]
      | file content => rfl
      | link target => rfl

theorem walk_emptied (t : Tree) (last : LastStep) (k : Nat) (here : Place) (steps : List String) :
    t.emptied.walk last k here steps = t.walk last k here steps := by
  induction k using Nat.strongRecOn generalizing here steps with
  | ind k ih =>
    have hdir : t.emptied.isDirectory here = t.isDirectory here := by
      unfold isDirectory
      rw [node?_emptied]
      rcases t.node? here with _ | (_ | _ | _) <;> rfl
    have hadvance : t.emptied.advanceFrom last here steps = t.advanceFrom last here steps := by
      rw [advanceFrom, advanceFrom, hdir, subtree_emptied, advance_emptied]
    rw [walk.eq_def, walk.eq_def t, hadvance]
    cases t.advanceFrom last here steps with
    | landed | refused => rfl
    | linked place target rest =>
      cases k with
      | zero => rfl
      | succ k => exact ih k (Nat.lt_succ_self k) _ _

/-- Routes lead to the same places in both trees. -/
theorem SameShape.lookUp_eq (h : t.SameShape t') (last : LastStep) (here : Place) (route : Route) :
    t.lookUp last here route = t'.lookUp last here route := by
  rw [lookUp, lookUp, ← walk_emptied, h, walk_emptied]

/-! ## Writing a file -/

/-- Writing a file that is there leaves the shape of a tree alone. -/
theorem sameShape_put (ht : t.WellFormed) (hfile : t.node? place = some (.file content))
    (written : ByteArray) : t.SameShape (t.put place (.file written)) := by
  have hne : place ≠ [] := by
    rintro rfl
    simp at hfile
  have hmem := (ht.node?_eq_some_iff hne).mp hfile
  have hthere : t.entries.any (·.1 == place) = true :=
    List.any_eq_true.mpr ⟨_, hmem, by simp⟩
  unfold SameShape put
  rw [if_pos hthere]
  unfold emptied
  rw [List.map_map]
  congr 1
  refine List.map_congr_left fun e he => ?_
  rw [Function.comp_apply]
  split
  · rename_i hplace
    have hnode := ht.node?_of_mem he
    rw [beq_iff_eq.mp hplace, hfile] at hnode
    rw [beq_iff_eq.mp hplace, ← Option.some.inj hnode]
    rfl
  · rfl

/-- A file that is written holds what is written. -/
theorem node?_put_self (hfile : t.node? place = some (.file content)) :
    (t.put place node).node? place = some node := by
  have hne : place ≠ [] := by
    rintro rfl
    simp at hfile
  rw [node?_of_ne_nil hne] at hfile ⊢
  have hthere : t.entries.any (·.1 == place) = true := by
    obtain ⟨front, back, hentries, -⟩ := List.lookup_eq_some_iff.mp hfile
    simp [hentries]
  unfold put
  rw [if_pos hthere]
  generalize t.entries = entries at hfile
  induction entries with
  | nil => cases hfile
  | cons e rest ih =>
    rw [List.map_cons]
    by_cases he : e.1 = place
    · simp [he]
    · have hother : (place == e.1) = false := beq_false_of_ne (Ne.symm he)
      rw [List.lookup_cons, hother] at hfile
      rw [if_neg (by simpa using he), List.lookup_cons, hother]
      exact ih hfile

/-- Writing a file leaves what is elsewhere alone. -/
theorem node?_put_of_ne {other : Place} (h : other ≠ place) :
    (t.put place node).node? other = t.node? other := by
  have hne : (other == place) = false := beq_false_of_ne h
  have hlookup : ∀ entries : List (Place × Node),
      (entries.map fun e => if e.1 == place then (place, node) else e).lookup other =
        entries.lookup other := by
    intro entries
    induction entries with
    | nil => rfl
    | cons e rest ih =>
      rw [List.map_cons, List.lookup_cons, List.lookup_cons, ih]
      by_cases he : e.1 = place
      · simp [he, hne]
      · simp [he]
  unfold put node?
  split
  · rfl
  split
  · exact hlookup t.entries
  · simp [List.lookup_append, List.lookup_cons, hne]

/-! ## Files that are read and written -/

/-- A walk that ends at a file ends there as well when it is made to write the file. -/
theorem walk_make_of_follow (ht : t.WellFormed) (hhere : t.isDirectory here = true) {k : Nat}
    {steps : List String} (hfile : t.node? place = some (.file content))
    (h : t.walk .follow k here steps = .ok (.entry place)) :
    t.walk .make k here steps = .ok (.entry place) :=
  (arrives_of_walk ht hhere h).walk_eq ht hhere (by decide) fun _ => by simp [isDirectory, hfile]

/-- A file that can be read is found where it is written. -/
theorem writePlace_of_content (ht : t.WellFormed) {route : Route}
    (h : t.content here route = .ok content) :
    ∃ place, t.lookUp .follow here route = .ok (.entry place) ∧
      t.node? place = some (.file content) ∧ t.writePlace here route = .ok place := by
  obtain ⟨landing, hlookUp, h⟩ := exists_of_bind_eq_ok h
  split at h
  · cases h
  rename_i place
  split at h
  · rename_i content' hfile
    cases h
    refine ⟨place, hlookUp, hfile, ?_⟩
    unfold lookUp at hlookUp
    split at hlookUp
    · cases hlookUp
    rename_i hlong
    have hmake := walk_make_of_follow ht (isDirectory_of_walk hlookUp) hfile hlookUp
    rw [writePlace, lookUp, if_neg hlong, hmake]
    simp [bind, Except.bind, isDirectory, hfile]
  · cases h

end Tree

end Recase
