import Recase.Disk
import Recase.Proofs.Tree.Settle

/-!
# Directories on the disk, and its changes

* `placeAfterAll`: where changes leave what was at a place; `Disk.Becomes`: the disk that they make
  of a disk.
* `Disk.directoryAt?_eq_some_iff`: what is found at the path of a directory;
  `Disk.leads_of_directoryAt?`: the steps of the path lead there.
* `Disk.resolve_of_directoryAt?`: the path of a directory stands for its place.
-/

namespace Recase

/-- Where changes leave what was at a place. -/
def placeAfterAll (changes : List Change) (place : Place) : Place :=
  changes.foldl (fun place change => change.placeAfter place) place

theorem placeAfterAll_append (made more : List Change) (place : Place) :
    placeAfterAll (made ++ more) place = placeAfterAll more (placeAfterAll made place) :=
  List.foldl_append

/-- The disk that changes make of a disk. -/
structure Disk.Becomes (d : Disk) (made : List Change) (d' : Disk) : Prop where
  tree : d'.tree = made.foldl Tree.apply d.tree
  here : d'.here = placeAfterAll made d.here
  changes : d'.changes = d.changes ++ made

namespace Disk

open Recase.Tree

protected theorem Becomes.refl (d : Disk) : d.Becomes [] d := ⟨rfl, rfl, by simp⟩

theorem becomes_commit (d : Disk) (change : Change) : d.Becomes [change] (d.commit change) :=
  ⟨rfl, rfl, rfl⟩

protected theorem Becomes.trans {d d' d'' : Disk} {made more : List Change} (h : d.Becomes made d')
    (h' : d'.Becomes more d'') : d.Becomes (made ++ more) d'' := by
  refine ⟨?_, ?_, ?_⟩
  · rw [h'.tree, h.tree, List.foldl_append]
  · rw [h'.here, h.here, placeAfterAll_append]
  · rw [h'.changes, h.changes, List.append_assoc]

variable {d : Disk} {path : Path} {place : Place}

/-- Something is found by a route without a NUL, if it is not too long, where its steps lead. -/
theorem find_eq_ok_iff {route : Route} {last : LastStep} {landing : Landing} :
    d.find route last = .ok landing ↔
      route.hasNul = false ∧ route.isTooLong = false ∧
        d.tree.walk last linkLimit (route.startAt d.here) route.steps = .ok landing := by
  unfold find lookUp
  cases route.hasNul with
  | true => simp
  | false =>
    cases route.isTooLong with
    | true => simp [orFault]
    | false =>
      cases d.tree.walk last linkLimit (route.startAt d.here) route.steps <;> simp [orFault]

/-- What is found at the path of a directory. -/
theorem directoryAt?_eq_some_iff :
    d.directoryAt? path = some place ↔
      path.route.hasNul = false ∧ path.route.isTooLong = false ∧
        d.tree.walk .follow linkLimit (path.route.startAt d.here) path.route.steps =
            .ok (.entry place) ∧
        d.tree.isDirectory place = true := by
  have hfind : d.directoryAt? path = some place ↔
      d.find path.route .follow = .ok (.entry place) ∧ d.tree.isDirectory place = true := by
    unfold directoryAt?
    constructor
    · intro h
      split at h
      · rename_i found hfound
        split at h
        · cases h
          exact ⟨hfound, by assumption⟩
        · cases h
      · cases h
    · rintro ⟨hfound, hdir⟩
      rw [hfound]
      exact if_pos hdir
  rw [hfind, find_eq_ok_iff, and_assoc, and_assoc]

theorem steps_route (path : Path) : path.route.steps = path.route.names := rfl

/-- The steps of a path lead to the directory that it names. -/
theorem leads_of_directoryAt? (ht : d.tree.WellFormed) (h : d.directoryAt? path = some place) :
    d.tree.isDirectory (path.route.startAt d.here) = true ∧ ∃ n ≤ linkLimit,
      d.tree.Leads n (path.route.startAt d.here) path.route.names place := by
  obtain ⟨-, -, hwalk, hdir⟩ := directoryAt?_eq_some_iff.mp h
  have hstart := isDirectory_of_walk hwalk
  rw [steps_route, ← List.append_nil path.route.names] at hwalk
  obtain ⟨n, other, hn, hleads, hother, hend⟩ :=
    walk_append ht hstart (by decide) (fun _ => ⟨place, rfl, hdir⟩) hwalk
  rw [walk_nil hother] at hend
  cases hend
  exact ⟨hstart, n, hn, hleads⟩

/-- The path of a directory stands for its place. -/
theorem resolve_of_directoryAt? (ht : d.tree.WellFormed) (hpath : path.IsNormal)
    (h : d.directoryAt? path = some place) : d.resolve path = .ok ⟨.absolute, place⟩ := by
  obtain ⟨hnul, -⟩ := directoryAt?_eq_some_iff.mp h
  obtain ⟨-, n, -, hleads⟩ := leads_of_directoryAt? ht h
  rw [resolve, hnul, settle_leads ht hpath hleads]
  rfl

end Disk

end Recase
