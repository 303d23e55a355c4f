import Recase.Proofs.Disk
import Recase.Proofs.Tree.Shape

/-!
# What is there can be settled

A path at which something is stands for a place, whether a directory is there or a file.

* `Tree.Arrives.put_directory`, `Tree.settle_put_directory`: steps end at the same place, and paths
  are settled alike, if there is a directory instead of a file at their end.
* `Disk.exists_resolve`: so what is known of the paths of directories holds of all at which
  something is.
-/

namespace Recase

namespace Tree

variable {t : Tree} {here place : Place} {content : ByteArray}

section

variable (hfile : t.node? place = some (.file content))
include hfile

theorem ne_nil_of_file : place ≠ [] := by
  rintro rfl
  simp at hfile

/-- The entries of a tree with a directory instead of a file. -/
theorem entries_put_directory :
    (t.put place .directory).entries =
      t.entries.map fun e => if e.1 == place then (place, .directory) else e := by
  have hlookup := hfile
  rw [node?_of_ne_nil (ne_nil_of_file hfile)] at hlookup
  obtain ⟨front, back, hentries, -⟩ := List.lookup_eq_some_iff.mp hlookup
  have hthere : t.entries.any (·.1 == place) = true := by simp [hentries]
  rw [put, if_pos hthere]

theorem isDirectory_put_directory {other : Place} (h : t.isDirectory other = true) :
    (t.put place .directory).isDirectory other = true := by
  rw [isDirectory_iff] at h ⊢
  by_cases heq : other = place
  · rw [heq, node?_put_self hfile]
  · rw [node?_put_of_ne heq, h]

theorem WellFormed.put_directory (ht : t.WellFormed) : (t.put place .directory).WellFormed := by
  have hplaces : ∀ e ∈ (t.put place .directory).entries, ∃ e' ∈ t.entries, e'.1 = e.1 := by
    rw [entries_put_directory hfile]
    rintro e he
    obtain ⟨e', he', rfl⟩ := List.mem_map.mp he
    refine ⟨e', he', ?_⟩
    split
    · exact beq_iff_eq.mp ‹_›
    · rfl
  refine ⟨?_, fun e he => ?_, fun e he => ?_, fun e he => ?_⟩
  · have hsame : (t.put place .directory).entries.map (·.1) = t.entries.map (·.1) := by
      rw [entries_put_directory hfile, List.map_map]
      refine List.map_congr_left fun e _ => ?_
      rw [Function.comp_apply]
      split
      · exact (beq_iff_eq.mp ‹_›).symm
      · rfl
    rw [hsame]
    exact ht.nodup
  all_goals
    obtain ⟨e', he', hplace⟩ := hplaces e he
    rw [← hplace]
  · exact ht.ne_top e' he'
  · exact isDirectory_put_directory hfile (ht.parent e' he')
  · exact ht.names e' he'

/-- Steps that end at a file end there as well if it is a directory. -/
theorem Arrives.put_directory {k : Nat} {steps : List String} (h : t.Arrives k here steps place) :
    (t.put place .directory).Arrives k here steps place := by
  induction h with
  | stop => exact .stop
  | skip hstep _ ih => exact .skip hstep (ih hfile)
  | up _ ih => exact .up (ih hfile)
  | down hname hnode _ ih =>
    refine .down hname ?_ (ih hfile)
    rw [node?_put_of_ne, hnode]
    rintro rfl
    cases hfile.symm.trans hnode
  | file hname => exact .down hname (node?_put_self hfile) .stop
  | link hname hnode _ ih =>
    refine .link hname ?_ (ih hfile)
    rw [node?_put_of_ne, hnode]
    rintro rfl
    cases hfile.symm.trans hnode

theorem settleWith_put_directory
    {enter : SettledLinks → Path → String → Except String (Path × SettledLinks)}
    (known : SettledLinks)
    (sofar : Path) (steps : List String) :
    (t.put place .directory).settleWith here enter known sofar steps =
      t.settleWith here enter known sofar steps := by
  induction steps generalizing known sofar with
  | nil => rfl
  | cons step rest ih =>
    rw [settleWith, settleWith, ih, ih]
    by_cases hend : (sofar.child step).placeFrom here = place
    · simp only [hend, hfile, node?_put_self hfile, ih]
    · simp only [node?_put_of_ne hend, ih]

theorem settleWithin_put_directory (entered : List Path) (depth : Nat) (known : SettledLinks)
    (sofar : Path) (text : String) :
    (t.put place .directory).settleWithin here entered depth known sofar text =
      t.settleWithin here entered depth known sofar text := by
  induction depth generalizing entered known sofar text with
  | zero => rw [settleWithin, settleWithin, settleWith_put_directory hfile]
  | succ depth ih =>
    rw [settleWithin, settleWithin, settleWith_put_directory hfile]
    simp only [ih]

/-- Only links matter when a path is settled. -/
theorem settle_put_directory (text : String) :
    (t.put place .directory).settle here text = t.settle here text := by
  have hdepth : (t.put place .directory).settleDepth here = t.settleDepth here := by
    rw [settleDepth, settleDepth, entries_put_directory hfile, List.length_map]
  rw [settle, settle, hdepth, settleWithin_put_directory hfile]

end

end Tree

namespace Disk

open Recase.Tree

variable {d : Disk} {path : Path}

/-- A path at which something is stands for a place. -/
theorem exists_resolve (ht : d.tree.WellFormed) (hpath : path.IsNormal)
    (h : d.isPresent path = .ok true) :
    ∃ place, d.resolve path = .ok ⟨.absolute, place⟩ := by
  obtain ⟨place, hfind⟩ : ∃ place, d.find path.route .follow = .ok (.entry place) := by
    unfold isPresent holdsAt at h
    split at h
    · exact ⟨_, by assumption⟩
    · cases h
    · cases h
    · split at h <;> cases h
  obtain ⟨hnul, hshort, hwalk⟩ := find_eq_ok_iff.mp hfind
  have hstart := isDirectory_of_walk hwalk
  have harrives := arrives_of_walk ht hstart hwalk
  obtain hdir | ⟨content, hfile⟩ := harrives.isDirectory_or_file ht hstart
  · exact ⟨place,
      resolve_of_directoryAt? ht hpath (directoryAt?_eq_some_iff.mpr ⟨hnul, hshort, hwalk, hdir⟩)⟩
  -- with a directory there the path would be settled at its place
  have hdir : (d.tree.put place .directory).isDirectory place = true :=
    isDirectory_iff.mpr (node?_put_self hfile)
  have ht' := ht.put_directory hfile
  have hwalk' : (d.tree.put place .directory).walk .follow linkLimit
      (path.route.startAt d.here) path.route.steps = .ok (.entry place) :=
    (harrives.put_directory hfile).walk_eq ht' (isDirectory_put_directory hfile hstart)
      (by decide) (by simp)
  obtain ⟨-, n, -, hleads⟩ :=
    leads_of_directoryAt? (d := { d with tree := d.tree.put place .directory }) ht'
      (directoryAt?_eq_some_iff.mpr ⟨hnul, hshort, hwalk', hdir⟩)
  have hsettle := settle_leads ht' hpath hleads
  rw [settle_put_directory hfile] at hsettle
  exact ⟨place, by rw [resolve, hnul, hsettle]; rfl⟩

end Disk

end Recase
