import Recase.Proofs.Scan
import Recase.Proofs.Tree.Shape
import Recase.Source.Update

/-!
# What updating source files leaves alone

* `Disk.SameShape`: two disks of which one is the other but for what files hold. Routes lead to the
  same places on both (`SameShape.find_eq`), the same entries are retained
  (`SameShape.retains_iff`), and the same roots are kept (`SameShape.outermostRoots_eq`).
* `Source.updateFile_cases`: a file that is updated is written where it was read, if at all.
* `Source.updateFiles_sameShape`: updating files changes nothing else. `Source.updateFiles_becomes`:
  what is written are files to which the paths lead.
-/

namespace Recase

open Recase.Tree

/-- The program stands at one place on both disks, and one tree is the other but for what its files
hold. -/
structure Disk.SameShape (d d' : Disk) : Prop where
  here : d.here = d'.here
  tree : d.tree.SameShape d'.tree

variable {d d' d'' : Disk} {path : Path} {place : Place} {ignored : List String} {e : Retained}

theorem Node.kind?_eq_of_emptied {node node' : Node} (h : node'.emptied = node.emptied) :
    node'.kind? = node.kind? := by
  cases node <;> cases node' <;> simp at h <;> rfl

namespace Disk.SameShape

protected theorem refl (d : Disk) : d.SameShape d := ⟨rfl, .refl _⟩

protected theorem symm (h : d.SameShape d') : d'.SameShape d := ⟨h.here.symm, h.tree.symm⟩

protected theorem trans (h : d.SameShape d') (h' : d'.SameShape d'') : d.SameShape d'' :=
  ⟨h.here.trans h'.here, h.tree.trans h'.tree⟩

/-- Routes lead to the same places. -/
theorem find_eq (h : d.SameShape d') (route : Route) (last : LastStep) :
    d.find route last = d'.find route last := by
  rw [find, find, h.tree.lookUp_eq, h.here]

/-- The same directories are found at paths. -/
theorem directoryAt?_eq (h : d.SameShape d') (hplace : d.directoryAt? path = some place) :
    d'.directoryAt? path = some place := by
  unfold directoryAt? at hplace ⊢
  rw [← h.find_eq]
  split at hplace
  · split at hplace
    · rename_i hdir
      rw [if_pos (h.tree.isDirectory_eq hdir)]
      exact hplace
    · cases hplace
  · cases hplace

theorem retains (h : d.SameShape d') (he : d.Retains ignored e) : d'.Retains ignored e := by
  obtain ⟨node, hnode, hkind⟩ := he.node
  obtain ⟨node', hnode', hsame⟩ := h.tree.exists_of_node? hnode
  refine ⟨h.directoryAt?_eq he.top, ⟨node', hnode', ?_⟩, he.visible⟩
  rw [Node.kind?_eq_of_emptied hsame, hkind]

/-- The same entries are retained. -/
theorem retains_iff (h : d.SameShape d') : d.Retains ignored e ↔ d'.Retains ignored e :=
  ⟨h.retains, h.symm.retains⟩

/-- The same roots are kept. -/
theorem outermostRoots_eq (h : d.SameShape d') (ht : d.tree.WellFormed) {kept : List Path}
    (hnormal : ∀ path ∈ kept, path.IsNormal)
    (hkept : outermostRoots d (kept.map .ofPath) = .ok kept) :
    outermostRoots d' (kept.map .ofPath) = .ok kept := by
  have hnormal' : ∀ r ∈ kept.map Root.ofPath, r.path.IsNormal := by
    simpa [Root.ofPath] using hnormal
  have hplaces : ∀ path ∈ kept, d.directoryAt? path = some (d.topAt path) :=
    fun path hpath => directoryAt?_of_mem_outermostRoots ht hnormal' hkept hpath
  have hplaces' : ∀ path ∈ kept, d'.directoryAt? path = some (d.topAt path) :=
    fun path hpath => h.directoryAt?_eq (hplaces path hpath)
  refine outermostRoots_of_topAt (h.tree.wellFormed ht) hnormal
    (fun path hpath => ⟨_, hplaces' path hpath⟩)
      (fun path hpath => topAt_eq (hplaces' path hpath)) ?_
  exact areApart_of_outermostRoots ht hnormal' hkept

end Disk.SameShape

/-- A file that is read is found, and written there. -/
theorem Disk.find_of_read (ht : d.tree.WellFormed) {content : ByteArray}
    (hread : d.read path = .ok content) :
    ∃ place, d.find path.route .follow = .ok (.entry place) ∧
      d.tree.node? place = some (.file content) ∧
      ∀ written, d.write path written = .ok (d.commit (.wrote place written)) := by
  unfold Disk.read at hread
  split at hread
  · cases hread
  rename_i hnul
  unfold Disk.orFault at hread
  split at hread <;> cases hread
  rename_i hcontent
  obtain ⟨place, hlookUp, hfile, hplace⟩ := writePlace_of_content ht hcontent
  refine ⟨place, ?_, hfile, fun written => ?_⟩
  · rw [Disk.find, if_neg hnul, hlookUp]
    rfl
  · rw [Disk.write, if_neg hnul, hplace]

/-- A file that is found is read. -/
theorem Disk.read_of_find {content : ByteArray}
    (hfind : d.find path.route .follow = .ok (.entry place))
    (hfile : d.tree.node? place = some (.file content)) : d.read path = .ok content := by
  obtain ⟨hnul, hshort, hwalk⟩ := find_eq_ok_iff.mp hfind
  rw [Disk.read, hnul, Tree.content, lookUp, hshort, hwalk]
  simp [bind, Except.bind, hfile, orFault]

/-- What is read at a path is what a file holds to which it leads. -/
theorem Disk.read_eq_ok_iff (ht : d.tree.WellFormed) {content : ByteArray} :
    d.read path = .ok content ↔ ∃ place, d.find path.route .follow = .ok (.entry place) ∧
    d.tree.node? place = some (.file content) := by
  refine ⟨fun hread => ?_, fun ⟨place, hfind, hfile⟩ => read_of_find hfind hfile⟩
  obtain ⟨place, hfind, hfile, -⟩ := find_of_read ht hread
  exact ⟨place, hfind, hfile⟩

namespace Source

variable {w : World}

/-- One file that is updated is written where its path leads to it, if at all. -/
theorem updateFile_cases (ht : w.disk.tree.WellFormed) (path : Path) :
    (updateFile w path).2 = w ∨ ∃ place content written,
      w.disk.find path.route .follow = .ok (.entry place) ∧
        w.disk.tree.node? place = some (.file content) ∧
        (updateFile w path).2 = { w with disk := w.disk.commit (.wrote place written) } := by
  unfold updateFile
  split
  · exact .inl rfl
  split
  · exact .inl rfl
  · exact .inl rfl
  rename_i content hread
  split
  · exact .inl rfl
  dsimp only
  split
  · exact .inl rfl
  unfold writeBack
  split
  · exact .inl rfl
  split
  · rename_i disk hwrite
    obtain ⟨place, hfind, hfile, hwritten⟩ := Disk.find_of_read ht hread
    rw [hwritten] at hwrite
    cases hwrite
    exact .inr ⟨place, content, _, hfind, hfile, rfl⟩
  · exact .inl rfl
  · exact .inl rfl

/-- One file that is updated changes in nothing but what it holds, if at all. -/
theorem updateFile_sameShape (ht : w.disk.tree.WellFormed) (path : Path) :
    w.disk.SameShape (updateFile w path).2.disk ∧
      (updateFile w path).2 = { w with disk := (updateFile w path).2.disk } := by
  obtain hsame | ⟨place, content, written, -, hfile, hwritten⟩ := updateFile_cases ht path
  · rw [hsame]
    exact ⟨.refl _, rfl⟩
  · rw [hwritten]
    exact ⟨⟨rfl, sameShape_put ht hfile written⟩, rfl⟩

theorem world_updateFiles_cons (w : World) (path : Path) (rest : List Path) :
    (updateFiles w (path :: rest)).2 = (updateFiles (updateFile w path).2 rest).2 := rfl

/-- Files that are updated change in nothing but what they hold. -/
theorem updateFiles_sameShape (ht : w.disk.tree.WellFormed) (files : List Path) :
    w.disk.SameShape (updateFiles w files).2.disk ∧
      (updateFiles w files).2 = { w with disk := (updateFiles w files).2.disk } := by
  induction files generalizing w with
  | nil => exact ⟨.refl _, rfl⟩
  | cons path rest ih =>
    obtain ⟨hshape, hworld⟩ := updateFile_sameShape ht path
    obtain ⟨hshape', hworld'⟩ := ih (hshape.tree.wellFormed ht)
    rw [world_updateFiles_cons]
    refine ⟨hshape.trans hshape', ?_⟩
    rw [hworld', hworld]

/-- Nothing is changed but files that are written, each where one of the paths leads. -/
theorem updateFiles_becomes (ht : w.disk.tree.WellFormed) (files : List Path) :
    ∃ made, w.disk.Becomes made (updateFiles w files).2.disk ∧ ∀ change ∈ made, ∃ path ∈ files,
      ∃ place written, w.disk.find path.route .follow = .ok (.entry place) ∧
        change = .wrote place written := by
  induction files generalizing w with
  | nil => exact ⟨[], .refl _, by simp⟩
  | cons path rest ih =>
    have hshape := (updateFile_sameShape ht path).1
    obtain ⟨made, hmade, hplaces⟩ := ih (hshape.tree.wellFormed ht)
    have hrest : ∀ change ∈ made, ∃ other ∈ path :: rest, ∃ place written,
        w.disk.find other.route .follow = .ok (.entry place) ∧ change = .wrote place written := by
      intro change hchange
      obtain ⟨other, hother, place, written, hfind, hwrote⟩ := hplaces change hchange
      exact ⟨other, List.mem_cons_of_mem _ hother, place, written, (hshape.find_eq _ _).trans hfind,
        hwrote⟩
    rw [world_updateFiles_cons]
    obtain hsame | ⟨place, content, written, hfind, -, hwritten⟩ := updateFile_cases ht path
    · rw [hsame] at hmade
      exact ⟨made, by rwa [hsame], hrest⟩
    · refine ⟨.wrote place written :: made, ?_, fun change hchange => ?_⟩
      · have hfirst := Disk.becomes_commit w.disk (.wrote place written)
        rw [hwritten] at hmade ⊢
        exact hfirst.trans hmade
      · rcases List.mem_cons.mp hchange with rfl | hchange
        · exact ⟨path, List.mem_cons_self, place, written, hfind, rfl⟩
        · exact hrest change hchange

end Source

end Recase
