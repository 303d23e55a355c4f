import Recase.Execute
import Recase.Proofs.Rename

/-!
# Moves within a directory

What a plain move does that gives an entry another name in its directory.

* `directMove_cases`: the ways in which a plain move goes. `directMove_eq_of_some`: one that fails
  changes nothing.
* `directMove_eq_ok`: what a move that succeeds has done. `directMove_of_free`: a move that does.
  `directMove_of_isTooLong`: one that is refused.
* `directMove_eq_failure`: why a move fails whose source is there;
  `hasEntry_of_directMove`: what one has found that finds something in its way.
-/

namespace Recase

open Name Recase.Tree

variable {d d' : Disk} {root src dst : Path} {front : List String} {parent : Place}
  {x y : String} {node : Node} {m : Move} {failure : Failure}

/-- The ways in which a plain move goes. -/
theorem directMove_cases {failure? : Option Failure} (h : directMove m root d = (d', failure?)) :
    (∃ failure, isBlocked d (root.joinText m.source) (root.joinText m.target) = .error failure ∧
        failure? = some failure) ∨
      isBlocked d (root.joinText m.source) (root.joinText m.target) = .ok true ∧
        failure? = some (directFailure m ("Destination already exists: " ++
          (root.joinText m.target).toString) none) ∨
      isBlocked d (root.joinText m.source) (root.joinText m.target) = .ok false ∧
        (d.rename (root.joinText m.source).route (root.joinText m.target).route = .ok d' ∧
            failure? = none ∨
          d.rename (root.joinText m.source).route (root.joinText m.target).route =
              .error .embeddedNul ∧ failure? = some .embeddedNul ∨
          ∃ errno text, d.rename (root.joinText m.source).route (root.joinText m.target).route =
              .error (.refused errno) ∧
            failure? = some (directFailure m text (some errno.code))) := by
  unfold directMove at h
  dsimp only at h
  split at h <;> rename_i hblocked <;> rw [hblocked]
  · exact .inl ⟨_, rfl, by simpa using (Prod.mk.inj h).2.symm⟩
  · exact .inr (.inl ⟨rfl, (Prod.mk.inj h).2.symm⟩)
  · refine .inr (.inr ⟨rfl, ?_⟩)
    split at h <;> rename_i hrename <;> rw [hrename] <;> obtain ⟨rfl, rfl⟩ := Prod.mk.inj h
    · exact .inl ⟨rfl, rfl⟩
    · exact .inr (.inl ⟨rfl, rfl⟩)
    · exact .inr (.inr ⟨_, _, rfl, rfl⟩)

/-- A plain move that fails changes nothing. -/
theorem directMove_eq_of_some (h : directMove m root d = (d', some failure)) : d' = d := by
  unfold directMove at h
  dsimp only at h
  split at h
  · exact (Prod.mk.inj h).1.symm
  · exact (Prod.mk.inj h).1.symm
  · split at h
    · cases (Prod.mk.inj h).2
    · exact (Prod.mk.inj h).1.symm
    · exact (Prod.mk.inj h).1.symm

/-- A plain move that succeeds finds nothing in its way, and renames. -/
theorem rename_of_directMove (h : directMove m root d = (d', none)) :
    isBlocked d (root.joinText m.source) (root.joinText m.target) = .ok false ∧
      d.rename (root.joinText m.source).route (root.joinText m.target).route = .ok d' := by
  obtain ⟨_, -, hnone⟩ | ⟨-, hnone⟩ | ⟨hblocked, ⟨hrename, -⟩ | ⟨-, hnone⟩ | ⟨_, _, -, hnone⟩⟩ :=
    directMove_cases h
  · cases hnone
  · cases hnone
  · exact ⟨hblocked, hrename⟩
  · cases hnone
  · cases hnone

/-- A path without a NUL can be looked up. -/
theorem find_ne_embeddedNul {route : Route} {last : LastStep} (h : route.hasNul = false) :
    d.find route last ≠ .error .embeddedNul := by
  unfold Disk.find Disk.orFault
  rw [h]
  simp only [Bool.false_eq_true, if_false]
  split <;> simp

theorem isBlocked_ne_error (h : src.route.hasNul = false) (h' : dst.route.hasNul = false) :
    isBlocked d src dst ≠ .error failure := by
  intro hblocked
  unfold isBlocked at hblocked
  split at hblocked
  · cases hblocked
  · split at hblocked
    · cases hblocked
    · rename_i hsame
      unfold Disk.isSameEntry at hsame
      split at hsame
      · rename_i hfind
        exact find_ne_embeddedNul h hfind
      · split at hsame
        · rename_i hfind
          exact find_ne_embeddedNul h' hfind
        · cases hsame
        · cases hsame
      · cases hsame
    · cases hblocked

theorem exists_of_isSameEntry (h : d.isSameEntry src dst = .ok true) :
    ∃ place, d.find src.route .follow = .ok (.entry place) ∧
      d.find dst.route .follow = .ok (.entry place) := by
  unfold Disk.isSameEntry at h
  split at h
  · cases h
  · rename_i place hsrc
    split at h
    · cases h
    · rename_i other hdst
      obtain rfl : place = other := by simpa using h
      exact ⟨place, hsrc, hdst⟩
    · cases h
  · cases h

theorem hasEntry_of_isBlocked (h : isBlocked d src dst = .ok true) :
    d.hasEntry dst.route = true := by
  unfold isBlocked at h
  split at h
  · cases h
  · rename_i hentry
    simpa using hentry

theorem isBlocked_eq_ok_false (h : isBlocked d src dst = .ok false) :
    d.hasEntry dst.route = false ∨ d.isSameEntry src dst = .ok true := by
  unfold isBlocked at h
  split at h
  · rename_i hentry
    exact .inl (by simpa using hentry)
  · split at h
    · rename_i same hsame
      cases same
      · cases h
      · exact .inr hsame
    · cases h
    · cases h

/-- A move that finds something in its way finds an entry at its destination. -/
theorem hasEntry_of_directMove {m' : Move} {stderr : String}
    (h : directMove m root d = (d', some (directFailure m' stderr none))) :
    m = m' ∧ d.hasEntry (root.joinText m.target).route = true := by
  obtain ⟨_, hblocked, hfailure⟩ | ⟨hblocked, hfailure⟩ |
      ⟨-, ⟨-, hnone⟩ | ⟨-, hfailure⟩ | ⟨errno, text, -, hfailure⟩⟩ := directMove_cases h
  · exfalso
    unfold isBlocked at hblocked
    split at hblocked
    · cases hblocked
    · split at hblocked <;> cases hblocked
      simp [directFailure] at hfailure
  · refine ⟨?_, hasEntry_of_isBlocked hblocked⟩
    simp only [directFailure, Option.some.injEq, Failure.moveFailed.injEq, MoveFailure.mk.injEq]
      at hfailure
    exact hfailure.1.symm
  · cases hnone
  · simp [directFailure] at hfailure
  · simp [directFailure] at hfailure

/-- Two entries of a directory, of which the first is no link, are only the same if the second is
one. -/
theorem isLink_of_isSameEntry (henters : d.Enters root front parent) (ht : d.tree.WellFormed)
    (hx : IsName x) (hy : IsName y) (hxy : x ≠ y)
    (hnul : (root.below (front ++ [x])).route.hasNul = false)
    (hnul' : (root.below (front ++ [y])).route.hasNul = false)
    (hshort : (root.below (front ++ [x])).route.isTooLong = false)
    (hshort' : (root.below (front ++ [y])).route.isTooLong = false)
    (hnode : d.tree.node? (parent ++ [x]) = some node) (hlink : ∀ target, node ≠ .link target)
    {other : Node} (hother : d.tree.node? (parent ++ [y]) = some other)
    (h : d.isSameEntry (root.below (front ++ [x])) (root.below (front ++ [y])) = .ok true) :
    ∃ target, other = .link target := by
  by_contra hnone
  obtain ⟨place, hfind, hfind'⟩ := exists_of_isSameEntry h
  rw [henters.find_entry ht hx hnul hshort hnode hlink] at hfind
  rw [henters.find_entry ht hy hnul' hshort' hother fun target he => hnone ⟨target, he⟩] at hfind'
  have hsame := hfind.trans hfind'.symm
  exact hxy (by simpa using hsame)

variable (ht : d.tree.WellFormed) (hx : IsName x) (hy : IsName y) (hxy : x ≠ y)
  (hsrc : root.joinText m.source = root.below (front ++ [x]))
  (hdst : root.joinText m.target = root.below (front ++ [y]))
include ht hx hy hxy hsrc hdst

/-- What a move to another name in a directory has done when it succeeds: it has had a source, and
nothing was there under the new name but a link in place of which a file may go. -/
theorem directMove_eq_ok (h : directMove m root d = (d', none)) :
    ∃ parent node, d.Enters root front parent ∧ d.tree.node? (parent ++ [x]) = some node ∧
      y.utf8ByteSize ≤ nameLimit ∧ d' = d.commit (.moved (parent ++ [x]) (parent ++ [y])) ∧
      (d.tree.node? (parent ++ [y]) = none ∨ (∃ target, node = .link target) ∨
        ∃ content target, node = .file content ∧
          d.tree.node? (parent ++ [y]) = some (.link target)) := by
  obtain ⟨hblocked, hrename⟩ := rename_of_directMove h
  rw [hsrc, hdst] at hblocked hrename
  obtain ⟨hnul, hnul', parent, node, henters, hnode⟩ := Disk.exists_of_rename ht hx hrename
  rw [henters.rename_eq ht hx hy hxy hnul hnul' hnode] at hrename
  split at hrename
  · cases hrename
  rename_i hfits
  simp only [Bool.or_eq_true, decide_eq_true_eq, not_or, Bool.not_eq_true] at hfits
  obtain ⟨⟨hshort, hshort'⟩, hsize⟩ := hfits
  split at hrename
  · cases hrename
  rename_i hreplacing
  refine ⟨parent, node, henters, hnode, by omega, by simpa using hrename.symm, ?_⟩
  by_cases hlink : ∃ target, node = .link target
  · exact .inr (.inl hlink)
  have hlink : ∀ target, node ≠ .link target := fun target he => hlink ⟨target, he⟩
  cases hother : d.tree.node? (parent ++ [y]) with
  | none => exact .inl rfl
  | some other =>
    rcases isBlocked_eq_ok_false hblocked with hentry | hsame
    · rw [← Bool.not_eq_true, henters.hasEntry_eq ht hy hnul' hshort'] at hentry
      exact absurd ⟨by omega, by simp [hother]⟩ hentry
    · obtain ⟨target, rfl⟩ := isLink_of_isSameEntry henters ht hx hy hxy hnul hnul' hshort hshort'
        hnode hlink hother hsame
      cases node with
      | directory => simp [replacing, hother] at hreplacing
      | file content => exact .inr (.inr ⟨content, target, rfl, rfl⟩)
      | link target => exact absurd rfl (hlink target)

/-- A move to a name that nothing in the directory has succeeds, if the texts and the name are not
too long. -/
theorem directMove_of_free (henters : d.Enters root front parent)
    (hnul : (root.below (front ++ [x])).route.hasNul = false)
    (hnul' : (root.below (front ++ [y])).route.hasNul = false)
    (hshort : (root.below (front ++ [x])).route.isTooLong = false)
    (hshort' : (root.below (front ++ [y])).route.isTooLong = false)
    (hsize : y.utf8ByteSize ≤ nameLimit) (hnode : d.tree.node? (parent ++ [x]) = some node)
    (hfree : d.tree.node? (parent ++ [y]) = none) :
    directMove m root d = (d.commit (.moved (parent ++ [x]) (parent ++ [y])), none) := by
  have hentry : d.hasEntry (root.below (front ++ [y])).route = false := by
    rw [← Bool.not_eq_true, henters.hasEntry_eq ht hy hnul' hshort']
    exact fun hthere => hthere.2 hfree
  have hblocked :
      isBlocked d (root.below (front ++ [x])) (root.below (front ++ [y])) = .ok false := by
    rw [isBlocked, hentry]
    rfl
  have hrename := henters.rename_eq ht hx hy hxy hnul hnul' hnode
  rw [hshort, hshort', replacing_of_free node hfree,
    decide_eq_false (Nat.not_lt.mpr hsize)] at hrename
  unfold directMove
  simp only [hsrc, hdst, hblocked, hrename, Bool.or_self, Bool.false_eq_true, if_false]

/-- A move to another name in a directory is refused if the text of its new path is too long. -/
theorem directMove_of_isTooLong (henters : d.Enters root front parent)
    (hnul : (root.below (front ++ [x])).route.hasNul = false)
    (hnul' : (root.below (front ++ [y])).route.hasNul = false)
    (hnode : d.tree.node? (parent ++ [x]) = some node)
    (hlong : (root.below (front ++ [y])).route.isTooLong = true) :
    ∃ f, directMove m root d = (d, some (.moveFailed f)) ∧ f.move = m ∧
      f.exitCode = some (Errno.nameTooLong.code : Int) := by
  have hblocked :
      isBlocked d (root.below (front ++ [x])) (root.below (front ++ [y])) = .ok false := by
    rw [isBlocked, Disk.hasEntry_eq_false_of (.inr hlong)]
    rfl
  have hrename := henters.rename_eq ht hx hy hxy hnul hnul' hnode
  rw [hlong, Bool.or_true, Bool.true_or, if_pos rfl] at hrename
  unfold directMove
  simp only [hsrc, hdst, hblocked, hrename]
  exact ⟨_, rfl, rfl, rfl⟩

/-- Why a move to another name in a directory fails whose source is there: a text or the new name is
too long, or something has the new name. Its source is not missing. -/
theorem directMove_eq_failure (henters : d.Enters root front parent)
    (hnul : (root.below (front ++ [x])).route.hasNul = false)
    (hnul' : (root.below (front ++ [y])).route.hasNul = false)
    (hnode : d.tree.node? (parent ++ [x]) = some node)
    (h : directMove m root d = (d', some failure)) :
    ∃ f, failure = .moveFailed f ∧ f.move = m ∧ f.exitCode ≠ some (Errno.noEntry.code : Int) ∧
      ((root.below (front ++ [x])).route.isTooLong = true ∨
        (root.below (front ++ [y])).route.isTooLong = true ∨
        nameLimit < y.utf8ByteSize ∨ d.tree.node? (parent ++ [y]) ≠ none) := by
  have hsame := henters.rename_eq ht hx hy hxy hnul hnul' hnode
  obtain ⟨_, hblocked, -⟩ | ⟨hblocked, hfailure⟩ |
      ⟨-, ⟨-, hnone⟩ | ⟨hrename, -⟩ | ⟨errno, text, hrename, hfailure⟩⟩ := directMove_cases h
  · rw [hsrc, hdst] at hblocked
    exact absurd hblocked (isBlocked_ne_error hnul hnul')
  · obtain rfl := Option.some.inj hfailure
    refine ⟨_, rfl, rfl, by simp, ?_⟩
    rw [hdst] at hblocked
    have hentry := hasEntry_of_isBlocked hblocked
    by_cases hlong : (root.below (front ++ [y])).route.isTooLong = true
    · exact .inr (.inl hlong)
    · rw [Bool.not_eq_true] at hlong
      exact .inr (.inr (.inr ((henters.hasEntry_eq ht hy hnul' hlong).mp hentry).2))
  · cases hnone
  · rw [hsrc, hdst, hsame] at hrename
    split at hrename
    · cases hrename
    · split at hrename <;> cases hrename
  · obtain rfl := Option.some.inj hfailure
    rw [hsrc, hdst, hsame] at hrename
    split at hrename
    · rename_i hlong
      cases hrename
      refine ⟨_, rfl, rfl, by simp [Errno.code], ?_⟩
      simp only [Bool.or_eq_true, decide_eq_true_eq] at hlong
      rcases hlong with (hlong | hlong) | hlong
      · exact .inl hlong
      · exact .inr (.inl hlong)
      · exact .inr (.inr (.inl hlong))
    · split at hrename
      · rename_i errno' hreplacing
        cases hrename
        obtain ⟨hother, herrno⟩ := replacing_eq_error hreplacing
        refine ⟨_, rfl, rfl, ?_, .inr (.inr (.inr hother))⟩
        rcases herrno with rfl | rfl | rfl <;> simp [Errno.code]
      · cases hrename

end Recase
