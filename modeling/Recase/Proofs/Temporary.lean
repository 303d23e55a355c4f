import Recase.Proofs.Interrupted
import Recase.Proofs.Occupied

/-!
# Temporary names in use

A temporary name is looked up when the plan is made. When its pair of moves comes, the moves before
it have given other entries their names, and one of them may be the temporary name.

* `Retained.IsPair`: a pair of moves is the turn of an entry, after those of others.
* `Retained.IsOvertaken`: an entry in the same directory gets the temporary name before.
* `isOvertaken_or_isUnseen`: nothing else has the temporary name then, but for what the plan has not
  seen. `isOvertaken_occupied`: an entry that is overtaken finds it in the way.
* `occupied_temporary`: both for the plan of a preview. `execute_overtaken`: a plan without
  conflicts whose pair is overtaken.
-/

namespace Recase

open Name Naming Recase.Tree

namespace Retained

/-- A pair of moves is the turn of an entry that takes it over a temporary name, once others have
had theirs. -/
structure IsPair (d : Disk) (token : Nat → String) (ignored : List String) (kept : List Path)
    (before : List Move) (first second : Move) (front : List Retained) (e : Retained)
    (temporary : String) :
    Prop where
  order : ∃ back, inOrder (retained d ignored kept) = front ++ e :: back
  turns : Turns (fun path => d.hasEntry path.route) token front before
  isTemporaryOf : IsTemporaryOf token e.newName temporary
  first : first = e.leg e.name temporary true
  second : second = e.leg temporary e.newName true

/-- Of the entries that have had their turn, one in the same directory has got the temporary
name. -/
def IsOvertaken (front : List Retained) (e : Retained) (temporary : String) : Prop :=
  ∃ r ∈ front, r.IsSiblingOf e ∧ r.newName = temporary

/-- The temporary name was taken when the plan was made, which the plan has not seen, for the text
of its path is too long. -/
structure IsUnseen (d : Disk) (e : Retained) (temporary : String) : Prop where
  untokened : temporary = e.newName ++ temporarySuffix
  taken : d.tree.node? (e.directory ++ [temporary]) ≠ none
  isTooLong : e.item.temporarySite.route.isTooLong = true

end Retained

/-! ## When the turn of the pair comes -/

section Moment

variable {d₀ d : Disk} {ignored : List String} {kept : List Path} {front back : List Retained}
  {e : Retained} {temporary : String} {gone : List Place} {token : Nat → String}
  (h : d₀.HasRoots kept)
  (horder : Retained.inOrder (retained d₀ ignored kept) = front ++ e :: back)
  (htakes : e.Takes (fun path => d₀.hasEntry path.route) token e.name temporary)
  (hs : d₀.Stage (namesAfter front) gone d)
include h horder htakes hs

/-- What has the temporary name of an entry when its turn comes has got it there, or has not been
seen. -/
theorem isOvertaken_or_isUnseen (htemporary : IsTemporaryOf token e.newName temporary)
    (hfree : temporary = e.newName ++ temporarySuffix →
      d₀.hasEntry e.item.temporarySite.route = false)
    (hfresh : ∀ above name n,
      d₀.tree.node? (above ++ [name ++ temporarySuffix ++ "-" ++ token n]) = none)
    (hthere : d.hasEntry (e.root.below (e.newAbove ++ [temporary])).route = true) :
    Retained.IsOvertaken front e temporary ∨ e.IsUnseen d₀ temporary := by
  have ht := h.wellFormed
  have hdue := isDue_of_inOrder h horder
  have hown : Function.update (namesAfter front) e.place e.name = namesAfter front := by
    rw [← namesAfter_of_inOrder h horder, Function.update_eq_self]
  obtain ⟨parent, henters, hnode⟩ :=
    Disk.exists_of_hasEntry (hs.wellFormed ht) htakes.isPlain'.isName hthere
  rw [hdue.enters_eq hs ht henters, hdue.directory] at hnode
  obtain ⟨source, found, -, hfound, hname⟩ :=
    exists_of_occupied (hown.symm ▸ hs) (hown.symm ▸ hdue) ht htakes.ne hnode
  -- what has not been given the name had it when the plan was made
  have hunseen : source = temporary → e.IsUnseen d₀ temporary := by
    rintro rfl
    cases htemporary with
    | tokened n =>
      rw [hfresh] at hfound
      cases hfound
    | untokened =>
      exact ⟨rfl, by simp [hfound],
        isTooLong_temporarySite ht hdue.isNormal hdue.top hdue.isVisible hfound (hfree rfl)⟩
  obtain hleft | ⟨r, hr, hsibling, rfl⟩ :=
    isLeftOut_or_exists_sibling h hfound (mem_of_inOrder horder).1
  · refine .inr (hunseen ?_)
    rw [← hname, namesAfter_of_isLeftOut h hfound hleft fun r hr =>
      (Disk.HasRoots.mem_retained_of_front horder hr).1]
  · rw [← hsibling.directory] at hname
    by_cases hfront : r ∈ front
    · refine .inl ⟨r, hfront, hsibling, ?_⟩
      rw [← hname]
      exact (h.namesAfter_of_done horder hr fun _ => hfront).symm
    · exact .inr (hunseen ((h.namesAfter_of_not_mem horder hr hfront).symm.trans hname))

/-- An entry that has got the temporary name of another one is in its way. -/
theorem isOvertaken_occupied (hovertaken : Retained.IsOvertaken front e temporary)
    (hsource : d.hasEntry (e.root.below (e.newAbove ++ [e.name])).route = true)
    (hshort : (e.root.below (e.newAbove ++ [temporary])).route.isTooLong = false) :
    d.hasEntry (e.root.below (e.newAbove ++ [temporary])).route = true := by
  have ht := h.wellFormed
  have hdue := isDue_of_inOrder h horder
  obtain ⟨parent, henters, -⟩ :=
    Disk.exists_of_hasEntry (hs.wellFormed ht) htakes.isPlain.isName hsource
  obtain rfl := hdue.enters_eq hs ht henters
  have hnul : (e.root.below (e.newAbove ++ [temporary])).route.hasNul = false :=
    Path.hasNul_below (Disk.directoryAt?_eq_some_iff.mp hdue.top).1 (by simp)
      (hdue.isVisible.isPlain_newNames htakes.isPlain')
  obtain ⟨r, hfront, hsibling, hnew⟩ := hovertaken
  have hr := (Disk.HasRoots.mem_retained_of_front horder hfront).1
  obtain ⟨node, hnode, hkind⟩ := ((mem_retained_iff ht).mp hr).2.node
  have hplace := hs.node?_relocate ht hnode
    (hs.arranged.not_gone_of_ne_link ht hnode (Retained.IsDue.node_ne_link hkind))
  rw [Retained.place, relocate_concat, hsibling.directory] at hplace
  have hname : namesAfter front (e.directory ++ [r.name]) = temporary := by
    rw [← hnew, ← hsibling.directory]
    exact h.namesAfter_of_done horder hr fun _ => hfront
  rw [hname] at hplace
  refine (henters.hasEntry_eq (hs.wellFormed ht) htakes.isPlain'.isName hnul hshort).mpr
    ⟨?_, by simp [hplace]⟩
  exact (hs.wellFormed ht).size_le hplace (List.mem_append_right _ List.mem_cons_self)

end Moment

/-- When the pair of moves of an entry comes, its temporary name is in use only if an entry in the
same directory has got it before, or if it was in use all along and the plan has not seen it. In the
first case it is, as long as the paths of the move can be looked up. No temporary name may have a
token yet. -/
theorem occupied_temporary {w w' : World} {ignored texts : List String} {plan : Plan}
    {before after : List Move} {first second : Move} (ht : w.disk.tree.WellFormed)
    (htoken : ∀ n, IsToken (w.token n))
    (hfresh : ∀ above name n,
      w.disk.tree.node? (above ++ [name ++ temporarySuffix ++ "-" ++ w.token n]) = none)
    (hplan : (preview w ignored (texts.map .ofText)).plan = .ok plan)
    (hmoves : plan.moves = before ++ first :: second :: after)
    (hwhole : Move.leaveNoneHalfway before = true) (hpaired : first.isPaired = true)
    (hperformed : Performed (World.mover false) before w w') :
    ∃ kept front e temporary, outermostRoots w.disk (texts.map .ofText) = .ok kept ∧
      Retained.IsPair w.disk w.token ignored kept before first second front e temporary ∧
      (w'.disk.hasEntry (first.root.joinText first.target).route = true →
        Retained.IsOvertaken front e temporary ∨ e.IsUnseen w.disk temporary) ∧
      (Retained.IsOvertaken front e temporary →
        w'.disk.hasEntry (first.root.joinText first.source).route = true →
        (first.root.joinText first.target).route.isTooLong = false →
        w'.disk.hasEntry (first.root.joinText first.target).route = true) := by
  obtain ⟨kept, hkept, hplanned⟩ := isPlanOf_of_preview ht hplan
  have h := hasRoots_of_outermostRoots ht (isNormal_ofText texts) hkept
  have hturns := hplanned.moves
  rw [hmoves] at hturns
  obtain ⟨front, rest, horder, hfront, hback⟩ := hturns.exists_of_append rfl hwhole
  obtain ⟨e, back, temporary, rfl, htemporary, hfree, rfl, rfl⟩ := hback.exists_of_paired hpaired
  have horder' : Retained.inOrder (retained w.disk ignored kept) = [] ++ (front ++ e :: back) :=
    horder
  obtain ⟨gone, hs, -⟩ :=
    hfront.stage h htoken horder' (stage_own ht) (fun _ => rfl) hperformed.disk.1
  have hdue := isDue_of_inOrder h horder
  have htakes : e.Takes (fun path => w.disk.hasEntry path.route) w.token e.name temporary := by
    refine (Retained.takes_of_temporary htemporary ?_ htoken hdue.isVisible).1
    exact hfree
  refine ⟨kept, front, e, temporary, hkept, ⟨⟨back, horder⟩, hfront, htemporary, rfl, rfl⟩, ?_⟩
  have hsource : (e.leg e.name temporary true).root.joinText (e.leg e.name temporary true).source =
      e.root.below (e.newAbove ++ [e.name]) := hdue.joinText_eq htakes.isPlain
  have htarget : (e.leg e.name temporary true).root.joinText (e.leg e.name temporary true).target =
      e.root.below (e.newAbove ++ [temporary]) := hdue.joinText_eq htakes.isPlain'
  rw [hsource, htarget]
  exact ⟨isOvertaken_or_isUnseen h horder htakes hs htemporary hfree hfresh,
    isOvertaken_occupied h horder htakes hs⟩

/-- A directory whose converted name has the form of a temporary one, and the file whose temporary
name that is. -/
def Tree.overtaking : Tree := ⟨[(["foo.tempRename"], .directory), (["Foo"], .file ⟨#[]⟩)]⟩

/-- The move of the directory, which comes first. -/
def Move.overtaking : Move := ⟨"foo.tempRename", "foo.temp-rename", ⟨.relative, []⟩, false⟩

/-- The pair of moves of the file. -/
def Move.overtakenFirst : Move := ⟨"Foo", "foo.temp-rename", ⟨.relative, []⟩, true⟩

def Move.overtakenSecond : Move := ⟨"foo.temp-rename", "foo", ⟨.relative, []⟩, true⟩

/-- The plan has no conflict. The directory gets the temporary name of the file, which then finds it
in the way. -/
theorem execute_overtaken :
    ∃ plan, (preview (.ofTree .overtaking) ["dist"] (["."].map .ofText)).plan = .ok plan ∧
      plan.conflicts = [] ∧ plan.moves = [.overtaking, .overtakenFirst, .overtakenSecond] ∧
      (execute (World.mover false) none [.overtaking] (.ofTree .overtaking)).failure? = none ∧
      (execute (World.mover false) none [.overtaking] (.ofTree .overtaking)).state.disk.hasEntry
          (Move.overtakenFirst.root.joinText Move.overtakenFirst.target).route = true ∧
      (execute (World.mover false) none plan.moves (.ofTree .overtaking)).failure? =
        some (directFailure .overtakenFirst "Destination already exists: foo.temp-rename" none) :=
  exists_ok_of_any (by decide +kernel)

theorem occupied_temporary_overtaking :
    ∃ front e temporary,
      Retained.IsPair (World.ofTree .overtaking).disk tokenText ["dist"] [⟨.relative, []⟩]
          [.overtaking] .overtakenFirst .overtakenSecond front e temporary ∧
        Retained.IsOvertaken front e temporary := by
  obtain ⟨plan, hplan, hmoves, hdone, hoccupied⟩ : ∃ plan,
      (preview (.ofTree .overtaking) ["dist"] (["."].map .ofText)).plan = .ok plan ∧
        plan.moves = [.overtaking] ++ .overtakenFirst :: .overtakenSecond :: [] ∧
        (execute (World.mover false) none [.overtaking] (.ofTree .overtaking)).failure? = none ∧
        (execute (World.mover false) none [.overtaking] (.ofTree .overtaking)).state.disk.hasEntry
          (Move.overtakenFirst.root.joinText Move.overtakenFirst.target).route = true :=
    exists_ok_of_any (by decide +kernel)
  have hfree : ∀ above name, '-' ∈ name.toList → Tree.overtaking.node? (above ++ [name]) = none :=
    fun above _ => Tree.node?_eq_none_of_hyphen (by decide) (by decide) above
  obtain ⟨kept, front, e, temporary, hkept, hpair, hcases, -⟩ :=
    occupied_temporary (w := .ofTree .overtaking) (by decide) isToken_tokenText
      (fun above name n => hfree above _ (by simp)) hplan hmoves rfl rfl (execute_of_none hdone)
  have hroots : outermostRoots (World.ofTree .overtaking).disk (["."].map .ofText) =
      .ok [⟨.relative, []⟩] := by decide
  obtain rfl := Except.ok.inj (hkept.symm.trans hroots)
  refine ⟨front, e, temporary, hpair,
    (hcases hoccupied).resolve_right fun hunseen => hunseen.taken ?_⟩
  rw [hunseen.untokened]
  exact hfree _ _ (by simp [temporarySuffix])

end Recase
