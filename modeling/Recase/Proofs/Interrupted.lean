import Recase.Proofs.Resumed
import Recase.Proofs.Tokens
import Recase.Recovery

/-!
# A pair of moves that is cut in two

What recovery does when a plan has stopped between the two moves of a pair.

* `exists_halfway`: the disk when the first move of a pair has been made. All entries have their own
  names or converted ones, but for the one that has its temporary name.
* `IsDue.leftoversBelow_eq`: so recovery finds this entry or nothing.
* `recover_interrupted`: it finds the entry, and makes the second move, if a walk comes to it under
  the new names; otherwise it changes nothing, as for `Tree.buried`.
-/

namespace Recase

open Name Naming Recase.Tree

/-- No entry of the tree has a temporary name. -/
def Tree.HasNoTemporary (t : Tree) : Prop :=
  ∀ above name, t.node? (above ++ [name]) ≠ none → isTemporary name = false

theorem Tree.hasNoTemporary_of_entries {t : Tree}
    (h : ∀ e ∈ t.entries, ∀ name ∈ e.1, isTemporary name = false) :
    t.HasNoTemporary := by
  intro above name hnode
  obtain ⟨node, hnode⟩ := Option.ne_none_iff_exists'.mp hnode
  rw [node?_of_ne_nil (by simp), List.lookup_eq_some_iff] at hnode
  obtain ⟨front, back, hentries, -⟩ := hnode
  exact h (above ++ [name], node) (by simp [hentries]) name (by simp)

variable {d₀ d d' : Disk} {ignored : List String} {kept : List Path} {front back : List Retained}
  {e : Retained} {root : Path} {names : List String} {parent top : Place} {name x : String}
    {ν : Naming}
  {gone : List Place}

/-- A path leads to a directory if names below it do. -/
theorem Disk.Enters.exists_directoryAt? (h : d.Enters root names parent) (ht : d.tree.WellFormed)
    (hroot : root.IsNormal) (hname : name ≠ "")
    (hnul : (root.below (names ++ [name])).route.hasNul = false)
    (hshort : (root.below (names ++ [name])).route.isTooLong = false) :
    ∃ top, d.directoryAt? root = some top := by
  obtain ⟨n, hn, hleads⟩ := h.leads
  obtain ⟨n₁, n₂, top, rfl, hfirst, -⟩ := hleads.split
  have hroute : d.tree.Leads n₁ (root.route.startAt d.here) root.route.names top :=
    hfirst.of_filter (by rw [Path.filter_names_route hroot, hroot.filter_segments])
  refine ⟨top, Disk.directoryAt?_eq_some_iff.mpr ⟨?_, ?_, ?_, hfirst.isDirectory ht h.start⟩⟩
  · rw [Path.route_below (by simp)] at hnul
    simp only [Route.hasNul, List.any_append, Bool.or_eq_false_iff] at hnul
    unfold Path.route
    dsimp only [Route.hasNul]
    split
    · decide
    · exact hnul.1
  · simp only [Route.isTooLong, decide_eq_false_iff_not] at hshort ⊢
    have hsize :
        root.toString.utf8ByteSize ≤ (root.below (names ++ [name])).toString.utf8ByteSize :=
      (Path.size_le_below hname).1
    exact fun hlong => hshort (Nat.lt_of_lt_of_le hlong hsize)
  · rw [Disk.steps_route]
    exact hroute.walk_eq ht h.start (by omega)

/-- A walk lists the directory of what has a path that is not too long. -/
theorem Path.canList_of_isTooLong (hname : name ≠ "")
    (hshort : (root.below (names ++ [name])).route.isTooLong = false) :
    root.canList names = true := by
  have hsize :
      (root.walkedText names).utf8ByteSize ≤ (root.below (names ++ [name])).toString.utf8ByteSize :=
    (Path.size_le_below hname).2
  simp only [Route.isTooLong, decide_eq_false_iff_not] at hshort
  simp only [Path.canList, Route.isTooLong, Bool.not_eq_true', decide_eq_false_iff_not]
  exact fun hlong => hshort (Nat.lt_of_lt_of_le hlong hsize)

/-! ## The disk between the two moves -/

section Halfway

variable {isTaken : Path → Bool} {token : Nat → String} {before after : List Move}
  {first second : Move}

/-- A pair of moves is the turn of an entry. -/
theorem Turns.exists_of_paired {entries : List Retained}
    (h : Turns isTaken token entries (first :: second :: after)) (hpaired : first.isPaired = true) :
    ∃ e rest x, entries = e :: rest ∧ IsTemporaryOf token e.newName x ∧
      (x = e.newName ++ temporarySuffix → isTaken e.item.temporarySite = false) ∧
      first = e.leg e.name x true ∧ second = e.leg x e.newName true := by
  generalize hmoves : first :: second :: after = moves at h
  cases h with
  | nil => cases hmoves
  | @cons e rest legs moves hlegs hrest =>
    cases hlegs with
    | single =>
      obtain ⟨rfl, -⟩ := List.cons.inj hmoves
      cases hpaired
    | @paired x htemporary hfree =>
      obtain ⟨hfirst, hmore⟩ := List.cons.inj hmoves
      exact ⟨e, rest, x, rfl, htemporary, hfree, hfirst, (List.cons.inj hmore).1⟩

/-- The disk when the first move of a pair has been made: the entry has its temporary name, and
those that have had their turn have their converted ones. -/
theorem exists_halfway (h : d₀.HasRoots kept) (htoken : ∀ n, IsToken (token n))
    (hturns : Turns isTaken token (Retained.inOrder (retained d₀ ignored kept))
      (before ++ first :: second :: after))
    (hwhole : Move.leaveNoneHalfway before = true) (hpaired : first.isPaired = true)
    (hperformed : Performed directMove (before ++ [first]) d₀ d) :
    ∃ front e back x gone, Retained.inOrder (retained d₀ ignored kept) = front ++ e :: back ∧
      IsTemporaryOf token e.newName x ∧ second = e.leg x e.newName true ∧
      e.Takes isTaken token x e.newName ∧
      e.IsDue d₀ (Function.update (namesAfter front) e.place x) ∧
      d₀.Stage (Function.update (namesAfter front) e.place x) gone d := by
  obtain ⟨front, rest, horder, hfront, hback⟩ := hturns.exists_of_append rfl hwhole
  obtain ⟨e, back, x, rfl, htemporary, hfree, rfl, rfl⟩ := hback.exists_of_paired hpaired
  obtain ⟨between, hbefore, hfirst⟩ := performed_append_iff.mp hperformed
  cases hfirst with
  | cons hmove hnil =>
    cases hnil
    have horder' : Retained.inOrder (retained d₀ ignored kept) = [] ++ (front ++ e :: back) :=
      horder
    obtain ⟨gone, hs, hgone⟩ :=
      hfront.stage h htoken horder' (stage_own h.wellFormed) (fun _ => rfl) hbefore
    have hdue := isDue_of_inOrder h horder
    obtain ⟨htakes, htakes'⟩ := Retained.takes_of_temporary htemporary hfree htoken hdue.isVisible
    obtain ⟨gone', hs', -⟩ := htakes.step hdue hs h.wellFormed (mem_of_inOrder horder).2
      (namesAfter_of_inOrder h horder)
      (fun hkind => hgone fun r hr => kind_of_mem_front horder hkind hr) hmove
    exact ⟨front, e, back, x, gone', horder, htemporary, rfl, htakes', hdue.update x, hs'⟩

/-- Nothing but the entry has a temporary name then. -/
theorem isTemporary_update (h : d₀.HasRoots kept) (hnames : d₀.tree.HasNoTemporary)
    (hitems : ∀ r ∈ retained d₀ ignored kept, r.changes = true → isTemporary r.newName = false)
    (horder : Retained.inOrder (retained d₀ ignored kept) = front ++ e :: back) {above : Place}
    (hnode : d₀.tree.node? (above ++ [name]) ≠ none) (hne : above ++ [name] ≠ e.place) :
    isTemporary (Function.update (namesAfter front) e.place x (above ++ [name])) = false := by
  rw [Function.update_of_ne hne]
  by_cases hretained : ∃ r ∈ retained d₀ ignored kept, r.place = above ++ [name]
  · obtain ⟨r, hr, hplace⟩ := hretained
    rw [← hplace]
    by_cases hfront : r ∈ front
    · have hchanges := (Disk.HasRoots.mem_retained_of_front horder hfront).2
      rw [h.namesAfter_of_done horder hr fun _ => hfront]
      exact hitems r hr hchanges
    · have hname : r.name = name := (List.cons.inj (List.append_inj' hplace rfl).2).1
      rw [h.namesAfter_of_not_mem horder hr hfront, hname]
      exact hnames above name hnode
  · rw [Disk.HasRoots.namesAfter_of_not_retained horder fun r hr heq =>
      hretained ⟨r, hr, heq⟩, own_concat]
    exact hnames above name hnode

end Halfway

/-! ## What recovery finds -/

/-- A walk comes to an entry that has a temporary name: no directory on the way is skipped under its
new name, nor is the entry itself if it is a directory. -/
def Retained.IsShownAs (ignored : List String) (e : Retained) (x : String) : Prop :=
  isRetained ignored e.newAbove = true ∧ (e.kind = .directory → isSkipped ignored x = false)

instance (ignored : List String) (e : Retained) (x : String) : Decidable (e.IsShownAs ignored x) :=
  inferInstanceAs (Decidable (_ ∧ _))

theorem isLeftover_iff {node : Node} (hkind : node.kind? = some e.kind)
    (hlisted : e.root.canList e.newAbove = true) (hx : isTemporary x = true) :
    isLeftover d ignored e.root (e.newAbove ++ [x]) node = true ↔ e.IsShownAs ignored x := by
  unfold isLeftover Retained.IsShownAs
  rw [List.getLast?_concat]
  dsimp only
  rw [List.dropLast_concat, hlisted, hx]
  cases node with
  | directory =>
    obtain hdir : EntryKind.directory = e.kind := Option.some.inj hkind
    simp [isListedDirectory, ← hdir]
  | file content =>
    obtain hfile : EntryKind.file = e.kind := Option.some.inj hkind
    simp [isListedDirectory, ← hfile]
  | link target => cases hkind

theorem any_isTemporary_of_isLeftover {names : List String} {node : Node}
    (h : isLeftover d ignored root names node = true) : names.getLast?.any isTemporary = true := by
  unfold isLeftover at h
  split at h
  · cases h
  · rename_i name hlast
    simp only [Bool.and_eq_true] at h
    rw [hlast]
    exact h.1.2

namespace Retained.IsDue

variable (h : e.IsDue d₀ ν) (hs : d₀.Stage ν gone d) (ht : d₀.tree.WellFormed)
  (hname : ν e.place = x)
  (hothers : ∀ above name, d₀.tree.node? (above ++ [name]) ≠ none → above ++ [name] ≠ e.place →
    isTemporary (ν (above ++ [name])) = false)
include h hs ht hname

theorem node?_newNames :
    ∃ node, node.kind? = some e.kind ∧ d.tree.node? (e.top ++ (e.newAbove ++ [x])) = some node := by
  obtain ⟨node, hkind, -, hthere⟩ := h.node?_place hs ht
  rw [hname, h.directory, List.append_assoc] at hthere
  exact ⟨node, hkind, hthere⟩

include hothers

/-- Where nothing but an entry has a temporary name, what has one below its root is the entry. -/
theorem eq_of_isTemporary {names : List String} {found : Node}
    (hfound : d.tree.node? (e.top ++ names) = some found)
    (hlast : names.getLast?.any isTemporary = true) :
    names = e.newAbove ++ [x] := by
  have hdir := (Disk.directoryAt?_eq_some_iff.mp h.top).2.2.2
  obtain ⟨sources, rfl, hsource⟩ := hs.exists_of_node?_append ht hdir h.relocate_top hfound
  rcases List.eq_nil_or_concat sources with rfl | ⟨above, name, rfl⟩
  · cases hlast
  rw [List.concat_eq_append] at hlast hsource ⊢
  have htemporary : isTemporary (ν (e.top ++ above ++ [name])) = true := by
    rwa [along_append, along, along, List.getLast?_concat] at hlast
  have hplace : e.top ++ above ++ [name] = e.place := by
    by_contra hother
    rw [hothers (e.top ++ above) name (by simp [hsource]) hother] at htemporary
    cases htemporary
  have hat : ν.relocate (e.top ++ (above ++ [name])) = e.top ++ (e.newAbove ++ [x]) := by
    rw [← List.append_assoc, hplace, Retained.place, relocate_concat, h.directory, ← hname,
      List.append_assoc]
    rfl
  rw [relocate_append, h.relocate_top] at hat
  exact List.append_cancel_left hat

variable (hx : isTemporary x = true) (hlisted : e.root.canList e.newAbove = true)
include hx hlisted

/-- The entry is a leftover if a walk comes to it, and nothing else is one. -/
theorem mem_leftovers_iff {names : List String} :
    names ∈ ((d.tree.below e.top).filter fun (names, node) =>
        isLeftover d ignored e.root names node).map (·.1) ↔
      names = e.newAbove ++ [x] ∧ e.IsShownAs ignored x := by
  have ht' := hs.wellFormed ht
  obtain ⟨node, hkind, hthere⟩ := h.node?_newNames hs ht hname
  simp only [List.mem_map, List.mem_filter, Prod.exists, mem_below_iff, exists_and_right,
    exists_eq_right]
  constructor
  · rintro ⟨found, ⟨-, hentry⟩, hleft⟩
    have hfound := ht'.node?_of_mem hentry
    obtain rfl :=
      h.eq_of_isTemporary hs ht hname hothers hfound (any_isTemporary_of_isLeftover hleft)
    obtain rfl := Option.some.inj (hfound.symm.trans hthere)
    exact ⟨rfl, (isLeftover_iff hkind hlisted hx).mp hleft⟩
  · rintro ⟨rfl, hshown⟩
    refine ⟨node, ⟨by simp, (ht'.node?_eq_some_iff (by simp)).mp hthere⟩, ?_⟩
    exact (isLeftover_iff hkind hlisted hx).mpr hshown

/-- So recovery finds the entry or nothing. -/
theorem leftoversBelow_eq (htop : d.directoryAt? e.root = some e.top) :
    leftoversBelow d ignored e.root =
      if e.IsShownAs ignored x then [e.root.below (e.newAbove ++ [x])] else [] := by
  have hnodup : (((d.tree.below e.top).filter fun (names, node) =>
      isLeftover d ignored e.root names node).map (·.1)).Nodup :=
    List.pairwise_map.mpr ((below_pairwise (hs.wellFormed ht) e.top).filter _)
  rw [leftoversBelow, htop]
  dsimp only
  by_cases hshown : e.IsShownAs ignored x
  · have hsingle : ((d.tree.below e.top).filter fun (names, node) =>
        isLeftover d ignored e.root names node).map (·.1) = [e.newAbove ++ [x]] := by
      refine List.perm_singleton.mp
        ((List.perm_ext_iff_of_nodup hnodup (List.nodup_singleton _)).mpr ?_)
      intro names
      rw [h.mem_leftovers_iff hs ht hname hothers hx hlisted, List.mem_singleton,
        and_iff_left hshown]
    rw [hsingle, if_pos hshown]
    rfl
  · have hnil : ((d.tree.below e.top).filter fun (names, node) =>
        isLeftover d ignored e.root names node).map (·.1) = [] :=
      List.eq_nil_iff_forall_not_mem.mpr fun names hnames =>
        hshown ((h.mem_leftovers_iff hs ht hname hothers hx hlisted).mp hnames).2
    rw [hnil, if_neg hshown]
    rfl

end Retained.IsDue

/-! ## Recovery -/

theorem Path.withName?_below {temporary : String} (hne : name ≠ "") (hdot : name ≠ ".")
    (hslash : '/' ∉ name.toList) :
    (root.below (names ++ [temporary])).withName? name = some (root.below (names ++ [name])) := by
  have hother : (name.isEmpty || name == "." || name.toList.contains '/') = false := by
    simp [hne, hdot, hslash]
  have hparent :
      (root.below (names ++ [temporary])).parent.child name = root.below (names ++ [name]) := by
    simp [Path.parent, Path.child, Path.below, ← List.append_assoc]
  unfold Path.withName?
  rw [hother, hparent]
  simp

theorem intendedPath_below {temporary : String} (hne : name ≠ "") (hdot : name ≠ ".")
    (hslash : '/' ∉ name.toList) (htarget : temporaryTarget? temporary = some name) :
    intendedPath (root.below (names ++ [temporary])) = .ok (root.below (names ++ [name])) := by
  have hname : (root.below (names ++ [temporary])).name = temporary := by
    simp [Path.name, Path.below]
  unfold intendedPath
  rw [hname, htarget]
  simp only [Option.getD_some]
  rw [Path.withName?_below hne hdot hslash]

/-- A leftover whose intended path is free is moved there. -/
theorem recoverOne_of_free {temporary : String} (hplain : IsPlain name)
    (htarget : temporaryTarget? temporary = some name)
    (hfree : d.hasEntry (root.below (names ++ [name])).route = false)
    (hrename : d.rename (root.below (names ++ [temporary])).route
      (root.below (names ++ [name])).route = .ok d') :
    recoverOne d (root.below (names ++ [temporary])) =
        .ok (some (root.below (names ++ [name])), d') := by
  rw [recoverOne, intendedPath_below hplain.ne_empty hplain.ne_dot hplain.slash htarget]
  simp only [bind, Except.bind, hfree, Bool.false_eq_true, if_false, hrename]

section

variable {roots : List Root} {temporary intended : Path}

theorem recover_of_leftovers_nil (h : leftovers d ignored roots = .ok []) :
    recover d ignored roots = (.ok [], d) := by
  rw [recover, h]
  rfl

section

-- what one leftover comes to is not computed here
attribute [local irreducible] recoverOne

/-- Leftovers are moved one after the other. -/
theorem recoverFrom_cons (d : Disk) (temporary : Path) (rest : List Path) :
    recoverFrom d (temporary :: rest) =
      match recoverOne d temporary with
      | .error failure => (.error failure, d)
      | .ok (intended?, d) =>
        ((recoverFrom d rest).1.map fun pairs => (intended?.map (temporary, ·)).toList ++ pairs,
          (recoverFrom d rest).2) := rfl

end

theorem recover_of_leftovers_singleton (h : leftovers d ignored roots = .ok [temporary])
    (hone : recoverOne d temporary = .ok (some intended, d')) :
    recover d ignored roots = (.ok [(temporary, intended)], d') := by
  have hsorted : sortBy (fun a b : Path => decide (b.size ≤ a.size)) [temporary] = [temporary] :=
    rfl
  have hall : recoverFrom d [temporary] = (.ok [(temporary, intended)], d') := by
    rw [recoverFrom_cons, hone]
    rfl
  rw [recover, h]
  dsimp only
  rw [hsorted, hall]

end

/-- A walk comes to the entry that a move takes out of its temporary name: no directory on the way
is skipped, nor is the entry itself if it is a directory. -/
def Disk.Shows (d : Disk) (ignored : List String) (m : Move) : Prop :=
  isRetained ignored (PathText.segments m.source).dropLast = true ∧
    (d.isDirectory (m.root.joinText m.source) = .ok true →
      isSkipped ignored (PathText.lastName m.source) = false)

/-- What a renaming in a directory has found that succeeds. -/
theorem Disk.exists_enters_of_rename (ht : d.tree.WellFormed) {y : String}
    (h : d.rename (root.below (names ++ [x])).route (root.below (names ++ [y])).route = .ok d') :
    ∃ parent, d.Enters root names parent ∧ (root.below (names ++ [x])).route.hasNul = false ∧
      (root.below (names ++ [x])).route.isTooLong = false := by
  obtain ⟨hnul, -, places, hplaces, -⟩ := renamePlaces_of_rename h
  obtain ⟨parent, -, -, -, -, hparent, -⟩ := exists_of_renamePlaces hplaces
  obtain ⟨hshort, henters⟩ := (parentOf_eq_ok_iff ht).mp hparent
  exact ⟨parent, henters, hnul, hshort⟩

theorem Retained.IsDue.shows_iff (h : e.IsDue d₀ ν) (hs : d₀.Stage ν gone d)
    (ht : d₀.tree.WellFormed) (hx : IsPlain x) (hname : ν e.place = x)
    (henters : d.Enters e.root e.newAbove parent)
    (hnul : (e.root.below (e.newAbove ++ [x])).route.hasNul = false)
    (hshort : (e.root.below (e.newAbove ++ [x])).route.isTooLong = false) :
    d.Shows ignored (e.leg x e.newName true) ↔ e.IsShownAs ignored x := by
  obtain ⟨node, hkind, -, hthere⟩ := h.node?_place hs ht
  obtain rfl := h.enters_eq hs ht henters
  rw [hname] at hthere
  have hfind := henters.find_entry (hs.wellFormed ht) hx.isName hnul hshort hthere
    (Retained.IsDue.node_ne_link hkind)
  have hdir : d.isDirectory (e.root.joinText (pathText (e.newAbove ++ [x]))) = .ok true ↔
      e.kind = .directory := by
    rw [h.joinText_eq hx, Disk.isDirectory, Disk.holdsAt, hfind]
    simp only [Except.ok.injEq, isDirectory_iff, hthere]
    cases node <;> simp [Node.kind?] at hkind <;> simp [← hkind]
  have hsegments : PathText.segments (pathText (e.newAbove ++ [x])) = e.newAbove ++ [x] :=
    segments_pathText (by simp) fun n hn => (h.isVisible.isPlain_newNames hx n hn).slash
  rw [Disk.Shows, Retained.IsShownAs]
  change _ ∧ (d.isDirectory (e.root.joinText (pathText (e.newAbove ++ [x]))) = .ok true → _) ↔ _
  rw [hdir]
  change isRetained ignored (PathText.segments (pathText (e.newAbove ++ [x]))).dropLast = true ∧
    (_ → isSkipped ignored (PathText.lastName (pathText (e.newAbove ++ [x]))) = false) ↔ _
  rw [hsegments, List.dropLast_concat, lastName_pathText hx.slash]

/-- Where nothing but an entry has a temporary name, and nothing has the intended one, recovery
moves the entry if it finds it. -/
theorem Retained.IsDue.recover_eq {root : Root} (h : e.IsDue d₀ ν) (hs : d₀.Stage ν gone d)
    (ht : d₀.tree.WellFormed) (hroot : e.root = root.path) (hname : ν e.place = x) (hx : IsPlain x)
    (hnew : IsPlain e.newName) (htarget : temporaryTarget? x = some e.newName)
    (hothers : ∀ above name, d₀.tree.node? (above ++ [name]) ≠ none → above ++ [name] ≠ e.place →
      isTemporary (ν (above ++ [name])) = false)
    (hrename : d.rename (e.root.below (e.newAbove ++ [x])).route
      (e.root.below (e.newAbove ++ [e.newName])).route = .ok d')
    (hfree : d.hasEntry (e.root.below (e.newAbove ++ [e.newName])).route = false) :
    (d.Shows ignored (e.leg x e.newName true) → recover d ignored [root] =
        (.ok [(e.root.below (e.newAbove ++ [x]), e.root.below (e.newAbove ++ [e.newName]))], d')) ∧
      (¬ d.Shows ignored (e.leg x e.newName true) → recover d ignored [root] = (.ok [], d)) := by
  have ht' := hs.wellFormed ht
  obtain ⟨parent, henters, hnul, hshort⟩ := Disk.exists_enters_of_rename ht' hrename
  obtain ⟨top, htop⟩ := henters.exists_directoryAt? ht' h.isNormal hx.ne_empty hnul hshort
  obtain rfl := hs.directoryAt?_eq ht h.isNormal h.top h.relocate_top htop
  have htemporary : isTemporary x = true := by rw [isTemporary, htarget]; rfl
  have hlisted := Path.canList_of_isTooLong hx.ne_empty hshort
  have hfound : leftovers d ignored [root] =
      .ok (if e.IsShownAs ignored x then [e.root.below (e.newAbove ++ [x])] else []) := by
    have hkept : outermostRoots d [root] = .ok [root.path] :=
      (outermostRoots_singleton ht' (hroot ▸ h.isNormal)).mpr ⟨rfl, _, hroot ▸ htop⟩
    rw [leftovers, hkept, ← h.leftoversBelow_eq hs ht hname hothers htemporary hlisted htop, hroot]
    simp [bind, Except.bind]
  rw [h.shows_iff hs ht hx hname henters hnul hshort]
  refine ⟨fun hshown => ?_, fun hshown => ?_⟩
  · rw [if_pos hshown] at hfound
    exact recover_of_leftovers_singleton hfound (recoverOne_of_free hnew htarget hfree hrename)
  · rw [if_neg hshown] at hfound
    exact recover_of_leftovers_nil hfound

/-- When a plan has stopped between the two moves of a pair, recovery makes the second one if a walk
comes to the entry under the new names, and changes nothing if not. No other entry may have a
temporary name, be it its own or its converted one, the intended name has no line feed in it, and
nothing has it yet. -/
theorem recover_interrupted {w : World} {text : String} {plan : Plan} {before after : List Move}
    {first second : Move} (ht : w.disk.tree.WellFormed) (htoken : ∀ n, IsToken (w.token n))
    (hnames : w.disk.tree.HasNoTemporary)
    (hplan : (preview w ignored [.ofText text]).plan = .ok plan)
    (hitems : ∀ item ∈ plan.items, isTemporary item.convertedName = false)
    (hmoves : plan.moves = before ++ first :: second :: after)
    (hwhole : Move.leaveNoneHalfway before = true) (hpaired : first.isPaired = true)
    (hdone : (execute (World.mover false) none (before ++ [first]) w).failure? = none)
    (hstopped : d = (execute (World.mover false) none (before ++ [first]) w).state.disk)
    (hsecond : directMove second second.root d = (d', none))
    (hline : '\n' ∉ (PathText.lastName second.target).toList)
    (hfree : d.hasEntry (second.root.joinText second.target).route = false) :
    (d.Shows ignored second → recover d ignored [.ofText text] =
        (.ok [(second.root.joinText second.source, second.root.joinText second.target)], d')) ∧
      (¬ d.Shows ignored second → recover d ignored [.ofText text] = (.ok [], d)) := by
  have hnormal := isNormal_ofText [text]
  obtain ⟨kept, hkept, hturns⟩ := isPlanOf_of_preview ht hplan
  have h := hasRoots_of_outermostRoots ht hnormal hkept
  obtain ⟨rfl, -⟩ := (outermostRoots_singleton ht (hnormal _ (by simp))).mp hkept
  have hperformed := (execute_of_none hdone).disk.1
  rw [← hstopped] at hperformed
  obtain ⟨front, e, back, x, gone, horder, htemporary, rfl, htakes, hdue, hs⟩ :=
    exists_halfway h htoken (hmoves ▸ hturns.moves) hwhole hpaired hperformed
  have heroot : e.root = (Root.ofText text).path := by simpa using (retains_of_inOrder h horder).1
  have hconverted : ∀ r ∈ retained w.disk ignored [(Root.ofText text).path], r.changes = true →
      isTemporary r.newName = false := by
    intro r hr hchanges
    have hplain := ((mem_retained_iff ht).mp hr).2.isVisible ht
    have hmem := List.mem_map_of_mem (f := Retained.item) (List.mem_filter.mpr ⟨hr, hchanges⟩)
    rw [← hplain.item_convertedName]
    exact hitems _ (hturns.items ▸ hmem)
  have htarget : temporaryTarget? x = some e.newName := by
    refine htemporary.temporaryTarget?_eq htoken htakes.isPlain'.ne_empty ?_
    rwa [Retained.leg, lastName_pathText htakes.isPlain'.slash] at hline
  -- the paths of the move are those of two names in one directory
  have hfrom : (e.leg x e.newName true).root.joinText (e.leg x e.newName true).source =
      e.root.below (e.newAbove ++ [x]) := hdue.joinText_eq htakes.isPlain
  have hto : (e.leg x e.newName true).root.joinText (e.leg x e.newName true).target =
      e.root.below (e.newAbove ++ [e.newName]) := hdue.joinText_eq htakes.isPlain'
  have hrename := (rename_of_directMove hsecond).2
  rw [hfrom, hto] at hrename
  rw [hto] at hfree
  rw [hfrom, hto]
  exact hdue.recover_eq hs ht heroot (Function.update_self _ _ _) htakes.isPlain
    htakes.isPlain' htarget
    (fun above name hnode hne => isTemporary_update h hnames hconverted horder hnode hne)
      hrename hfree

/-- Between the two moves of the first pair of the sample, recovery makes the second one. -/
theorem recover_interrupted_sample :
    ∃ plan d d', (preview (.ofTree .sample) ["dist"] [.ofText "."]).plan = .ok plan ∧
      d.tree.node? ["docs.temp-rename"] = some .directory ∧
      d'.tree.node? ["docs"] = some .directory ∧
      recover d ["dist"] [.ofText "."] =
        (.ok [(⟨.relative, ["docs.temp-rename"]⟩, ⟨.relative, ["docs"]⟩)], d') := by
  let first : Move := ⟨"Docs", "docs.temp-rename", ⟨.relative, []⟩, true⟩
  let second : Move := ⟨"docs.temp-rename", "docs", ⟨.relative, []⟩, true⟩
  let d : Disk := (execute (World.mover false) none [first] (.ofTree .sample)).state.disk
  obtain ⟨plan, hplan, hmoves, hitems⟩ : ∃ plan,
      (preview (.ofTree .sample) ["dist"] [.ofText "."]).plan = .ok plan ∧
        plan.moves = [] ++ first :: second :: [⟨"srcFiles", "src-files", ⟨.relative, []⟩, false⟩,
          ⟨"src-files/FooBar.ts", "src-files/foo-bar.ts", ⟨.relative, []⟩, false⟩] ∧
        ∀ item ∈ plan.items, isTemporary item.convertedName = false :=
    exists_ok_of_any (by decide +kernel)
  refine ⟨plan, d, (directMove second second.root d).1, hplan, by decide +kernel,
    by decide +kernel, ?_⟩
  have hsource : second.root.joinText second.source = ⟨.relative, ["docs.temp-rename"]⟩ := by
    decide +kernel
  have htarget : second.root.joinText second.target = ⟨.relative, ["docs"]⟩ := by decide +kernel
  have hshows : d.Shows ["dist"] second := ⟨by decide +kernel, fun _ => by decide +kernel⟩
  have hstopped :
      d = (execute (World.mover false) none ([] ++ [first]) (.ofTree .sample)).state.disk := by
    rw [List.nil_append]
  have hsecond : directMove second second.root d = ((directMove second second.root d).1, none) :=
    Prod.ext rfl (by decide +kernel)
  have hrecovered :=
    (recover_interrupted (w := .ofTree .sample) (d := d) (by decide) isToken_tokenText
      (hasNoTemporary_of_entries (by decide +kernel)) hplan hitems hmoves rfl rfl
      (by decide +kernel) hstopped hsecond (by decide +kernel) (by decide +kernel)).1 hshows
  rwa [hsource, htarget] at hrecovered

/-- A directory whose converted name is skipped, with a file in it whose name changes in letter
case. -/
def Tree.buried : Tree :=
  ⟨[(["Dist"], .directory), (["Dist", "Foo.ts"], .file "export default 1".toUTF8)]⟩

/-- The moves of its plan up to the first one of the file. -/
def Move.buriedFirst : List Move :=
  [⟨"Dist", "dist.temp-rename", ⟨.relative, []⟩, true⟩,
    ⟨"dist.temp-rename", "dist", ⟨.relative, []⟩, true⟩,
    ⟨"dist/Foo.ts", "dist/foo.ts.temp-rename", ⟨.relative, []⟩, true⟩]

/-- The second move of the file. -/
def Move.buriedSecond : Move := ⟨"dist/foo.ts.temp-rename", "dist/foo.ts", ⟨.relative, []⟩, true⟩

/-- The disk between the two moves of the file. -/
def Disk.buried : Disk :=
  (execute (World.mover false) none Move.buriedFirst (.ofTree .buried)).state.disk

/-- Recovery does not find the file in the directory, though the second move would succeed. -/
theorem recover_buried :
    (∃ plan, (preview (.ofTree .buried) ignoredNames [.ofText "."]).plan = .ok plan ∧
        plan.conflicts = [] ∧ plan.moves = Move.buriedFirst ++ [Move.buriedSecond]) ∧
      (execute (World.mover false) none Move.buriedFirst (.ofTree .buried)).failure? = none ∧
      (∃ d', directMove .buriedSecond Move.buriedSecond.root .buried = (d', none) ∧
        d'.tree ≠ Disk.buried.tree) ∧
      recover .buried ignoredNames [.ofText "."] = (.ok [], .buried) := by
  refine ⟨exists_ok_of_any (by decide +kernel), by decide +kernel,
    ⟨(directMove .buriedSecond Move.buriedSecond.root .buried).1, Prod.ext rfl ?_, ?_⟩, ?_⟩
  all_goals decide +kernel

end Recase
