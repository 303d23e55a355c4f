import Recase.Proofs.Move
import Recase.Proofs.Plan.Turns
import Recase.Proofs.Tree.Arranged

/-!
# A disk in the course of a plan

* `Disk.Stage`: what has become of a disk on which entries have got names. `stage_own` is the disk
  before any move.
* `Stage.node?_relocate`: what is not gone is where its names are.
* `Stage.enters_eq`, `Stage.directoryAt?_eq`: a root still leads to its place, as long as it leads
  anywhere. `Stage.exists_of_node?_append`: what is below the place was below it.
* `Retained.IsDue`: the entry whose turn it is. `IsDue.exists_of_node?`: what is in its directory
  was there. `IsDue.step`: a move that takes the entry to another name gives it that name.
-/

namespace Recase

open Name Naming Recase.Tree

/-- What has become of the disk `d₀` once entries have the names `ν` and the links `gone` are
gone. -/
structure Disk.Stage (d₀ : Disk) (ν : Naming) (gone : List Place) (d : Disk) : Prop where
  arranged : d₀.tree.Arranged ν gone
  tree : d.tree = d₀.tree.arranged ν gone
  here : d₀.tree.isDirectory d₀.here = true → d.here = ν.relocate d₀.here
  /-- The changes made have left what is not gone where its names are. -/
  course : ∃ made, d₀.Becomes made d ∧ ∀ place, d₀.tree.node? place ≠ none → place ∉ gone →
    placeAfterAll made place = ν.relocate place

variable {d₀ d d' : Disk} {ν : Naming} {gone : List Place}

theorem stage_own (ht : d₀.tree.WellFormed) : d₀.Stage own [] d₀ where
  arranged := arranged_own ht
  tree := by rw [Tree.arranged, without_nil, renamed_own]
  here _ := (relocate_own _).symm
  course := ⟨[], .refl d₀, fun place _ _ => (relocate_own place).symm⟩

namespace Disk.Stage

variable (hs : d₀.Stage ν gone d) (ht : d₀.tree.WellFormed)
include hs ht

theorem wellFormed : d.tree.WellFormed := by
  rw [hs.tree]
  exact hs.arranged.wellFormed ht

omit ht in
/-- Where there are no links, none has gone. -/
theorem gone_eq_nil (hlinks : d₀.tree.LinkFree) : gone = [] := by
  refine List.eq_nil_iff_forall_not_mem.mpr fun place hplace => ?_
  obtain ⟨target, hlink⟩ := hs.arranged.isLink place hplace
  exact hlinks place target hlink

/-- What is not gone is where its names are. -/
theorem node?_relocate {place : Place} {node : Node} (hnode : d₀.tree.node? place = some node)
    (hstays : place ∉ gone) : d.tree.node? (ν.relocate place) = some node := by
  rw [hs.tree]
  exact hs.arranged.separates.node?_renamed (hs.arranged.wellFormed_without ht)
    ((hs.arranged.node?_without ht).mpr ⟨hnode, hstays⟩)

/-- No entry becomes a link. -/
theorem linkFree (hlinks : d₀.tree.LinkFree) : d.tree.LinkFree := by
  intro place target hlink
  rw [hs.tree] at hlink
  obtain ⟨source, -, hsource⟩ :=
    hs.arranged.separates.exists_of_node?_renamed (hs.arranged.wellFormed_without ht) hlink
  exact hlinks source target ((hs.arranged.node?_without ht).mp hsource).1

omit ht in
/-- A route starts where what it started from has got. -/
theorem startAt_eq {route : Route} (h : d₀.tree.isDirectory (route.startAt d₀.here) = true) :
    route.startAt d.here = ν.relocate (route.startAt d₀.here) := by
  rw [relocate_startAt]
  unfold Route.startAt at h ⊢
  split
  · rfl
  · rename_i hrel
    rw [if_neg hrel] at h
    exact hs.here h

variable {root : Path} {top parent : Place} {front : List String}

/-- A root still leads to its place, as long as it leads anywhere. -/
theorem walk_eq {k : Nat} {last : LastStep} {landing : Landing} (hroot : root.IsNormal)
    (htop : d₀.directoryAt? root = some top) (hfixed : ν.relocate top = top) (hlast : last ≠ .make)
    (hgo : front = [] → ∃ place, landing = .entry place ∧ d.tree.isDirectory place = true)
    (h : d.tree.walk last k (root.route.startAt d.here) (root.segments ++ front) = .ok landing) :
    ∃ k', d.tree.walk last k' top front = .ok landing := by
  obtain ⟨hstart, n, -, hleads⟩ := leads_of_directoryAt? ht htop
  rw [hs.startAt_eq hstart, hs.tree] at h
  rw [hs.tree] at hgo ⊢
  obtain ⟨-, hwalk⟩ := hs.arranged.follows ht (Path.leads_segments hroot hleads) hstart hlast hgo h
  rw [hfixed] at hwalk
  exact ⟨_, hwalk⟩

/-- What names lead to below the place of a root is what they lead to below the root. -/
theorem enters_eq (hroot : root.IsNormal) (htop : d₀.directoryAt? root = some top)
    (hfixed : ν.relocate top = top) (hbelow : d.tree.isDirectory (top ++ front) = true)
    (henters : d.Enters root front parent) : parent = top ++ front := by
  have hwf := hs.wellFormed ht
  have hparent := henters.isDirectory hwf
  have hwalk := henters.walk_eq hwf
  obtain ⟨k, hwalk⟩ := hs.walk_eq ht hroot htop hfixed (by decide)
    (fun _ => ⟨parent, rfl, hparent⟩) hwalk
  have hdown : d.tree.walk .follow k top (front ++ []) = d.tree.walk .follow k (top ++ front) [] :=
    (leads_below hwf hbelow).walk_append hwf (hwf.isDirectory_of_isDirectory_append hbelow)
      (by decide) (by decide) (Nat.zero_le k)
  rw [List.append_nil, walk_nil hbelow] at hdown
  rw [hdown] at hwalk
  cases hwalk
  rfl

/-- A root that leads to a directory leads to its place. -/
theorem directoryAt?_eq (hroot : root.IsNormal) (htop : d₀.directoryAt? root = some top)
    (hfixed : ν.relocate top = top) (h : d.directoryAt? root = some parent) : parent = top := by
  have henters := Disk.enters_of_directoryAt? (hs.wellFormed ht) hroot h
  have hdir := hs.arranged.isDirectory ht (Disk.directoryAt?_eq_some_iff.mp htop).2.2.2
  rw [hfixed, ← hs.tree] at hdir
  simpa using hs.enters_eq ht hroot htop hfixed (by simpa using hdir) henters

/-- What is below the place of a root was below it. -/
theorem exists_of_node?_append (hdir : d₀.tree.isDirectory top = true)
    (hfixed : ν.relocate top = top) {names : List String} {node : Node}
    (h : d.tree.node? (top ++ names) = some node) :
    ∃ sources, names = ν.along top sources ∧ d₀.tree.node? (top ++ sources) = some node := by
  have hwf := hs.arranged.wellFormed_without ht
  have hthere := hs.arranged.node?_without_of_ne_link ht (isDirectory_iff.mp hdir) (by simp)
  rw [hs.tree, ← hfixed] at h
  obtain ⟨sources, hnames, hnode⟩ :=
    hs.arranged.separates.exists_of_node?_append hwf (by simp [hthere]) h
  exact ⟨sources, hnames, ((hs.arranged.node?_without ht).mp hnode).1⟩

end Disk.Stage

/-! ## The entry whose turn it is -/

/-- An entry whose turn it is: all above it have their new names. -/
structure Retained.IsDue (e : Retained) (d₀ : Disk) (ν : Naming) : Prop where
  isNormal : e.root.IsNormal
  top : d₀.directoryAt? e.root = some e.top
  isVisible : e.IsVisible
  node : ∃ node, d₀.tree.node? e.place = some node ∧ node.kind? = some e.kind
  directory : ν.relocate e.directory = e.top ++ e.newAbove

namespace Retained.IsDue

variable {e : Retained} {name x y : String} {isPaired : Bool}

theorem node_ne_link {node : Node} {kind : EntryKind} (h : node.kind? = some kind) :
    ∀ target, node ≠ .link target := by
  rintro target rfl
  cases h

theorem relocate_top (h : e.IsDue d₀ ν) : ν.relocate e.top = e.top := by
  have hdir := h.directory
  rw [Retained.directory, relocate_append] at hdir
  exact (List.append_inj hdir (by simp)).1

/-- Giving the entry another name leaves it due. -/
theorem update (h : e.IsDue d₀ ν) (name : String) :
    e.IsDue d₀ (Function.update ν e.place name) where
  isNormal := h.isNormal
  top := h.top
  isVisible := h.isVisible
  node := h.node
  directory := by
    rw [← h.directory]
    refine relocate_update_of_not_above fun hpre => ?_
    have := hpre.length_le
    rw [Retained.place, List.length_append, List.length_singleton] at this
    omega

theorem joinText_eq (h : e.IsDue d₀ ν) (hx : IsPlain x) :
    e.root.joinText (pathText (e.newAbove ++ [x])) = e.root.below (e.newAbove ++ [x]) :=
  Path.joinText_pathText _ (h.isVisible.isPlain_newNames hx)

variable (h : e.IsDue d₀ ν) (hs : d₀.Stage ν gone d) (ht : d₀.tree.WellFormed)
include h hs ht

theorem isDirectory : d.tree.isDirectory (e.top ++ e.newAbove) = true := by
  obtain ⟨node, hnode, -⟩ := h.node
  rw [← h.directory, hs.tree]
  exact hs.arranged.isDirectory ht (ht.isDirectory_of_concat hnode)

theorem enters_eq {parent : Place} (henters : d.Enters e.root e.newAbove parent) :
    parent = ν.relocate e.directory := by
  rw [h.directory]
  exact hs.enters_eq ht h.isNormal h.top h.relocate_top (h.isDirectory hs ht) henters

/-- The entry is where its name is. -/
theorem node?_place :
    ∃ node, node.kind? = some e.kind ∧ d₀.tree.node? e.place = some node ∧
      d.tree.node? (ν.relocate e.directory ++ [ν e.place]) = some node := by
  obtain ⟨node, hnode, hkind⟩ := h.node
  refine ⟨node, hkind, hnode, ?_⟩
  have hplace :=
    hs.node?_relocate ht hnode (hs.arranged.not_gone_of_ne_link ht hnode (node_ne_link hkind))
  rwa [Retained.place, relocate_concat] at hplace

/-- What is under some name in the directory of the entry was there. -/
theorem exists_of_node? {found : Node}
    (hfound : d.tree.node? (ν.relocate e.directory ++ [name]) = some found) :
    ∃ source, name = ν (e.directory ++ [source]) ∧
      d₀.tree.node? (e.directory ++ [source]) = some found ∧ e.directory ++ [source] ∉ gone := by
  obtain ⟨node, hnode, -⟩ := h.node
  rw [hs.tree] at hfound
  exact hs.arranged.exists_of_node?_concat ht (ht.isDirectory_of_concat hnode) hfound

/-- What is there is carried along when the entry gets another name. -/
theorem carried_moved (hname : ν e.place = x) {place : Place} (hplace : d₀.tree.node? place ≠ none)
    (hgone : place ∉ gone) :
    (ν.relocate place).carried (ν.relocate e.directory ++ [x]) (ν.relocate e.directory ++ [y]) =
      relocate (Function.update ν e.place y) place := by
  obtain ⟨node, hkind, hnode, -⟩ := h.node?_place hs ht
  have hsource : ν.relocate e.directory ++ [x] = ν.relocate (e.directory ++ [e.name]) := by
    rw [relocate_concat, ← hname]
    rfl
  rw [hsource]
  exact hs.arranged.carried_eq ht hnode (node_ne_link hkind) hplace hgone

/-- The place of the program is carried along. -/
theorem here_moved (hname : ν e.place = x) (hdir : d₀.tree.isDirectory d₀.here = true) :
    d.here.carried (ν.relocate e.directory ++ [x]) (ν.relocate e.directory ++ [y]) =
      relocate (Function.update ν e.place y) d₀.here := by
  have hthere := isDirectory_iff.mp hdir
  rw [hs.here hdir]
  exact h.carried_moved hs ht hname (by simp [hthere])
    (hs.arranged.not_gone_of_ne_link ht hthere (by simp))

theorem course_moved (hname : ν e.place = x) :
    ∃ made, d₀.Becomes made
        (d.commit (.moved (ν.relocate e.directory ++ [x]) (ν.relocate e.directory ++ [y]))) ∧
      ∀ place, d₀.tree.node? place ≠ none → place ∉ gone →
        placeAfterAll made place = relocate (Function.update ν e.place y) place := by
  obtain ⟨made, hmade, hplaces⟩ := hs.course
  refine ⟨_, hmade.trans (Disk.becomes_commit d _), fun place hplace hgone => ?_⟩
  rw [placeAfterAll_append, hplaces place hplace hgone]
  exact h.carried_moved hs ht hname hplace hgone

/-- A move that takes the entry to another name gives it that name. Where a link was in the way of a
file, the link is gone. -/
theorem step (hname : ν e.place = x) (hx : IsPlain x) (hy : IsPlain y) (hxy : x ≠ y)
    (hdir : e.kind = .directory → gone = [] ∧ EntryKind.directory.convert e.name ≠ e.name ∧
      EntryKind.directory.convert y = y)
    (hmove : directMove (e.leg x y isPaired) e.root d = (d', none)) :
    ∃ gone', d₀.Stage (Function.update ν e.place y) gone' d' ∧ (gone' = gone ∨ e.kind = .file) := by
  have hwf := hs.wellFormed ht
  have hsrc : e.root.joinText (e.leg x y isPaired).source = e.root.below (e.newAbove ++ [x]) :=
    h.joinText_eq hx
  have hdst : e.root.joinText (e.leg x y isPaired).target = e.root.below (e.newAbove ++ [y]) :=
    h.joinText_eq hy
  obtain ⟨parent, found, henters, hfound, hsize, rfl, hway⟩ :=
    directMove_eq_ok hwf hx.isName hy.isName hxy hsrc hdst hmove
  obtain rfl := h.enters_eq hs ht henters
  obtain ⟨node, hkind, hnode, hplace⟩ := h.node?_place hs ht
  have hlink := node_ne_link hkind
  rw [hname] at hplace
  obtain rfl : found = node := Option.some.inj (hfound.symm.trans hplace)
  have hentry : Tree.isEntryName y = true := isEntryName_iff.mpr ⟨hy, hsize⟩
  have hdirectory : found = .directory → gone = [] ∧ EntryKind.directory.convert e.name ≠ e.name ∧
      EntryKind.directory.convert y = y := by
    rintro rfl
    exact hdir (Option.some.inj hkind).symm
  have hsource : ν.relocate e.directory ++ [x] = ν.relocate (e.directory ++ [e.name]) := by
    rw [relocate_concat, ← hname]
    rfl
  have hhere := h.here_moved hs ht hname (y := y)
  obtain ⟨made, hmade, hplaces⟩ := h.course_moved hs ht hname (y := y)
  rcases hway with hfree | ⟨target, htarget⟩ | ⟨content, target, rfl, htaken⟩
  · refine ⟨gone, ⟨hs.arranged.rename ht hnode hlink hentry (fun other hother hstays heq => ?_)
      hdirectory, ?_, hhere, made, hmade, hplaces⟩, .inl rfl⟩
    · obtain ⟨node, hother⟩ := Option.ne_none_iff_exists'.mp hother
      have hthere := hs.node?_relocate ht hother hstays
      rw [relocate_concat, heq, hfree] at hthere
      cases hthere
    · rw [hs.tree] at hfree
      have hmoved := hs.arranged.move_eq ht hnode hlink hfree
      rw [← hsource, ← hs.tree] at hmoved
      exact hmoved
  · exact absurd htarget (hlink target)
  · obtain ⟨source, hyname, hthere, hstays⟩ := h.exists_of_node? hs ht htaken
    obtain rfl : y = source := hyname.trans (hs.arranged.link _ _ _ hthere)
    have hremoved := hs.arranged.remove ht hthere hstays
    refine ⟨(e.directory ++ [y]) :: gone, ⟨hremoved.rename ht hnode hlink hentry
      (fun other hother hstays' heq => ?_) (by simp), ?_, hhere, made, hmade,
          fun place hplace hleft =>
        hplaces place hplace fun hm => hleft (List.mem_cons_of_mem _ hm)⟩,
      .inr (Option.some.inj hkind).symm⟩
    · have hsame := hs.arranged.name_inj ht hother (by simp [hthere])
        (fun hm => hstays' (List.mem_cons_of_mem _ hm)) hstays (heq.trans hyname)
      subst hsame
      exact absurd List.mem_cons_self hstays'
    · have hmoved := hs.arranged.move_eq_of_link ht hnode hlink hthere hstays
      rw [← hsource, ← hs.tree] at hmoved
      exact hmoved

end Retained.IsDue

end Recase
