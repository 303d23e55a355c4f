import Recase.Proofs.Disk
import Recase.Proofs.Tree.Move

/-!
# Entries of a directory

What is found at the paths of the entries of one directory, and what renaming one of them does.

* `Disk.directoryAt?_of_isDirectory`: the path that names a directory from the top.
* `Disk.Enters`: names below a root lead to a directory, as its path alone may
  (`Disk.enters_of_directoryAt?`). Then what is at the path of an entry of the directory is found
  from there (`Enters.find_eq`, `Enters.find_entry`, `Enters.hasEntry_eq`).
* `Tree.parentOf_eq_ok_iff`: where the last step of a route is taken. `Tree.exists_of_renamePlaces`,
  `Disk.renamePlaces_of_rename`: what a renaming has found that succeeds.
* `Tree.replacing_of_free`, `Tree.replacing_eq_error`: what is in the way of an entry.
  `Tree.WellFormed.bare_of_replacing`: there is nothing below what is replaced.
  `Disk.wellFormed_rename`: so a tree is well formed after a renaming if the new name is one for an
  entry.
* `Disk.exists_of_hasEntry`, `Disk.parentOf_eq_ok_iff`: what names lead to a directory.
* `Disk.Enters.rename_eq`: what renaming an entry of the directory does;
  `Disk.exists_of_rename`: there is a directory and an entry if it succeeds.
-/

namespace Recase

open Name Recase.Tree

/-! ## The route of a path below a root -/

namespace Path

variable {root : Path} {names : List String}

theorem route_below (h : names ≠ []) :
    (root.below names).route =
      { isAbsolute := !root.isRelative
        names := root.segments ++ names
        endsInSlash := false
        size := (root.below names).toString.utf8ByteSize } := by
  have hne : (root.below names).segments.isEmpty = false := by simp [below, h]
  unfold route
  rw [hne, Bool.and_false]
  rfl

theorem startAt_below (h : names ≠ []) (here : Place) :
    (root.below names).route.startAt here = root.route.startAt here := by
  rw [route_below h]
  rfl

/-- Plain names below a root bring no NUL into its path. -/
theorem hasNul_below (hroot : root.route.hasNul = false) (hne : names ≠ [])
    (hnames : ∀ n ∈ names, IsPlain n) : (root.below names).route.hasNul = false := by
  have hsegments : ∀ s ∈ root.segments, '\x00' ∉ s.toList := by
    intro s hs
    have hnames : root.route.names = root.segments := by
      have hsome : root.segments.isEmpty = false := by
        simpa using List.ne_nil_of_mem hs
      simp [route, hsome]
    have hall : ∀ s ∈ root.route.names, '\x00' ∉ s.toList := by
      simpa [Route.hasNul] using hroot
    exact hall s (hnames ▸ hs)
  rw [route_below hne]
  simp only [Route.hasNul, List.any_eq_false, List.mem_append, List.contains_eq_mem,
    decide_eq_true_eq]
  rintro s (hs | hs)
  · exact hsegments s hs
  · exact (hnames s hs).nul

/-- The steps of a path lead to where its segments do. -/
theorem leads_segments {t : Tree} {n : Nat} {here place : Place} (hroot : root.IsNormal)
    (h : t.Leads n here root.route.names place) : t.Leads n here root.segments place :=
  h.of_filter (by rw [filter_names_route hroot, hroot.filter_segments])

end Path

/-! ## What renamings find -/

/-- The directory in which the last step of a route is taken is the one to which the steps before it
lead. -/
theorem Tree.parentOf_eq_ok_iff {t : Tree} {here parent : Place} {route : Route}
    (ht : t.WellFormed) :
    t.parentOf here route = .ok parent ↔ route.isTooLong = false ∧
      t.isDirectory (route.startAt here) = true ∧
        ∃ n ≤ linkLimit, t.Leads n (route.startAt here) route.names.dropLast parent := by
  rw [parentOf]
  cases route.isTooLong with
  | true => simp
  | false =>
    simp only [Bool.false_eq_true, if_false, true_and]
    constructor
    · intro h
      split at h
      · cases h
      · cases h
      · rename_i place hwalk
        split at h
        · rename_i hplace
          cases h
          have hstart := isDirectory_of_walk hwalk
          rw [← List.append_nil route.names.dropLast] at hwalk
          obtain ⟨n, other, hn, hleads, hother, hend⟩ :=
            walk_append ht hstart (by decide) (fun _ => ⟨parent, rfl, hplace⟩) hwalk
          rw [walk_nil hother] at hend
          cases hend
          exact ⟨hstart, n, hn, hleads⟩
        · cases h
    · rintro ⟨hstart, n, hn, hleads⟩
      rw [hleads.walk_eq ht hstart hn]
      simp [hleads.isDirectory ht hstart]

theorem Tree.entryIn_eq_ok {t : Tree} {parent : Place} {name : String} {node? : Option Node}
    (h : t.entryIn parent name = .ok node?) :
    name.utf8ByteSize ≤ nameLimit ∧ node? = t.node? (parent ++ [name]) := by
  unfold entryIn at h
  split at h
  · cases h
  · rename_i hsize
    cases h
    exact ⟨Nat.not_lt.mp hsize, rfl⟩

/-- What a renaming has found that succeeds: the directories of both last steps, and a source that
is neither above its destination nor below it. -/
theorem Tree.exists_of_renamePlaces {t : Tree} {here : Place} {src dst : Route}
    {places : Option (Place × Place)}
    (h : t.renamePlaces here src dst = .ok places) :
    ∃ srcParent dstParent x y node, t.parentOf here src = .ok srcParent ∧
      t.parentOf here dst = .ok dstParent ∧ src.lastName? = some x ∧ dst.lastName? = some y ∧
      t.node? (srcParent ++ [x]) = some node ∧ y.utf8ByteSize ≤ nameLimit ∧
      ¬ srcParent ++ [x] <+: dstParent ∧ ¬ dstParent ++ [y] <+: srcParent ∧
      (srcParent ++ [x] = dstParent ++ [y] ∧ places = none ∨
        srcParent ++ [x] ≠ dstParent ++ [y] ∧ t.replacing node (dstParent ++ [y]) = .ok () ∧
          places = some (srcParent ++ [x], dstParent ++ [y])) := by
  obtain ⟨srcParent, hsrcParent, h⟩ := exists_of_bind_eq_ok h
  obtain ⟨dstParent, hdstParent, h⟩ := exists_of_bind_eq_ok h
  split at h
  · rename_i x y hx hy
    obtain ⟨node?, hnode, h⟩ := exists_of_bind_eq_ok h
    rw [(entryIn_eq_ok hnode).2] at h
    cases hnode' : t.node? (srcParent ++ [x]) with
    | none => rw [hnode'] at h; cases h
    | some node =>
      rw [hnode'] at h
      obtain ⟨other?, hother, h⟩ := exists_of_bind_eq_ok h
      split at h
      · cases h
      split at h
      · cases h
      rename_i hbelow
      split at h
      · cases h
      rename_i hbelow'
      rw [List.isPrefixOf_iff_prefix] at hbelow hbelow'
      refine ⟨srcParent, dstParent, x, y, node, hsrcParent, hdstParent, hx, hy, hnode',
        (entryIn_eq_ok hother).1, hbelow, hbelow', ?_⟩
      split at h
      · rename_i hsame
        cases h
        exact .inl ⟨hsame, rfl⟩
      · rename_i hne
        obtain ⟨_, hreplacing, h⟩ := exists_of_bind_eq_ok h
        cases h
        exact .inr ⟨hne, hreplacing, rfl⟩
  · cases h

/-- A renaming that succeeds has found places, and carried the entry from one to the other if they
differ. -/
theorem Disk.renamePlaces_of_rename {d d' : Disk} {src dst : Route}
    (h : d.rename src dst = .ok d') :
    src.hasNul = false ∧ dst.hasNul = false ∧ ∃ places,
      d.tree.renamePlaces d.here src dst = .ok places ∧
        d' = places.elim d fun places => d.commit (.moved places.1 places.2) := by
  unfold Disk.rename at h
  split at h
  · cases h
  rename_i hnul
  rw [Bool.not_eq_true, Bool.or_eq_false_iff] at hnul
  refine ⟨hnul.1, hnul.2, ?_⟩
  split at h
  · cases h
  · rename_i hplaces
    cases h
    exact ⟨_, hplaces, rfl⟩
  · rename_i hplaces
    cases h
    exact ⟨_, hplaces, rfl⟩

/-- An entry can be put where nothing is. -/
theorem Tree.replacing_of_free {t : Tree} {dst : Place} (node : Node) (hfree : t.node? dst = none) :
    t.replacing node dst = .ok () := by
  unfold replacing
  rw [hfree]

/-- Something is there if nothing can be put there, and the refusal says what. -/
theorem Tree.replacing_eq_error {t : Tree} {node : Node} {dst : Place} {errno : Errno}
    (h : t.replacing node dst = .error errno) :
    t.node? dst ≠ none ∧ (errno = .notEmpty ∨ errno = .notDirectory ∨ errno = .isDirectory) := by
  refine ⟨fun hfree => ?_, ?_⟩
  · rw [replacing_of_free node hfree] at h
    cases h
  · unfold replacing at h
    split at h
    · cases h
    · split at h <;> cases h
      exact .inl rfl
    · cases h
      exact .inr (.inl rfl)
    · cases h
      exact .inr (.inr rfl)
    · cases h

/-- There is nothing below what may be replaced. -/
theorem Tree.WellFormed.bare_of_replacing {t : Tree} {node : Node} {dst : Place} (ht : t.WellFormed)
    (h : t.replacing node dst = .ok ()) {rest : List String} (hrest : rest ≠ []) :
    t.node? (dst ++ rest) = none := by
  by_cases hdir : t.isDirectory dst = true
  · have hempty : t.below dst = [] := by
      unfold replacing at h
      rw [isDirectory_iff.mp hdir] at h
      cases node with
      | directory => simpa using h
      | file content => cases h
      | link target => cases h
    by_contra hnode
    obtain ⟨found, hnode⟩ := Option.ne_none_iff_exists'.mp hnode
    have hmem := (ht.node?_eq_some_iff (by simp [hrest])).mp hnode
    have hbelow : (rest, found) ∈ t.below dst := mem_below_iff.mpr ⟨hrest, hmem⟩
    rw [hempty] at hbelow
    cases hbelow
  · exact ht.node?_below_eq_none (by simpa using hdir) hrest

/-- A tree is well formed after a renaming to a plain name. -/
theorem Disk.wellFormed_rename {d d' : Disk} {src dst : Route} (ht : d.tree.WellFormed)
    (h : d.rename src dst = .ok d') (hname : ∀ name, dst.lastName? = some name → IsPlain name) :
    d'.tree.WellFormed := by
  obtain ⟨-, -, places, hplaces, rfl⟩ := renamePlaces_of_rename h
  obtain ⟨srcParent, dstParent, x, y, node, -, hparent, -, hlast, -, hsize, hbelow, hbelow',
    ⟨-, rfl⟩ | ⟨hne, hreplacing, rfl⟩⟩ := exists_of_renamePlaces hplaces
  · exact ht
  obtain ⟨-, hstart, n, -, hleads⟩ := (parentOf_eq_ok_iff ht).mp hparent
  refine ht.move (fun hpre => ?_) (fun hpre => ?_) (fun _ => ht.bare_of_replacing hreplacing)
    (hleads.isDirectory ht hstart) (isEntryName_iff.mpr ⟨hname y hlast, hsize⟩)
  · exact (List.prefix_concat_iff.mp hpre).elim hne hbelow
  · exact (List.prefix_concat_iff.mp hpre).elim (fun heq => hne heq.symm) hbelow'

/-! ## What is found in a directory -/

namespace Disk

/-- Names below a root lead to the directory `parent`. -/
structure Enters (d : Disk) (root : Path) (front : List String) (parent : Place) : Prop where
  start : d.tree.isDirectory (root.route.startAt d.here) = true
  leads : ∃ n ≤ linkLimit,
    d.tree.Leads n (root.route.startAt d.here) (root.segments ++ front) parent

variable {d : Disk} {root : Path} {front : List String} {parent other : Place} {name : String}
  {last : LastStep} {node : Node}

theorem Enters.unique (h : d.Enters root front parent) (h' : d.Enters root front other) :
    parent = other := by
  obtain ⟨n, -, hleads⟩ := h.leads
  obtain ⟨m, -, hleads'⟩ := h'.leads
  exact (hleads.unique hleads').2

/-- The path of a directory leads there. -/
theorem enters_of_directoryAt? (ht : d.tree.WellFormed) (hroot : root.IsNormal)
    (h : d.directoryAt? root = some parent) : d.Enters root [] parent := by
  obtain ⟨hstart, n, hn, hleads⟩ := leads_of_directoryAt? ht h
  exact ⟨hstart, n, hn, by simpa using Path.leads_segments hroot hleads⟩

/-- The names of directories below that of a path lead down from it. -/
theorem enters_below {top : Place} (ht : d.tree.WellFormed) (hroot : root.IsNormal)
    (htop : d.directoryAt? root = some top) (hdir : d.tree.isDirectory (top ++ front) = true) :
    d.Enters root front (top ++ front) := by
  obtain ⟨hstart, n, hn, hleads⟩ := leads_of_directoryAt? ht htop
  exact ⟨hstart, n, hn, (Path.leads_segments hroot hleads).append (leads_below ht hdir)⟩

/-- The names of directories, taken from the top, are a path to the last of them. -/
theorem directoryAt?_of_isDirectory {names : List String} (ht : d.tree.WellFormed)
    (hhere : d.here = []) (hne : names ≠ []) (hdir : d.tree.isDirectory names = true)
    (hshort : (⟨.relative, names⟩ : Path).route.isTooLong = false) :
    d.directoryAt? ⟨.relative, names⟩ = some names := by
  have hnames : (⟨.relative, names⟩ : Path).route.names = names := by simp [Path.route, hne]
  have hstart : (⟨.relative, names⟩ : Path).route.startAt d.here = [] := by
    rw [hhere]
    rfl
  refine directoryAt?_eq_some_iff.mpr ⟨?_, hshort, ?_, hdir⟩
  · rw [Route.hasNul, hnames, List.any_eq_false]
    intro name hname
    simpa using (ht.isPlain (isDirectory_iff.mp hdir) hname).nul
  · rw [steps_route, hnames, hstart]
    have hleads : d.tree.Leads 0 [] names names := leads_below ht hdir
    exact hleads.walk_eq ht (isDirectory_nil _) (Nat.zero_le _)

theorem Enters.isDirectory (h : d.Enters root front parent) (ht : d.tree.WellFormed) :
    d.tree.isDirectory parent = true := by
  obtain ⟨n, -, hleads⟩ := h.leads
  exact hleads.isDirectory ht h.start

theorem Enters.walk_eq (h : d.Enters root front parent) (ht : d.tree.WellFormed) :
    d.tree.walk .follow linkLimit (root.route.startAt d.here) (root.segments ++ front) =
      .ok (.entry parent) := by
  obtain ⟨n, hn, hleads⟩ := h.leads
  exact hleads.walk_eq ht h.start hn

/-- The walk to an entry of a directory goes on from the directory. -/
theorem Enters.find_eq (h : d.Enters root front parent) (ht : d.tree.WellFormed)
    (hlast : last ≠ .make) (hnul : (root.below (front ++ [name])).route.hasNul = false)
    (hlong : (root.below (front ++ [name])).route.isTooLong = false) :
    ∃ k, d.find (root.below (front ++ [name])).route last =
      orFault (d.tree.walk last k parent [name]) := by
  obtain ⟨n, hn, hleads⟩ := h.leads
  refine ⟨linkLimit - n, ?_⟩
  have hne : front ++ [name] ≠ [] := by simp
  have hsteps : (root.below (front ++ [name])).route.steps = root.segments ++ front ++ [name] := by
    rw [Path.route_below hne, List.append_assoc]; rfl
  rw [find, hnul, lookUp, hlong, Path.startAt_below hne, hsteps,
    hleads.walk_append ht h.start hlast (by simp) hn]
  rfl

/-- An entry of a directory that is no link is what its path leads to. -/
theorem Enters.find_entry (h : d.Enters root front parent) (ht : d.tree.WellFormed)
    (hname : IsName name) (hnul : (root.below (front ++ [name])).route.hasNul = false)
    (hlong : (root.below (front ++ [name])).route.isTooLong = false)
    (hnode : d.tree.node? (parent ++ [name]) = some node) (hlink : ∀ target, node ≠ .link target) :
    d.find (root.below (front ++ [name])).route .follow = .ok (.entry (parent ++ [name])) := by
  obtain ⟨k, hfind⟩ : ∃ k, d.find _ .follow = orFault (d.tree.walk .follow k parent [name]) :=
    h.find_eq ht (by decide) hnul hlong
  have hsize := ht.size_le hnode (List.mem_append_right _ List.mem_cons_self)
  rw [hfind, walk_entry (h.isDirectory ht) (by decide) hname hsize hnode hlink]
  rfl

/-- Whether there is an entry with a name in a directory. -/
theorem Enters.hasEntry_eq (h : d.Enters root front parent) (ht : d.tree.WellFormed)
    (hname : IsName name) (hnul : (root.below (front ++ [name])).route.hasNul = false)
    (hlong : (root.below (front ++ [name])).route.isTooLong = false) :
    d.hasEntry (root.below (front ++ [name])).route = true ↔
      name.utf8ByteSize ≤ nameLimit ∧ d.tree.node? (parent ++ [name]) ≠ none := by
  obtain ⟨k, hfind⟩ : ∃ k, d.find _ .stay = orFault (d.tree.walk .stay k parent [name]) :=
    h.find_eq ht (by decide) hnul hlong
  rw [hasEntry, hfind, walk_name (h.isDirectory ht) (by simp) hname]
  by_cases hsize : nameLimit < name.utf8ByteSize
  · rw [if_pos hsize]
    simp only [orFault, Bool.false_eq_true, false_iff, not_and]
    omega
  · rw [if_neg hsize]
    cases hnode : d.tree.node? (parent ++ [name]) with
    | none => simp [orFault]
    | some node =>
      cases node with
      | directory => simp [walk_nil (isDirectory_iff.mpr hnode), orFault, Nat.not_lt.mp hsize]
      | file content => simp [orFault, Nat.not_lt.mp hsize]
      | link target => simp [orFault, Nat.not_lt.mp hsize]

/-- There is nothing at a path that no call takes. -/
theorem hasEntry_eq_false_of {route : Route} (h : route.hasNul = true ∨ route.isTooLong = true) :
    d.hasEntry route = false := by
  unfold hasEntry find lookUp
  by_cases hnul : route.hasNul = true
  · simp [hnul]
  · simp [hnul, h.resolve_left hnul, orFault]

/-- An entry that is found at a path is in the directory to which the names before it lead. -/
theorem exists_of_hasEntry (ht : d.tree.WellFormed) (hname : IsName name)
    (h : d.hasEntry (root.below (front ++ [name])).route = true) :
    ∃ parent, d.Enters root front parent ∧ d.tree.node? (parent ++ [name]) ≠ none := by
  have hne : front ++ [name] ≠ [] := by simp
  have hnul : (root.below (front ++ [name])).route.hasNul = false := by
    by_contra hnul
    rw [hasEntry_eq_false_of (.inl (by simpa using hnul))] at h
    cases h
  have hlong : (root.below (front ++ [name])).route.isTooLong = false := by
    by_contra hlong
    rw [hasEntry_eq_false_of (.inr (by simpa using hlong))] at h
    cases h
  have hsteps : (root.below (front ++ [name])).route.steps = root.segments ++ front ++ [name] := by
    rw [Path.route_below hne, List.append_assoc]; rfl
  obtain ⟨landing, hwalk⟩ : ∃ landing, d.tree.walk .stay linkLimit (root.route.startAt d.here)
      (root.segments ++ front ++ [name]) = .ok landing := by
    rw [hasEntry, find, hnul, lookUp, hlong, Path.startAt_below hne, hsteps] at h
    simp only [Bool.false_eq_true, if_false] at h
    cases hwalk : d.tree.walk .stay linkLimit (root.route.startAt d.here)
        (root.segments ++ front ++ [name]) with
    | error errno => rw [hwalk] at h; simp [orFault] at h
    | ok landing => exact ⟨landing, rfl⟩
  have hstart := isDirectory_of_walk hwalk
  obtain ⟨n, parent, hn, hleads, -, -⟩ :=
    walk_append ht hstart (by decide) (fun hnil => absurd hnil (by simp)) hwalk
  have henters : d.Enters root front parent := ⟨hstart, n, hn, hleads⟩
  exact ⟨parent, henters, ((henters.hasEntry_eq ht hname hnul hlong).mp h).2⟩

/-- The directory in which the last step of a path is taken. -/
theorem parentOf_eq_ok_iff (ht : d.tree.WellFormed) :
    d.tree.parentOf d.here (root.below (front ++ [name])).route = .ok parent ↔
      (root.below (front ++ [name])).route.isTooLong = false ∧ d.Enters root front parent := by
  have hne : front ++ [name] ≠ [] := by simp
  have hnames : (root.below (front ++ [name])).route.names.dropLast = root.segments ++ front := by
    rw [Path.route_below hne, ← List.append_assoc, List.dropLast_concat]
  rw [Tree.parentOf_eq_ok_iff ht, Path.startAt_below hne, hnames]
  exact and_congr_right' ⟨fun ⟨hstart, hleads⟩ => ⟨hstart, hleads⟩, fun h => ⟨h.start, h.leads⟩⟩

/-! ## Renaming -/

variable {x y : String} {d' : Disk}

theorem lastName?_below (hname : IsName name) :
    (root.below (front ++ [name])).route.lastName? = some name := by
  have hlast : (root.segments ++ (front ++ [name])).getLast? = some name := by simp
  unfold Route.lastName?
  rw [Path.route_below (by simp), hlast]
  simp [hname.ne_dot, hname.ne_dots]

/-- What the renaming of an entry of a directory does. -/
theorem Enters.rename_eq (h : d.Enters root front parent) (ht : d.tree.WellFormed)
    (hx : IsName x) (hy : IsName y) (hxy : x ≠ y)
    (hnul : (root.below (front ++ [x])).route.hasNul = false)
    (hnul' : (root.below (front ++ [y])).route.hasNul = false)
    (hnode : d.tree.node? (parent ++ [x]) = some node) :
    d.rename (root.below (front ++ [x])).route (root.below (front ++ [y])).route =
      if (root.below (front ++ [x])).route.isTooLong || (root.below (front ++ [y])).route.isTooLong
          || decide (nameLimit < y.utf8ByteSize) then .error (.refused .nameTooLong)
      else
        match d.tree.replacing node (parent ++ [y]) with
        | .error errno => .error (.refused errno)
        | .ok () => .ok (d.commit (.moved (parent ++ [x]) (parent ++ [y]))) := by
  have hne : ∀ name, front ++ [name] ≠ [] := by simp
  have hlong : ∀ name, (root.below (front ++ [name])).route.isTooLong = true →
      d.tree.parentOf d.here (root.below (front ++ [name])).route = .error .nameTooLong := by
    intro name hlong
    rw [parentOf, if_pos hlong]
  have hparent : ∀ name, (root.below (front ++ [name])).route.isTooLong = false →
      d.tree.parentOf d.here (root.below (front ++ [name])).route = .ok parent :=
    fun name hshort => (parentOf_eq_ok_iff ht).mpr ⟨hshort, h⟩
  have hslash : ∀ name, (root.below (front ++ [name])).route.endsInSlash = false := by
    intro name
    rw [Path.route_below (hne name)]
  have hsize : ¬ nameLimit < x.utf8ByteSize :=
    Nat.not_lt.mpr (ht.size_le hnode (by simp))
  have hbelow : ∀ name, (parent ++ [name]).isPrefixOf parent = false := by
    intro name
    rw [← Bool.not_eq_true, List.isPrefixOf_iff_prefix]
    intro hpre
    have := hpre.length_le
    simp only [List.length_append, List.length_singleton] at this
    omega
  rw [rename, hnul, hnul']
  simp only [Bool.or_self, Bool.false_eq_true, if_false]
  unfold renamePlaces
  by_cases hx' : (root.below (front ++ [x])).route.isTooLong = true
  · simp [hlong x hx', hx', bind, Except.bind]
  rw [Bool.not_eq_true] at hx'
  by_cases hy' : (root.below (front ++ [y])).route.isTooLong = true
  · simp [hparent x hx', hlong y hy', hy', bind, Except.bind]
  rw [Bool.not_eq_true] at hy'
  simp only [hparent x hx', hparent y hy', lastName?_below hx, lastName?_below hy, entryIn, hsize,
    if_false, hnode, bind, Except.bind, hx', hy', Bool.false_or, decide_eq_true_eq]
  by_cases hlongName : nameLimit < y.utf8ByteSize
  · simp [hlongName]
  · simp only [hlongName, if_false, hslash, Bool.or_self, Bool.and_false, Bool.false_eq_true,
      hbelow, List.append_cancel_left_eq, List.cons.injEq, and_true, hxy]
    cases d.tree.replacing node (parent ++ [y]) with
    | error errno => rfl
    | ok _ => rfl

/-- A renaming within a directory that succeeds has had a directory and a source. -/
theorem exists_of_rename (ht : d.tree.WellFormed) (hx : IsName x)
    (h : d.rename (root.below (front ++ [x])).route (root.below (front ++ [y])).route = .ok d') :
    (root.below (front ++ [x])).route.hasNul = false ∧
      (root.below (front ++ [y])).route.hasNul = false ∧
      ∃ parent node, d.Enters root front parent ∧ d.tree.node? (parent ++ [x]) = some node := by
  obtain ⟨hnul, hnul', places, hplaces, -⟩ := renamePlaces_of_rename h
  obtain ⟨parent, _, x', _, node, hparent, -, hlast, -, hnode, -⟩ := exists_of_renamePlaces hplaces
  obtain rfl : x = x' := Option.some.inj ((lastName?_below hx).symm.trans hlast)
  exact ⟨hnul, hnul', parent, node, ((parentOf_eq_ok_iff ht).mp hparent).2, hnode⟩

end Disk

end Recase
