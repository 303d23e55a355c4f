import Recase.Path.Route
import Recase.Proofs.Frame

/-!
# Walked routes

The version-control tool takes the text of a path below the text of its root. Its route leads where
the path below the root does.

* `Route.names_ofText_joinText`: the steps of a text below another are those of both.
* `Path.names_walkedRoute`, `Path.startAt_walkedRoute`: the steps of a walked route, and where it
  starts. `Disk.enters_of_parentOf_walked`, `Enters.hasEntry_walked`: what they find.
* `Disk.RenamesWithin`: an entry has got another name in its directory, a free one.
  `Disk.renamesWithin_of_toolMove`: the tool does nothing else.
-/

namespace Recase

open Name Text Recase.Tree

/-! ## Texts below others -/

namespace Route

variable {top path : String}

/-- The steps of two texts with a slash between them. -/
theorem names_ofText_slash (top path : String) :
    (ofText (top ++ "/" ++ path)).names = (ofText top).names ++ (ofText path).names := by
  simp only [ofText, pieces_append_slash, List.filter_append, List.map_append]

/-- The steps of a text below another. -/
theorem names_ofText_joinText (hpath : path.toList.head? ≠ some '/') :
    (ofText (PathText.joinText top path)).names = (ofText top).names ++ (ofText path).names := by
  unfold PathText.joinText
  rw [if_neg hpath]
  split
  · rename_i htop
    rcases eq_or_ne top "" with rfl | hne
    · simp [ofText, pieces]
    · have hlast : top.toList.getLast? = some '/' := by simpa [hne] using htop
      obtain ⟨cs, hcs⟩ := List.getLast?_eq_some_iff.mp hlast
      obtain rfl : top = String.ofList cs ++ "/" := String.toList_injective (by simpa using hcs)
      have hslash := names_ofText_slash (String.ofList cs) ""
      rw [String.append_empty] at hslash
      rw [names_ofText_slash, hslash]
      simp [ofText, pieces]
  · exact names_ofText_slash top path

theorem isAbsolute_ofText_joinText (hpath : path.toList.head? ≠ some '/') :
    (ofText (PathText.joinText top path)).isAbsolute = (ofText top).isAbsolute := by
  have hhead :
      (PathText.joinText top path).toList.head? = some '/' ↔ top.toList.head? = some '/' := by
    unfold PathText.joinText
    rw [if_neg hpath]
    rcases eq_or_ne top "" with rfl | hne
    · simp [hpath]
    · obtain ⟨c, cs, hc⟩ := List.exists_cons_of_ne_nil (l := top.toList) (by simpa using hne)
      split <;> simp [hc]
  exact Bool.eq_iff_iff.mpr (by simpa [ofText] using hhead)

theorem endsInSlash_ofText_joinText (hpath : path ≠ "") :
    (ofText (PathText.joinText top path)).endsInSlash = (ofText path).endsInSlash := by
  obtain ⟨c, hc⟩ : ∃ c, path.toList.getLast? = some c :=
    ⟨_, List.getLast?_eq_some_getLast (by simpa using hpath)⟩
  have hlast : (PathText.joinText top path).toList.getLast? = path.toList.getLast? := by
    unfold PathText.joinText
    split
    · rfl
    · split <;> simp [List.getLast?_cons, hc]
  simp only [ofText, hlast]

end Route

/-! ## Texts below roots -/

namespace Path

variable {root : Path} {names front : List String} {name : String}

section

variable (hne : names ≠ []) (hnames : ∀ n ∈ names, IsPlain n)
include hne hnames

theorem pathText_cons_ne : (pathText names).toList.head? ≠ some '/' ∧ pathText names ≠ "" := by
  obtain ⟨n, rest, rfl⟩ := List.exists_cons_of_ne_nil hne
  have hn := hnames n (by simp)
  refine ⟨head?_pathText_cons hn.ne_empty hn.slash, fun he => ?_⟩
  exact hne (pathText_injective hnames (by simp) (he.trans pathText_nil.symm))

omit hnames in
theorem walkedRoute_eq : root.walkedRoute names =
    Route.ofText (PathText.joinText root.toString (pathText names)) := by
  rw [walkedRoute, walkedText, if_neg (by simpa using hne)]
  rfl

theorem names_walkedRoute :
    (root.walkedRoute names).names = (Route.ofText root.toString).names ++ names := by
  rw [walkedRoute_eq hne, Route.names_ofText_joinText (pathText_cons_ne hne hnames).1,
    names_ofText (pathText names), segments_pathText hne fun n hn => (hnames n hn).slash,
      List.filter_eq_self.mpr]
  exact fun n hn => by simpa using (hnames n hn).ne_empty

theorem steps_walkedRoute :
    (root.walkedRoute names).steps = (Route.ofText root.toString).names ++ names := by
  have hslash : (root.walkedRoute names).endsInSlash = false := by
    obtain ⟨hhead, hempty⟩ := pathText_cons_ne hne hnames
    rw [walkedRoute_eq hne, Route.endsInSlash_ofText_joinText hempty]
    simpa [Route.ofText] using getLast?_pathText hnames
  rw [Route.steps, hslash, names_walkedRoute hne hnames]
  rfl

theorem startAt_walkedRoute (hroot : root.IsNormal) (here : Place) :
    (root.walkedRoute names).startAt here = root.route.startAt here := by
  have habsolute : (root.walkedRoute names).isAbsolute = root.route.isAbsolute := by
    rw [walkedRoute_eq hne, Route.isAbsolute_ofText_joinText (pathText_cons_ne hne hnames).1]
    have hhead := Path.head?_toString hroot
    cases hrel : root.isRelative <;> simpa [Route.ofText, route, hrel] using hhead
  rw [Route.startAt, Route.startAt, habsolute]

end

theorem lastName?_walkedRoute (hnames : ∀ n ∈ front ++ [name], IsPlain n) :
    (root.walkedRoute (front ++ [name])).lastName? = some name := by
  have hname := (hnames name (by simp)).isName
  rw [Route.lastName?, names_walkedRoute (by simp) hnames, ← List.append_assoc,
    List.getLast?_concat]
  simp [hname.ne_dot, hname.ne_dots]

/-- The steps of the text of a root and names after it are the segments and the names, but for those
that are passed over. -/
theorem filter_names_ofText_append (hroot : root.IsNormal) (names : List String) :
    ((Route.ofText root.toString).names ++ names).filter isTaken =
      (root.segments ++ names).filter isTaken := by
  rw [List.filter_append, List.filter_append, filter_names_ofText, filter_segments_toString hroot,
    hroot.filter_segments]

end Path

namespace Disk

variable {d d' : Disk} {root : Path} {front : List String} {x y name : String} {parent : Place}

section

variable (ht : d.tree.WellFormed) (hroot : root.IsNormal)
  (hnames : ∀ n ∈ front ++ [name], IsPlain n)
include ht hroot hnames

/-- The last step of a walked route is taken in the directory to which the names before it lead
below the root. -/
theorem enters_of_parentOf_walked
    (h : d.tree.parentOf d.here (root.walkedRoute (front ++ [name])) = .ok parent) :
    (root.walkedRoute (front ++ [name])).isTooLong = false ∧ d.Enters root front parent := by
  obtain ⟨hshort, hstart, n, hn, hleads⟩ := (Tree.parentOf_eq_ok_iff ht).mp h
  rw [Path.startAt_walkedRoute (by simp) hnames hroot] at hstart hleads
  rw [Path.names_walkedRoute (by simp) hnames, ← List.append_assoc, List.dropLast_concat] at hleads
  exact ⟨hshort, hstart, n, hn, hleads.of_filter (Path.filter_names_ofText_append hroot front)⟩

/-- An entry of a directory is found by its walked route. -/
theorem Enters.hasEntry_walked (h : d.Enters root front parent) {node : Node}
    (hlink : ∀ target, node ≠ .link target)
    (hnul : (root.walkedRoute (front ++ [name])).hasNul = false)
    (hshort : (root.walkedRoute (front ++ [name])).isTooLong = false)
    (hnode : d.tree.node? (parent ++ [name]) = some node) :
    d.hasEntry (root.walkedRoute (front ++ [name])) = true := by
  obtain ⟨n, hn, hleads⟩ := h.leads
  have hleads := hleads.of_filter (Path.filter_names_ofText_append hroot front).symm
  have hsize := ht.size_le hnode (List.mem_append_right _ List.mem_cons_self)
  have hwalk : d.tree.walk .stay linkLimit (root.route.startAt d.here)
      ((Route.ofText root.toString).names ++ front ++ [name]) =
          .ok (.entry (parent ++ [name])) := by
    rw [hleads.walk_append ht h.start (by decide) (by simp) hn]
    exact walk_entry (h.isDirectory ht) (by decide)
      (hnames name (by simp)).isName hsize hnode hlink _
  rw [hasEntry, find, hnul, lookUp, hshort, Path.steps_walkedRoute (by simp) hnames,
    Path.startAt_walkedRoute (by simp) hnames hroot, ← List.append_assoc, hwalk]
  rfl

end

/-- An entry of the directory to which names below a root lead has got another name there, under
which there was nothing. -/
inductive RenamesWithin (d : Disk) (root : Path) (front : List String) (x y : String) : Disk → Prop
  | moved {parent : Place} {node : Node} (henters : d.Enters root front parent)
      (hnode : d.tree.node? (parent ++ [x]) = some node)
      (hfree : d.tree.node? (parent ++ [y]) = none)
      (hsize : y.utf8ByteSize ≤ nameLimit) :
      RenamesWithin d root front x y (d.commit (.moved (parent ++ [x]) (parent ++ [y])))

theorem RenamesWithin.wellFormed (h : d.RenamesWithin root front x y d') (ht : d.tree.WellFormed)
    (hy : IsPlain y) : d'.tree.WellFormed := by
  obtain ⟨-, hnode, hfree, hsize⟩ := h
  exact ht.move_within hnode hfree (isEntryName_iff.mpr ⟨hy, hsize⟩)

/-- What a move by the tool within a directory has done, if it has done anything. -/
theorem renamesWithin_of_toolMove (ht : d.tree.WellFormed) (hlinks : d.tree.LinkFree)
    (hroot : root.IsNormal) (hx : ∀ n ∈ front ++ [x], IsPlain n)
    (hy : ∀ n ∈ front ++ [y], IsPlain n) :
    (d.toolMove ⟨pathText (front ++ [x]), pathText (front ++ [y]), root.toString⟩).2 = d ∨
      d.RenamesWithin root front x y
        (d.toolMove ⟨pathText (front ++ [x]), pathText (front ++ [y]), root.toString⟩).2 := by
  unfold toolMove
  simp only [← Path.walkedRoute_eq (show front ++ [x] ≠ [] by simp),
    ← Path.walkedRoute_eq (show front ++ [y] ≠ [] by simp)]
  split
  · exact .inl rfl
  split
  · exact .inl rfl
  rename_i hfree
  split
  · rename_i moved hrename
    obtain ⟨hnul, hnul', places, hplaces, rfl⟩ := renamePlaces_of_rename hrename
    obtain ⟨parent, parent', x', y', node, hparent, hparent', hlast, hlast',
        hnode, hsize, -, -, hcases⟩ :=
      exists_of_renamePlaces hplaces
    obtain rfl := Option.some.inj ((Path.lastName?_walkedRoute hx).symm.trans hlast)
    obtain rfl := Option.some.inj ((Path.lastName?_walkedRoute hy).symm.trans hlast')
    obtain ⟨-, henters⟩ := enters_of_parentOf_walked ht hroot hx hparent
    obtain ⟨hshort, henters'⟩ := enters_of_parentOf_walked ht hroot hy hparent'
    obtain rfl := henters.unique henters'
    obtain ⟨-, rfl⟩ | ⟨-, -, rfl⟩ := hcases
    · exact .inl rfl
    refine .inr (.moved henters hnode ?_ hsize)
    by_contra hother
    obtain ⟨other, hother⟩ := Option.ne_none_iff_exists'.mp hother
    refine hfree (henters.hasEntry_walked ht hroot hy (fun target he => ?_) hnul' hshort hother)
    exact hlinks _ target (he ▸ hother)
  · exact .inl rfl
  · exact .inl rfl

end Disk

end Recase
