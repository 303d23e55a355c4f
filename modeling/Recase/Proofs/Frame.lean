import Recase.Proofs.Move
import Recase.Proofs.Preview
import Recase.Proofs.Tree.Move

/-!
# What a plain move leaves alone

A plain move of any path to any other, links and all.

* `Disk.EndsAt`: the place at the end of a path, a link there being the end.
* `Disk.exists_of_rename_eq_ok`: what a renaming of any path has done that succeeds.
* `directMove_frame`: a move that fails changes nothing, and one that succeeds carries one entry and
  leaves all others alone, but for a file or a link that it takes for its source.
-/

namespace Recase

open Name Recase.Tree

/-! ## The ends of paths -/

/-- The path ends at the place, where there may be an entry or none. A link there is not
followed. -/
def Disk.EndsAt (d : Disk) (path : Path) (place : Place) : Prop :=
  d.find path.route .stay =
    .ok (if d.tree.node? place = none then .vacant place else .entry place)

variable {d d' : Disk} {t : Tree} {here parent place : Place} {node other : Node}
  {path root directory : Path} {name : String} {front : List String} {m : Move}
  {failure? : Option Failure}

/-- A path with a last name is that of an entry of the path above. -/
theorem Path.eq_below_of_lastName? (h : path.IsNormal) (hname : path.route.lastName? = some name) :
    IsName name ∧ path = path.parent.below ([] ++ [name]) := by
  unfold Route.lastName? at hname
  split at hname
  · rename_i last hlast
    split at hname
    · cases hname
    · rename_i hdots
      cases hname
      rw [Bool.or_eq_true, decide_eq_true_eq, decide_eq_true_eq, not_or] at hdots
      have hmem : name ∈ path.segments := by
        have hnames := List.mem_of_getLast? hlast
        unfold Path.route at hnames
        dsimp only at hnames
        split at hnames
        · exact absurd (List.mem_singleton.mp hnames) hdots.1
        · exact hnames
      have hsegments : path.route.names = path.segments := by
        unfold Path.route
        rw [if_neg]
        simp [List.ne_nil_of_mem hmem]
      have htaken := (h name hmem).1
      refine ⟨⟨?_, hdots.1, hdots.2⟩, ?_⟩
      · rintro rfl
        cases htaken
      · rw [hsegments] at hlast
        obtain ⟨anchor, segments⟩ := path
        obtain ⟨above, rfl⟩ := List.getLast?_eq_some_iff.mp hlast
        simp [Path.parent, Path.below]
  · cases hname

/-- The path of an entry of a directory ends at it. -/
theorem Disk.Enters.endsAt (h : d.Enters root front parent) (ht : d.tree.WellFormed)
    (hname : IsName name) (hnul : (root.below (front ++ [name])).route.hasNul = false)
    (hlong : (root.below (front ++ [name])).route.isTooLong = false)
    (hsize : name.utf8ByteSize ≤ nameLimit) :
    d.EndsAt (root.below (front ++ [name])) (parent ++ [name]) := by
  obtain ⟨k, hfind⟩ : ∃ k, d.find _ .stay = Disk.orFault (d.tree.walk .stay k parent [name]) :=
    h.find_eq ht (by decide) hnul hlong
  unfold Disk.EndsAt
  rw [hfind, walk_name (h.isDirectory ht) (by simp) hname, if_neg (Nat.not_lt.mpr hsize)]
  cases hnode : d.tree.node? (parent ++ [name]) with
  | none => rfl
  | some node =>
    cases node with
    | directory =>
      dsimp only
      rw [walk_nil (isDirectory_iff.mpr hnode)]
      rfl
    | file content => rfl
    | link target => rfl

/-- A walk that ends at what is no link is the same whether links there are followed or not. -/
theorem Tree.walk_follow_of_stay (ht : t.WellFormed) {k : Nat} {steps : List String}
    (h : t.walk .stay k here steps = .ok (.entry place))
    (hnode : t.node? place = some node) (hlink : ∀ target, node ≠ .link target) :
    t.walk .follow k here steps = .ok (.entry place) := by
  have hhere := isDirectory_of_walk h
  rcases List.eq_nil_or_concat steps with rfl | ⟨front, last, rfl⟩
  · rw [walk_nil hhere] at h ⊢
    exact h
  rw [List.concat_eq_append] at h ⊢
  obtain ⟨n, parent, hn, hleads, hparent, hend⟩ :=
    walk_append ht hhere (by decide) (fun hnil => absurd hnil (by simp)) h
  have hfollow : t.walk .follow k here (front ++ [last]) = t.walk .follow (k - n) parent [last] :=
    hleads.walk_append ht hhere (by decide) (by simp) hn
  rw [hfollow]
  rcases step_cases last with hstep | rfl | hname
  · rw [walk_skip hstep, walk_nil hparent] at hend ⊢
    exact hend
  · rw [walk_up ht hparent, walk_nil (ht.isDirectory_dropLast hparent)] at hend ⊢
    exact hend
  · rw [walk_name hparent (by simp) hname] at hend
    split at hend
    · cases hend
    rename_i hsize
    have hplace : parent ++ [last] = place := by
      split at hend <;> rename_i hlast
      · cases hend
      · rw [walk_nil (isDirectory_iff.mpr hlast)] at hend
        cases hend
        rfl
      · cases hend
        rfl
      · cases hend
        rfl
    rw [← hplace] at hnode ⊢
    exact walk_entry hparent (by decide) hname (Nat.not_lt.mp hsize) hnode hlink _

/-- An entry at the end of a path that is no link is what the path leads to. -/
theorem Disk.EndsAt.find_follow (h : d.EndsAt path place) (ht : d.tree.WellFormed)
    (hnode : d.tree.node? place = some node) (hlink : ∀ target, node ≠ .link target) :
    d.find path.route .follow = .ok (.entry place) := by
  unfold Disk.EndsAt at h
  rw [if_neg (by simp [hnode])] at h
  obtain ⟨hnul, hshort, hwalk⟩ := Disk.find_eq_ok_iff.mp h
  exact Disk.find_eq_ok_iff.mpr ⟨hnul, hshort, walk_follow_of_stay ht hwalk hnode hlink⟩

theorem Disk.EndsAt.hasEntry_eq (h : d.EndsAt path place) :
    d.hasEntry path.route = true ↔ d.tree.node? place ≠ none := by
  unfold Disk.hasEntry
  rw [h]
  by_cases hnone : d.tree.node? place = none
  · simp [hnone]
  · simp [hnone]

/-! ## Renaming -/

/-- What a renaming has done that succeeds, if it has done anything. -/
theorem Disk.exists_of_rename_eq_ok (ht : d.tree.WellFormed) {src dst : Path} (hsrc : src.IsNormal)
    (hdst : dst.IsNormal) (h : d.rename src.route dst.route = .ok d') :
    ∃ srcPlace dstPlace node, d.EndsAt src srcPlace ∧ d.EndsAt dst dstPlace ∧
      d.tree.node? srcPlace = some node ∧
      (srcPlace = dstPlace ∧ d' = d ∨
        ¬ srcPlace <+: dstPlace ∧ ¬ dstPlace <+: srcPlace ∧
          d.tree.replacing node dstPlace = .ok () ∧ d' = d.commit (.moved srcPlace dstPlace)) := by
  obtain ⟨hnul, hnul', places, hplaces, rfl⟩ := Disk.renamePlaces_of_rename h
  obtain ⟨srcParent, dstParent, x, y, node, hsrcParent, hdstParent, hx, hy, hnode, hsize, hbelow,
    hbelow', hcases⟩ := exists_of_renamePlaces hplaces
  obtain ⟨hx, hsrcBelow⟩ := Path.eq_below_of_lastName? hsrc hx
  obtain ⟨hy, hdstBelow⟩ := Path.eq_below_of_lastName? hdst hy
  rw [hsrcBelow] at hsrcParent hnul
  rw [hdstBelow] at hdstParent hnul'
  obtain ⟨hshort, henters⟩ := (Disk.parentOf_eq_ok_iff ht).mp hsrcParent
  obtain ⟨hshort', henters'⟩ := (Disk.parentOf_eq_ok_iff ht).mp hdstParent
  have hsize' := ht.size_le hnode (List.mem_append_right _ List.mem_cons_self)
  refine ⟨srcParent ++ [x], dstParent ++ [y], node, ?_, ?_, hnode, ?_⟩
  · rw [hsrcBelow]
    exact henters.endsAt ht hx hnul hshort hsize'
  · rw [hdstBelow]
    exact henters'.endsAt ht hy hnul' hshort' hsize
  · rcases hcases with ⟨hsame, rfl⟩ | ⟨hne, hreplacing, rfl⟩
    · exact .inl ⟨hsame, rfl⟩
    · refine .inr ⟨?_, ?_, hreplacing, rfl⟩
      · rw [List.prefix_concat_iff]
        exact not_or.mpr ⟨hne, hbelow⟩
      · rw [List.prefix_concat_iff]
        exact not_or.mpr ⟨hne.symm, hbelow'⟩

/-! ## Plain moves -/

/-- Of two paths that lead to one entry but end at different ones, one ends at a link. -/
theorem exists_link_of_isSameEntry (ht : d.tree.WellFormed) {src dst : Path}
    {srcPlace dstPlace : Place} (hsrc : d.EndsAt src srcPlace) (hdst : d.EndsAt dst dstPlace)
    (hne : srcPlace ≠ dstPlace)
    (hnode : d.tree.node? srcPlace = some node) (hother : d.tree.node? dstPlace = some other)
    (h : d.isSameEntry src dst = .ok true) :
    (∃ target, node = .link target) ∨ ∃ target, other = .link target := by
  by_contra hnone
  rw [not_or, not_exists, not_exists] at hnone
  obtain ⟨place, hfind, hfind'⟩ := exists_of_isSameEntry h
  rw [hsrc.find_follow ht hnode hnone.1] at hfind
  rw [hdst.find_follow ht hother hnone.2] at hfind'
  have hsame := hfind.trans hfind'.symm
  exact hne (by simpa using hsame)

/-- Where one of two entries is a link, only what is no directory takes the place of the other, and
only of what is none. -/
theorem not_directory_of_replacing (h : t.replacing node place = .ok ())
    (hother : t.node? place = some other)
    (hlink : (∃ target, node = .link target) ∨ ∃ target, other = .link target) :
    node ≠ .directory ∧ other ≠ .directory := by
  unfold replacing at h
  rw [hother] at h
  constructor
  · rintro rfl
    obtain ⟨_, hnode⟩ | ⟨target, rfl⟩ := hlink
    · cases hnode
    · cases h
  · rintro rfl
    obtain ⟨target, rfl⟩ | ⟨_, hother⟩ := hlink
    · cases h
    · cases hother

theorem joinText_isNormal (h : directory.IsNormal) (text : String) :
    (directory.joinText text).IsNormal := by
  intro s hs
  unfold Path.joinText Path.join at hs
  split at hs
  · rcases List.mem_append.mp hs with hs | hs
    · exact h s hs
    · exact Path.isNormal_parse text s hs
  · exact Path.isNormal_parse text s hs

/-- A plain move that fails changes nothing. One that succeeds carries the entry at the end of its
source to the end of its target and leaves everything else as it was; or both are one place, and
nothing changes. Only a file or a link is ever replaced: source and target then lead to one entry,
and one of the two is a link. -/
theorem directMove_frame (ht : d.tree.WellFormed) (hdirectory : directory.IsNormal)
    (h : directMove m directory d = (d', failure?)) :
    (failure? ≠ none → d' = d) ∧
      (failure? = none → ∃ src dst node, d.EndsAt (directory.joinText m.source) src ∧
        d.EndsAt (directory.joinText m.target) dst ∧ d.tree.node? src = some node ∧
        (src = dst ∧ d' = d ∨
          d' = d.commit (.moved src dst) ∧ d.tree.Carries d'.tree src dst ∧
            (d.tree.node? dst = none ∨
              ∃ other, d.tree.node? dst = some other ∧ node ≠ .directory ∧ other ≠ .directory ∧
                ((∃ target, node = .link target) ∨ ∃ target, other = .link target) ∧
                d.isSameEntry (directory.joinText m.source) (directory.joinText m.target) =
                  .ok true))) := by
  constructor
  · intro hfailure
    obtain ⟨failure, rfl⟩ := Option.ne_none_iff_exists'.mp hfailure
    exact directMove_eq_of_some h
  · rintro rfl
    obtain ⟨hblocked, hrename⟩ := rename_of_directMove h
    obtain ⟨src, dst, node, hsrc, hdst, hnode, ⟨hsame, hd⟩ | ⟨hbelow, hbelow', hreplacing, hd⟩⟩ :=
      Disk.exists_of_rename_eq_ok ht (joinText_isNormal hdirectory _)
        (joinText_isNormal hdirectory _) hrename
    · exact ⟨src, dst, node, hsrc, hdst, hnode, .inl ⟨hsame, hd⟩⟩
    refine ⟨src, dst, node, hsrc, hdst, hnode, .inr ⟨hd, ?_⟩⟩
    have hne : src ≠ dst := by
      rintro rfl
      exact hbelow (List.prefix_refl _)
    rw [hd]
    cases hother : d.tree.node? dst with
    | none =>
      refine ⟨ht.carries_move hbelow hbelow' fun _ => ht.node?_below_eq_none ?_, .inl rfl⟩
      simp [isDirectory, hother]
    | some other =>
      have hentry : d.hasEntry (directory.joinText m.target).route = true :=
        hdst.hasEntry_eq.mpr (by simp [hother])
      have hsame := (isBlocked_eq_ok_false hblocked).resolve_left (by simp [hentry])
      have hlink := exists_link_of_isSameEntry ht hsrc hdst hne hnode hother hsame
      obtain ⟨hnode', hother'⟩ := not_directory_of_replacing hreplacing hother hlink
      refine ⟨ht.carries_move hbelow hbelow' fun _ => ht.node?_below_eq_none ?_,
        .inr ⟨other, rfl, hnode', hother', hlink, hsame⟩⟩
      simp [isDirectory, hother, hother']

/-- A file and a link to it. -/
def Tree.aliased : Tree :=
  ⟨[(["main.ts"], .file "x".toUTF8), (["alias.ts"], .link "main.ts")]⟩

/-- The link carried to the file. -/
def Move.aliased : Move := ⟨"alias.ts", "main.ts", ⟨.relative, []⟩, false⟩

/-- The file is gone, and the link leads to itself. -/
theorem directMove_aliased :
    ∃ d', directMove .aliased ⟨.relative, []⟩ (World.ofTree .aliased).disk = (d', none) ∧
      (World.ofTree .aliased).disk.tree.node? ["main.ts"] = some (.file "x".toUTF8) ∧
      d'.tree = ⟨[(["main.ts"], .link "main.ts")]⟩ :=
  ⟨_, rfl, by decide, by decide⟩

/-- What is left of a tree of a file and a link to it. -/
def Disk.aliased : Disk :=
  ⟨⟨[(["main.ts"], .link "main.ts")]⟩, [], [.moved ["alias.ts"] ["main.ts"]]⟩

theorem directMove_frame_aliased :
    directMove .aliased ⟨.relative, []⟩ (World.ofTree .aliased).disk = (.aliased, none) ∧
      ∃ src dst node, (World.ofTree .aliased).disk.EndsAt ⟨.relative, ["alias.ts"]⟩ src ∧
        (World.ofTree .aliased).disk.EndsAt ⟨.relative, ["main.ts"]⟩ dst ∧
        Tree.aliased.node? src = some node ∧
        (src = dst ∧ Disk.aliased = (World.ofTree .aliased).disk ∨
          Disk.aliased = (World.ofTree .aliased).disk.commit (.moved src dst) ∧
            Tree.aliased.Carries Disk.aliased.tree src dst ∧
            (Tree.aliased.node? dst = none ∨
              ∃ other, Tree.aliased.node? dst = some other ∧ node ≠ .directory ∧
                other ≠ .directory ∧
                ((∃ target, node = .link target) ∨ ∃ target, other = .link target) ∧
                (World.ofTree .aliased).disk.isSameEntry ⟨.relative, ["alias.ts"]⟩
                  ⟨.relative, ["main.ts"]⟩ = .ok true)) := by
  have hmove :
      directMove .aliased ⟨.relative, []⟩ (World.ofTree .aliased).disk = (.aliased, none) :=
    rfl
  exact ⟨hmove, (directMove_frame (by decide) (by simp [Path.IsNormal]) hmove).2 rfl⟩

end Recase
