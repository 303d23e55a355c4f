import Recase.Proofs.Path.Text
import Recase.Proofs.Root
import Recase.Vcs.Gate

/-!
# What the gate finds

The standing of roots, said without the order in which they are asked about.

* `isWithin_pathText_iff`: a path lies in a directory if its segments begin with those of the
  directory.
* `Repository.Reports`: the paths that a repository calls modified. `Repository.Declines`: why it
  gives no answer for a directory.
* `Finder.IsSilentAt`, `Finder.IsModified`: the same of a directory, whatever repository it is in.
* `WorkStatus.Gathers`: what the answers for roots add to a status. `standingFrom_eq`: either one
  root has no answer or the status has gathered them all.
* `standing_isExact`: the standing of roots and the refusal of it, for any answers of version
  control. `exists_isExact_standingOf`: for those that a run gets from its repositories.
-/

namespace Recase

open Name Text

/-! ## Texts collected once -/

section Once

variable {xs ys : List String} {x y : String}

theorem mem_addOnce_iff : x ∈ addOnce xs y ↔ x ∈ xs ∨ x = y := by
  unfold addOnce
  split
  · rename_i h
    rw [List.contains_iff_mem] at h
    exact ⟨.inl, fun hx => hx.elim id fun he => he ▸ h⟩
  · simp

theorem nodup_addOnce (h : xs.Nodup) : (addOnce xs y).Nodup := by
  unfold addOnce
  split
  · exact h
  · rename_i hy
    rw [List.contains_iff_mem] at hy
    exact List.nodup_append.mpr ⟨h, by simp, fun a ha b hb he => hy (by simp_all)⟩

theorem mem_foldl_addOnce_iff : x ∈ ys.foldl addOnce xs ↔ x ∈ xs ∨ x ∈ ys := by
  induction ys generalizing xs with
  | nil => simp
  | cons y rest ih => rw [List.foldl_cons, ih, mem_addOnce_iff, List.mem_cons, or_assoc]

theorem nodup_foldl_addOnce (h : xs.Nodup) : (ys.foldl addOnce xs).Nodup := by
  induction ys generalizing xs with
  | nil => exact h
  | cons y rest ih => exact ih (nodup_addOnce h)

end Once

/-! ## Paths in a directory -/

variable {names : List String} {path : String}

/-- A path lies in a directory if its segments begin with those of the directory. -/
theorem isWithin_pathText_iff (h : ∀ n ∈ names, IsPlain n) :
    isWithin (pathText names) path = true ↔ names <+: PathText.segments path := by
  rcases eq_or_ne names [] with rfl | hne
  · simp [isWithin]
  have hslash : ∀ n ∈ names, '/' ∉ n.toList := fun n hn => (h n hn).slash
  have hnonempty : pathText names ≠ "" := fun he =>
    hne (pathText_injective h (by simp) (he.trans pathText_nil.symm))
  simp only [isWithin, Bool.or_eq_true, String.isEmpty_iff, beq_iff_eq, List.isPrefixOf_iff_prefix,
    hnonempty, false_or]
  constructor
  · rintro (rfl | ⟨rest, hrest⟩)
    · exact (segments_pathText hne hslash).symm ▸ List.prefix_rfl
    · have hpath : path = pathText names ++ "/" ++ String.ofList rest := by
        apply String.toList_injective
        rw [String.toList_append, String.toList_ofList, hrest]
      rw [hpath, segments_append_slash, segments_pathText hne hslash]
      exact List.prefix_append _ _
  · rintro ⟨more, hmore⟩
    have hpath := pathText_segments path
    rw [← hmore] at hpath
    rcases eq_or_ne more [] with rfl | hm
    · rw [List.append_nil] at hpath
      exact .inl hpath.symm
    · rw [pathText_append hne hm] at hpath
      exact .inr ⟨(pathText more).toList, by rw [← hpath]; simp⟩

/-- A relative text, joined to the path of a place, names what lies below it. -/
theorem joinText_pathOf {top : Place} (h : path.toList.head? ≠ some '/') :
    (Disk.pathOf top).joinText path = ⟨.absolute, top ++ (Path.parse path).segments⟩ := by
  simp [Path.joinText, Path.join, Path.parse, Path.anchorOf_of_head? h, Path.isRelative,
    Disk.pathOf]

/-- The text of a place and of what lies below it: the text of the place comes first, with a slash
after it. -/
theorem pathOf_eq_or_prefix {top : Place} {steps : List String} (h : ∀ n ∈ top, IsPlain n) :
    (Path.mk .absolute (top ++ steps)).toString = (Disk.pathOf top).toString ∨
      (WorkStatus.withoutEndSlashes (Disk.pathOf top).toString ++ "/").toList <+:
        (Path.mk .absolute (top ++ steps)).toString.toList := by
  have htext : ∀ names : List String, (Path.mk .absolute names).toString = "/" ++ pathText names :=
    fun _ => rfl
  rcases eq_or_ne steps [] with rfl | hsteps
  · simp [Disk.pathOf]
  right
  rw [Disk.pathOf, htext, htext]
  rcases eq_or_ne top [] with rfl | htop
  · have hempty : WorkStatus.withoutEndSlashes ("/" ++ pathText []) = "" := by
      rw [pathText_nil]
      decide
    rw [hempty]
    simp
  · have hlast : ("/" ++ pathText top).toList.getLast? ≠ some '/' := by
      have hne : (pathText top).toList ≠ [] := by
        simpa using fun he => htop (pathText_injective h (by simp) (he.trans pathText_nil.symm))
      rw [String.toList_append, List.getLast?_append_of_ne_nil _ hne]
      exact getLast?_pathText h
    have hkept : WorkStatus.withoutEndSlashes ("/" ++ pathText top) = "/" ++ pathText top := by
      rw [WorkStatus.withoutEndSlashes, dropWhile_reverse_of_getLast? hlast]
      simp
    rw [hkept, pathText_append htop hsteps]
    simp

/-! ## What a repository answers -/

namespace Repository

/-- A path that the repository calls modified: in the working tree, or in the index if there are
commits, where a renamed entry counts as what it is renamed to. -/
def Reports (r : Repository) (path : String) : Prop :=
  (∃ x ∈ r.unstaged, x.change = "M" ∧ x.oldPath = some path) ∨
    r.hasCommits = true ∧ ∃ x ∈ r.staged,
      x.change = "M" ∧ x.oldPath = some path ∨ x.change = "R" ∧ x.newPath = some path

/-- Why the repository gives no answer for the directory to which names lead from its top. What is
ignored is only asked below the top. -/
inductive Declines (r : Repository) (names : List String) : Prop
  | noSuchPath (h : r.trouble? = some .noSuchPath)
  | bare (h : r.trouble? = some .bare)
  | toolMissing (h : r.trouble? = some .toolMissing)
  | ignoreCheckFails (hne : names ≠ []) (h : r.trouble? = some .ignoreCheckFails)
  | ignored (hne : names ≠ []) (h : r.ignores (pathText names) = true)

variable {r : Repository}

theorem mem_modified_iff (h : ∀ n ∈ names, IsPlain n) :
    path ∈ r.modified (pathText names) ↔
      r.Reports path ∧ path ≠ "" ∧ names <+: PathText.segments path := by
  have hunstaged : path ∈ r.unstaged.filterMap (·.unstagedPath?) ↔
      ∃ x ∈ r.unstaged, x.change = "M" ∧ x.oldPath = some path := by
    simp [Difference.unstagedPath?]
  have hstaged : path ∈ r.staged.filterMap (·.stagedPath?) ↔ ∃ x ∈ r.staged,
      x.change = "M" ∧ x.oldPath = some path ∨ x.change = "R" ∧ x.newPath = some path := by
    simp only [List.mem_filterMap, Difference.stagedPath?]
    refine exists_congr fun x => and_congr_right fun _ => ?_
    by_cases hm : x.change = "M" <;> by_cases hr : x.change = "R" <;> simp_all
  have hwithin : isWithin (pathText names) path = true ↔ names <+: PathText.segments path :=
    isWithin_pathText_iff h
  rw [modified, changedPaths, mem_foldl_addOnce_iff, List.mem_filter, List.mem_append,
    hunstaged, Reports]
  cases r.hasCommits <;> simp [hwithin, hstaged]

/-- The repository declines to answer, or the answer is what is modified in the directory. -/
theorem answer?_cases (h : ∀ n ∈ names, IsPlain n) :
    r.Declines names ∧ r.answer? (pathText names) = none ∨
      ¬ r.Declines names ∧ r.answer? (pathText names) = some (r.modified (pathText names)) := by
  have hdeclines : r.Declines names ↔ r.trouble? = some .noSuchPath ∨ r.trouble? = some .bare ∨
      r.trouble? = some .toolMissing ∨ names ≠ [] ∧ r.trouble? = some .ignoreCheckFails ∨
      names ≠ [] ∧ r.ignores (pathText names) = true :=
    ⟨fun h => by cases h <;> simp [*], by
      rintro (h | h | h | ⟨hne, h⟩ | ⟨hne, h⟩)
      exacts [.noSuchPath h, .bare h, .toolMissing h, .ignoreCheckFails hne h, .ignored hne h]⟩
  rw [hdeclines, answer?]
  by_cases hnil : names = []
  · cases htrouble : r.trouble? with
    | none => simp [hnil]
    | some trouble => cases trouble <;> simp [hnil]
  · have hbelow : (pathText names).isEmpty = false := by
      rw [Bool.eq_false_iff, ne_eq, String.isEmpty_iff]
      exact fun he => hnil (pathText_injective h (by simp) (he.trans pathText_nil.symm))
    cases htrouble : r.trouble? with
    | none => cases r.ignores (pathText names) <;> simp [hbelow, hnil]
    | some trouble => cases trouble <;> simp [hbelow, hnil]

end Repository

/-! ## What is found of a directory -/

namespace Finder

/-- Version control has no answer for a directory: it is in no work tree, or its repository
declines. -/
inductive IsSilentAt (find : Finder) (place : Place) : Prop
  | outside (h : find place = none)
  | declined {r : Repository} {top : Place} (h : find place = some (r, top))
      (hd : r.Declines (place.drop top.length))

/-- A modified path that is reported for a directory: it lies there or below, by whole segments. -/
def IsModified (find : Finder) (place top : Place) (path : String) : Prop :=
  ∃ r, find place = some (r, top) ∧ r.Reports path ∧ path ≠ "" ∧
    place <+: top ++ PathText.segments path

/-- What version control keeps to in its answer for a directory: the top of the work tree is there
or above, and the paths reported are relative. -/
structure IsFaithfulAt (find : Finder) (place : Place) : Prop where
  above : ∀ {r top}, find place = some (r, top) → top <+: place
  relative : ∀ {r top path}, find place = some (r, top) → r.Reports path →
    path.toList.head? ≠ some '/'

end Finder

/-- The repository found for a directory is one of those given, and the directory is in it. -/
theorem of_repositoryOf? {d : Disk} {repositories : List Repository} {place top : Place}
    {r : Repository} (h : repositoryOf? d repositories place = some (r, top)) :
    r ∈ repositories ∧ top <+: place := by
  have hfold : ∀ (candidates : List (Repository × Place)) (best? : Option (Repository × Place)),
      candidates.foldl innermost best? = some (r, top) →
        (r, top) ∈ candidates ∨ best? = some (r, top) := by
    intro candidates
    induction candidates with
    | nil => exact fun _ => .inr
    | cons candidate rest ih =>
      intro best? h
      obtain h | h := ih _ h
      · exact .inl (List.mem_cons_of_mem _ h)
      · unfold innermost at h
        split at h
        · split at h
          · exact .inl (Option.some.inj h ▸ List.mem_cons_self)
          · exact .inr h
        · exact .inl (Option.some.inj h ▸ List.mem_cons_self)
  have hmem := (hfold _ none h).resolve_right nofun
  obtain ⟨hlocated, hin⟩ := List.mem_filter.mp hmem
  obtain ⟨r', hr', hresolved⟩ := List.mem_filterMap.mp hlocated
  split at hresolved
  · cases hresolved
    exact ⟨hr', List.isPrefixOf_iff_prefix.mp hin⟩
  · cases hresolved

theorem isFaithfulAt_repositoryOf? {d : Disk} {repositories : List Repository}
    (hrelative : ∀ r ∈ repositories, ∀ path, r.Reports path → path.toList.head? ≠ some '/')
    (place : Place) :
    Finder.IsFaithfulAt (repositoryOf? d repositories) place :=
  ⟨fun h => (of_repositoryOf? h).2, fun h => hrelative _ (of_repositoryOf? h).1 _⟩

/-- The text of a modified path below the top of its work tree. -/
def fileText (top : Place) (path : String) : String := ((Disk.pathOf top).joinText path).toString

section Roots

variable (d : Disk) (find : Finder) (roots : List Root)

/-- A root for which version control has no answer. -/
def HasSilent : Prop := ∃ root ∈ roots, find.IsSilentAt (d.topAt root.path)

/-- A file that is reported for one of the roots. -/
def IsModifiedFile (file : String) : Prop :=
  ∃ root ∈ roots, ∃ top path, find.IsModified (d.topAt root.path) top path ∧
    file = fileText top path

/-- The top of the work tree of one of the roots. -/
def IsCheckedTop (text : String) : Prop :=
  ∃ root ∈ roots, ∃ r top, find (d.topAt root.path) = some (r, top) ∧
    text = (Disk.pathOf top).toString

/-- What the answers for roots add to a status. -/
structure WorkStatus.Gathers (before after : WorkStatus) : Prop where
  modifiedFiles : ∀ file,
    file ∈ after.modifiedFiles ↔ file ∈ before.modifiedFiles ∨ IsModifiedFile d find roots file
  repositories : ∀ text,
    text ∈ after.repositories ↔ text ∈ before.repositories ∨ IsCheckedTop d find roots text
  nodup : before.modifiedFiles.Nodup → after.modifiedFiles.Nodup

end Roots

/-! ## Asking about roots -/

variable {d : Disk} {find : Finder} {roots others rest : List Root} {root : Root} {place : Place}
  {status before after : WorkStatus}

/-- A root that is there: it has no answer, or what is modified there is added to the status. -/
theorem standingFrom_cons (ht : d.tree.WellFormed) (hnormal : root.path.IsNormal)
    (hplace : d.directoryAt? root.path = some place) (find : Finder) (status : WorkStatus)
    (rest : List Root) :
    standingFrom d find status (root :: rest) =
      match find place with
      | none => .ok .unversioned
      | some (r, top) =>
        match r.answer? (pathText (place.drop top.length)) with
        | none => .ok .unversioned
        | some modified => standingFrom d find (status.add place top modified) rest := by
  have hpresent : root.isPresent d = .ok true := by
    rw [Root.isPresent, Disk.isPresent_of_directoryAt? hplace]
  have hresolved : d.resolved root.path = .ok ⟨.absolute, place⟩ := by
    rw [Disk.resolved, Disk.resolve_of_directoryAt? ht hnormal hplace]
  rw [standingFrom, hpresent, hresolved]
  rfl

/-- The answer for a directory adds what is reported for it. -/
theorem WorkStatus.gathers_add (hplain : ∀ n ∈ place, IsPlain n)
    (hplace : d.topAt root.path = place) (hfaithful : find.IsFaithfulAt place)
    {r : Repository} {top : Place}
    (hfound : find place = some (r, top)) :
    before.Gathers d find [root]
      (before.add place top (r.modified (pathText (place.drop top.length)))) := by
  obtain ⟨more, rfl⟩ := hfaithful.above hfound
  have hmore : ∀ n ∈ more, IsPlain n := fun n hn => hplain n (List.mem_append_right _ hn)
  have hmodified : ∀ path, path ∈ r.modified (pathText more) ↔
      find.IsModified (top ++ more) top path := by
    intro path
    simp [Repository.mem_modified_iff hmore, Finder.IsModified, hfound,
      List.prefix_append_right_inj]
  constructor
  · intro file
    simp only [WorkStatus.add, List.drop_left, mem_foldl_addOnce_iff, List.mem_map, hmodified,
      IsModifiedFile, fileText, List.mem_singleton, exists_eq_left, hplace]
    refine or_congr_right ⟨?_, ?_⟩
    · rintro ⟨path, hpath, rfl⟩
      exact ⟨top, path, hpath, rfl⟩
    · rintro ⟨top', path, ⟨r', hfound', hreports, hpath⟩, rfl⟩
      obtain ⟨rfl, rfl⟩ := Prod.mk.inj (Option.some.inj (hfound.symm.trans hfound'))
      exact ⟨path, ⟨r, hfound, hreports, hpath⟩, rfl⟩
  · intro text
    simp [WorkStatus.add, mem_addOnce_iff, IsCheckedTop, hplace, hfound]
  · exact fun h => nodup_foldl_addOnce h

theorem WorkStatus.Gathers.cons {between : WorkStatus} (h : before.Gathers d find [root] between)
    (h' : between.Gathers d find rest after) : before.Gathers d find (root :: rest) after := by
  constructor
  · intro file
    rw [h'.modifiedFiles, h.modifiedFiles]
    simp [IsModifiedFile, or_assoc]
  · intro text
    rw [h'.repositories, h.repositories]
    simp [IsCheckedTop, or_assoc]
  · exact fun hnodup => h'.nodup (h.nodup hnodup)

/-- Either some root has no answer, and none is under version control, or the answers for all of
them are gathered. -/
theorem standingFrom_cases (ht : d.tree.WellFormed)
    (hroots : ∀ r ∈ roots, r.path.IsNormal ∧ ∃ place, d.directoryAt? r.path = some place)
    (hfaithful : ∀ r ∈ roots, find.IsFaithfulAt (d.topAt r.path)) (status : WorkStatus) :
    HasSilent d find roots ∧ standingFrom d find status roots = .ok .unversioned ∨
      ¬ HasSilent d find roots ∧ ∃ after, status.Gathers d find roots after ∧
        standingFrom d find status roots =
            .ok (if after.hasChanges then .dirty after else .clean after) := by
  induction roots generalizing status with
  | nil =>
    refine .inr ⟨by simp [HasSilent], status, ⟨?_, ?_, id⟩, rfl⟩
    · simp [IsModifiedFile]
    · simp [IsCheckedTop]
  | cons root rest ih =>
    obtain ⟨hnormal, place, hplace⟩ := hroots root List.mem_cons_self
    have htop := Disk.topAt_eq hplace
    have hdir := (Disk.directoryAt?_eq_some_iff.mp hplace).2.2.2
    have hplain : ∀ n ∈ place, IsPlain n := fun n hn => ht.isPlain (Tree.isDirectory_iff.mp hdir) hn
    have hsilent : HasSilent d find (root :: rest) ↔
        find.IsSilentAt place ∨ HasSilent d find rest := by
      simp [HasSilent, htop]
    have hplaceFaithful : find.IsFaithfulAt place := htop ▸ hfaithful root List.mem_cons_self
    rw [standingFrom_cons ht hnormal hplace, hsilent]
    cases hfound : find place with
    | none => exact .inl ⟨.inl (.outside hfound), rfl⟩
    | some found =>
      obtain ⟨r, top⟩ := found
      have hbelow : ∀ n ∈ place.drop top.length, IsPlain n :=
        fun n hn => hplain n (List.mem_of_mem_drop hn)
      obtain ⟨hdeclines, hanswer⟩ | ⟨hdeclines, hanswer⟩ := r.answer?_cases hbelow
      · exact .inl ⟨.inl (.declined hfound hdeclines), by simp [hanswer]⟩
      · have hspeaks : ¬ find.IsSilentAt place := by
          rintro (hnone | ⟨hfound', hd⟩)
          · cases hfound.symm.trans hnone
          · obtain ⟨rfl, rfl⟩ := Prod.mk.inj (Option.some.inj (hfound.symm.trans hfound'))
            exact hdeclines hd
        have hadded : status.Gathers d find [root]
            (status.add place top (r.modified (pathText (place.drop top.length)))) :=
          WorkStatus.gathers_add hplain htop hplaceFaithful hfound
        simp only [hanswer, hspeaks, false_or]
        obtain h | ⟨hrest, after, hgathers, hstanding⟩ :=
          ih (fun r hr => hroots r (List.mem_cons_of_mem _ hr))
            (fun r hr => hfaithful r (List.mem_cons_of_mem _ hr))
            (status.add place top (r.modified (pathText (place.drop top.length))))
        · exact .inl h
        · exact .inr ⟨hrest, after, hadded.cons hgathers, hstanding⟩

/-! ## The standing -/

/-- A repository is named for a file that is reported below its top. -/
theorem WorkStatus.mem_modifiedRepositories {top : Place} (hplain : ∀ n ∈ top, IsPlain n)
    (hpath : path.toList.head? ≠ some '/') (htop : (Disk.pathOf top).toString ∈ status.repositories)
    (hfile : fileText top path ∈ status.modifiedFiles) :
    (Disk.pathOf top).toString ∈ status.modifiedRepositories := by
  refine List.mem_filter.mpr ⟨htop, List.any_eq_true.mpr ⟨_, hfile, ?_⟩⟩
  rw [fileText, joinText_pathOf hpath, Bool.or_eq_true, beq_iff_eq, List.isPrefixOf_iff_prefix]
  exact pathOf_eq_or_prefix hplain

/-- A standing that says of roots what version control answers for them, in whatever order they are
asked about. -/
structure Standing.IsExact (d : Disk) (find : Finder) (roots : List Root) (s : Standing) :
    Prop where
  /-- One root without an answer takes all of them out of version control. -/
  isVersioned : s.isVersioned = true ↔ ¬ HasSilent d find roots
  hasChanges :
    s.hasChanges = true ↔ ¬ HasSilent d find roots ∧ ∃ file, IsModifiedFile d find roots file
  mem_modifiedFiles : ∀ file,
    file ∈ s.modifiedFiles ↔ ¬ HasSilent d find roots ∧ IsModifiedFile d find roots file
  nodup : s.modifiedFiles.Nodup
  admitted : s.hasChanges = false → ensureSafe s false = .ok ()
  /-- Changes are refused. The refusal names tops of work trees of the roots only, and all those
  below which a file is reported. -/
  refused : s.hasChanges = true → ∃ named, ensureSafe s false = .error (.uncommitted named) ∧
    (∀ text ∈ named, IsCheckedTop d find roots text) ∧
    ∀ root ∈ roots, ∀ top path, find.IsModified (d.topAt root.path) top path →
      (Disk.pathOf top).toString ∈ named

section Exact

variable (ht : d.tree.WellFormed)
  (hroots : ∀ r ∈ roots, r.path.IsNormal ∧ ∃ place, d.directoryAt? r.path = some place)
  (hfaithful : ∀ r ∈ roots, find.IsFaithfulAt (d.topAt r.path))
include ht hroots hfaithful

/-- What the answers for roots make of an empty status names every repository with a modified
file. -/
theorem WorkStatus.Gathers.named (h : WorkStatus.empty.Gathers d find roots after) :
    (∀ text ∈ after.modifiedRepositories, IsCheckedTop d find roots text) ∧
      ∀ root ∈ roots, ∀ top path, find.IsModified (d.topAt root.path) top path →
        (Disk.pathOf top).toString ∈ after.modifiedRepositories := by
  constructor
  · intro text htext
    simpa [WorkStatus.empty] using (h.repositories text).mp (List.mem_of_mem_filter htext)
  · rintro root hroot top path hmodified
    obtain ⟨r, hfound, hreports, -⟩ := id hmodified
    obtain ⟨-, place, hplace⟩ := hroots root hroot
    have hdir := Tree.isDirectory_iff.mp (Disk.directoryAt?_eq_some_iff.mp hplace).2.2.2
    have habove : top <+: place := Disk.topAt_eq hplace ▸ (hfaithful root hroot).above hfound
    have hplain : ∀ n ∈ top, IsPlain n := fun n hn => ht.isPlain hdir (habove.subset hn)
    exact mem_modifiedRepositories hplain ((hfaithful root hroot).relative hfound hreports)
      ((h.repositories _).mpr (.inr ⟨root, hroot, r, top, hfound, rfl⟩))
      ((h.modifiedFiles _).mpr (.inr ⟨root, hroot, top, path, hmodified, rfl⟩))

/-- Roots that are directories have an exact standing. -/
theorem exists_isExact :
    ∃ standing, standingFrom d find .empty roots = .ok standing ∧
        standing.IsExact d find roots := by
  obtain ⟨hsilent, hstanding⟩ | ⟨hsilent, after, hgathers, hstanding⟩ :=
    standingFrom_cases ht hroots hfaithful .empty
  · exact ⟨_, hstanding, by simp [Standing.isVersioned, hsilent],
      by simp [Standing.hasChanges, hsilent],
      by simp [Standing.modifiedFiles, hsilent], by simp [Standing.modifiedFiles],
        fun _ => rfl, nofun⟩
  have hfiles : ∀ file, file ∈ after.modifiedFiles ↔ IsModifiedFile d find roots file := by
    simpa [WorkStatus.empty] using hgathers.modifiedFiles
  have hnodup := hgathers.nodup List.nodup_nil
  obtain ⟨hchecked, hnamed⟩ := hgathers.named ht hroots hfaithful
  refine ⟨_, hstanding, ?_⟩
  cases hchanges : after.hasChanges with
  | false =>
    have hnil : after.modifiedFiles = [] := by simpa [WorkStatus.hasChanges] using hchanges
    have hnone : ∀ file, ¬ IsModifiedFile d find roots file := by simpa [hnil] using hfiles
    exact ⟨by simp [Standing.isVersioned, hsilent], by simp [Standing.hasChanges, hnone],
      by simp [Standing.modifiedFiles, hnil, hnone], hnodup, fun _ => rfl, nofun⟩
  | true =>
    have hne : after.modifiedFiles ≠ [] := by simpa [WorkStatus.hasChanges] using hchanges
    obtain ⟨file, hfile⟩ := List.exists_mem_of_ne_nil _ hne
    obtain ⟨root, hroot, top, path, hmodified, -⟩ := (hfiles file).mp hfile
    have hsome : after.modifiedRepositories.isEmpty = false :=
      Bool.eq_false_iff.mpr fun he =>
        List.ne_nil_of_mem (hnamed root hroot top path hmodified) (List.isEmpty_iff.mp he)
    refine ⟨by simp [Standing.isVersioned, hsilent], ?_,
      by simp [Standing.modifiedFiles, hsilent, hfiles],
      hnodup, nofun, fun _ => ⟨_, ?_, hchecked, hnamed⟩⟩
    · simpa [Standing.hasChanges, hsilent] using ⟨file, (hfiles file).mp hfile⟩
    · simp [ensureSafe, hsome]

omit hfaithful in
/-- The gate of a run is exact if no repository reports a path that starts at the top of the
disk. -/
theorem exists_isExact_standingOf {repositories : List Repository}
    (hrelative : ∀ r ∈ repositories, ∀ path, r.Reports path → path.toList.head? ≠ some '/') :
    ∃ standing, standingOf d repositories roots = .ok standing ∧
      standing.IsExact d (repositoryOf? d repositories) roots :=
  exists_isExact ht hroots fun _ _ => isFaithfulAt_repositoryOf? hrelative _

/-- The gate is exact, and it is so in whatever order and however often it is asked about the
roots. -/
theorem standing_isExact :
    ∃ standing, standingFrom d find .empty roots = .ok standing ∧ standing.IsExact d find roots ∧
      ∀ others : List Root, (∀ root, root ∈ others ↔ root ∈ roots) →
        ∃ standing', standingFrom d find .empty others = .ok standing' ∧
          standing'.isVersioned = standing.isVersioned ∧
            standing'.hasChanges = standing.hasChanges ∧
          ∀ file, file ∈ standing'.modifiedFiles ↔ file ∈ standing.modifiedFiles := by
  obtain ⟨standing, hstanding, hexact⟩ := exists_isExact ht hroots hfaithful
  refine ⟨standing, hstanding, hexact, fun others hothers => ?_⟩
  obtain ⟨standing', hstanding', hexact'⟩ := exists_isExact ht
    (fun r hr => hroots r ((hothers r).mp hr)) fun r hr => hfaithful r ((hothers r).mp hr)
  have hsilent : HasSilent d find others ↔ HasSilent d find roots := by simp [HasSilent, hothers]
  have hmodified :
      ∀ file, IsModifiedFile d find others file ↔ IsModifiedFile d find roots file := by
    simp [IsModifiedFile, hothers]
  refine ⟨standing', hstanding', ?_, ?_, fun file => ?_⟩
  · rw [Bool.eq_iff_iff, hexact.isVersioned, hexact'.isVersioned, hsilent]
  · simp only [Bool.eq_iff_iff, hexact.hasChanges, hexact'.hasChanges, hsilent, hmodified]
  · rw [hexact.mem_modifiedFiles, hexact'.mem_modifiedFiles, hsilent, hmodified]

end Exact

/-- A work tree with another in it. -/
def Disk.vendoring : Disk :=
  ⟨⟨[(["app"], .directory), (["vendor"], .directory), (["vendor", "lib"], .directory)]⟩, [], []⟩

/-- Their repositories. A file of each is modified, and one of the outer was renamed. -/
def Repository.vendoring : List Repository :=
  [⟨⟨.absolute, []⟩, [⟨"M", some "app/main.ts", none⟩], [⟨"R", some "old.ts", some "app/new.ts"⟩],
    [], true, none⟩,
    ⟨⟨.absolute, ["vendor"]⟩, [⟨"M", some "lib/x.ts", none⟩], [], ["out"], true, none⟩]

theorem standing_isExact_vendoring :
    ∃ standing, standingFrom .vendoring (repositoryOf? .vendoring Repository.vendoring) .empty
        (["vendor/lib", "app", "vendor/lib"].map .ofText) = .ok standing ∧
      standing.modifiedFiles = ["/vendor/lib/x.ts", "/app/main.ts", "/app/new.ts"] ∧
      standing.IsExact .vendoring (repositoryOf? .vendoring Repository.vendoring)
        (["vendor/lib", "app", "vendor/lib"].map .ofText) := by
  have hroots : ∀ r ∈ ["vendor/lib", "app", "vendor/lib"].map Root.ofText, r.path.IsNormal ∧
      ∃ place, Disk.vendoring.directoryAt? r.path = some place := by
    refine fun r hr => ⟨isNormal_ofText _ r hr, Option.isSome_iff_exists.mp ?_⟩
    revert r
    decide
  have hrelative :
      ∀ r ∈ Repository.vendoring, ∀ path, r.Reports path → path.toList.head? ≠ some '/' := by
    intro r hr path hreports
    have hpath : path = "app/main.ts" ∨ path = "app/new.ts" ∨ path = "lib/x.ts" := by
      simp only [Repository.vendoring, List.mem_cons, List.not_mem_nil, or_false] at hr
      rcases hr with rfl | rfl <;> simp [Repository.Reports, eq_comm] at hreports <;> tauto
    rcases hpath with rfl | rfl | rfl <;> decide
  obtain ⟨standing, hstanding, hexact, -⟩ := standing_isExact (d := .vendoring) (by decide) hroots
    fun _ _ => isFaithfulAt_repositoryOf? hrelative _
  refine ⟨standing, hstanding, ?_, hexact⟩
  have hfound : (standingFrom .vendoring (repositoryOf? .vendoring Repository.vendoring) .empty
      (["vendor/lib", "app", "vendor/lib"].map .ofText)).toOption.map (·.modifiedFiles) =
      some ["/vendor/lib/x.ts", "/app/main.ts", "/app/new.ts"] := by decide +kernel
  rw [hstanding] at hfound
  exact Option.some.inj hfound

end Recase
