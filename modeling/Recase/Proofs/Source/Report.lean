import Recase.Proofs.Source.Agreement

/-!
# What the report of an update says

* `UpdateReport.ofUpdates`: the report of files of which it is known what becomes of each.
  `updateFiles_report`: so is that of several files, if no two of them are at one place, with what
  becomes of each alone.
* `world_updateFiles_of_skipped`: a file that is skipped might as well not be among them.
* `UpdateReport.IsExact`: a report that tells exactly which files were written, and which were
  skipped. `updateFiles_isExact`: that of files at places of their own is exact, with
  `exists_updated_of_node?_ne` and `updateFiles_without`.
* `updateSources_isExact`: so is that of the source files below roots.
-/

namespace Recase

open Recase.Tree Source

variable {w : World} {extensions ignored : List String} {roots : List Root}
  {files before after : List Path} {path : Path} {place : Place} {content : ByteArray}
  {reason : String} {update update' : Path → Update}

namespace Source

/-! ## Reports -/

/-- Whether the file is written. -/
def Update.isUpdated : Update → Bool
  | .updated _ => true
  | _ => false

/-- Why the file is skipped, if it is. -/
def Update.reason? : Update → Option String
  | .skipped reason => some reason
  | _ => none

theorem Update.reason?_eq_some_iff {u : Update} :
    u.reason? = some reason ↔ u = .skipped reason := by
  cases u <;> simp [reason?]

namespace UpdateReport

/-- The report of files of which it is known what becomes of each. -/
def ofUpdates (update : Path → Update) (files : List Path) : UpdateReport :=
  files.foldr (fun path after => after.cons path (update path)) .empty

theorem updated_cons (path : Path) (u : Update) (report : UpdateReport) :
    (report.cons path u).updated =
      if u.isUpdated then path :: report.updated else report.updated := by
  cases u <;> rfl

theorem skipped_cons (path : Path) (u : Update) (report : UpdateReport) :
    (report.cons path u).skipped = (u.reason?.map (path, ·)).toList ++ report.skipped := by
  cases u <;> rfl

theorem updated_ofUpdates (update : Path → Update) (files : List Path) :
    (ofUpdates update files).updated = files.filter fun path => (update path).isUpdated := by
  induction files with
  | nil => rfl
  | cons path rest ih =>
    rw [List.filter_cons, ← ih]
    exact updated_cons path (update path) (ofUpdates update rest)

theorem skipped_ofUpdates (update : Path → Update) (files : List Path) :
    (ofUpdates update files).skipped = files.filterMap fun path =>
      (update path).reason?.map (path, ·) := by
  induction files with
  | nil => rfl
  | cons path rest ih =>
    have hcons := skipped_cons path (update path) (ofUpdates update rest)
    rw [ih] at hcons
    refine hcons.trans ?_
    cases hreason : (update path).reason? <;> simp [hreason]

theorem ofUpdates_congr (h : ∀ path ∈ files, update path = update' path) :
    ofUpdates update files = ofUpdates update' files :=
  List.foldr_ext _ _ _ fun path hpath report => by rw [h path hpath]

theorem mem_updated_ofUpdates_iff :
    path ∈ (ofUpdates update files).updated ↔ path ∈ files ∧ (update path).isUpdated = true := by
  rw [updated_ofUpdates, List.mem_filter]

theorem mem_skipped_ofUpdates_iff :
    (path, reason) ∈ (ofUpdates update files).skipped ↔ path ∈ files ∧
        update path = .skipped reason := by
  simp only [skipped_ofUpdates, List.mem_filterMap, Option.map_eq_some_iff, Prod.mk.injEq,
    Update.reason?_eq_some_iff]
  constructor
  · rintro ⟨other, hother, _, hreason, rfl, rfl⟩
    exact ⟨hother, hreason⟩
  · rintro ⟨hpath, hreason⟩
    exact ⟨path, hpath, reason, hreason, rfl, rfl⟩

/-- Without a file that is skipped the report tells the same of the others. -/
theorem ofUpdates_without (hnodup : (before ++ path :: after).Nodup)
    (hskipped : update path = .skipped reason) :
    (ofUpdates update (before ++ after)).updated =
      (ofUpdates update (before ++ path :: after)).updated ∧
      (ofUpdates update (before ++ after)).skipped =
        (ofUpdates update (before ++ path :: after)).skipped.filter (·.1 ≠ path) := by
  constructor
  · simp [updated_ofUpdates, hskipped, Update.isUpdated]
  · have hne : ∀ other ∈ before ++ after, other ≠ path := by
      rintro other hother rfl
      exact (List.nodup_middle.mp hnodup).notMem hother
    have hothers :
        ∀ other ∈ before ++ after, ((update other).reason?.map (other, ·)).filter (·.1 ≠ path) =
        (update other).reason?.map (other, ·) := by
      intro other hother
      cases (update other).reason? <;> simp [hne other hother]
    have hnone : ((update path).reason?.map (path, ·)).filter (·.1 ≠ path) = none := by
      cases (update path).reason? <;> simp
    rw [skipped_ofUpdates, skipped_ofUpdates, List.filter_filterMap, List.filterMap_append,
      List.filterMap_append, List.filterMap_cons, hnone]
    rw [← List.filterMap_append, ← List.filterMap_append]
    exact (List.filterMap_congr hothers).symm

end UpdateReport

/-! ## Files one after the other -/

/-- What several files are reported to have become is what becomes of each alone. -/
theorem updateFiles_report (ht : w.disk.tree.WellFormed) (hpair : files.Pairwise (LeadApart w.disk))
    (hread : ∀ path ∈ files, ∃ content, w.disk.read path = .ok content) :
    (updateFiles w files).1 = .ofUpdates (fun path => (updateFile w path).1) files := by
  induction files generalizing w with
  | nil => rfl
  | cons first rest ih =>
    obtain ⟨hapart, hpair'⟩ := List.pairwise_cons.mp hpair
    obtain ⟨hshape, hworld⟩ := updateFile_sameShape ht first
    have hkept : ∀ path ∈ rest, ∃ content, w.disk.read path = .ok content ∧
        (updateFile w first).2.disk.read path = .ok content := by
      intro path hpath
      obtain ⟨content, hcontent⟩ := hread path (List.mem_cons_of_mem _ hpath)
      exact ⟨content, hcontent, read_updateFile_of_apart ht (hapart path hpath).symm hcontent⟩
    have hrest : (updateFiles (updateFile w first).2 rest).1 =
        .ofUpdates (fun path => (updateFile w path).1) rest := by
      rw [ih (hshape.tree.wellFormed ht) (hpair'.imp fun hab => hab.of_sameShape hshape)
        fun path hpath => (hkept path hpath).imp fun _ => And.right]
      refine UpdateReport.ofUpdates_congr fun path hpath => ?_
      obtain ⟨content, hcontent, hcontent'⟩ := hkept path hpath
      exact updateFile_eq_of_read ht hshape hworld hcontent hcontent'
    exact congrArg (·.cons first (updateFile w first).1) hrest

theorem world_updateFiles_append (w : World) (before after : List Path) :
    (updateFiles w (before ++ after)).2 = (updateFiles (updateFiles w before).2 after).2 := by
  induction before generalizing w with
  | nil => rfl
  | cons path rest ih => exact ih (updateFile w path).2

theorem world_updateFile_of_skipped (h : (updateFile w path).1 = .skipped reason) :
    (updateFile w path).2 = w := by
  unfold updateFile writeBack at h ⊢
  grind

/-- A file that is skipped might as well not be among them. -/
theorem world_updateFiles_of_skipped (ht : w.disk.tree.WellFormed)
    (hpair : (before ++ path :: after).Pairwise (LeadApart w.disk))
    (hread : w.disk.read path = .ok content)
    (hskipped : (updateFile w path).1 = .skipped reason) :
    (updateFiles w (before ++ path :: after)).2 = (updateFiles w (before ++ after)).2 := by
  obtain ⟨hshape, hworld⟩ := updateFiles_sameShape ht before
  have hread' : (updateFiles w before).2.disk.read path = .ok content := by
    refine read_updateFiles_of_apart ht (fun other hother => ?_) hread
    exact ((List.pairwise_append.mp hpair).2.2 other hother path List.mem_cons_self).symm
  have hskipped' := (updateFile_eq_of_read ht hshape hworld hread hread').trans hskipped
  rw [world_updateFiles_append, world_updateFiles_append, world_updateFiles_cons,
    world_updateFile_of_skipped hskipped']

end Source

/-! ## Exact reports -/

namespace World.Treats

variable {u : Update} {held : ByteArray}

/-- A file is written just if it holds something else afterwards. -/
theorem isUpdated_iff (h : w.Treats path content u held) : u.isUpdated = true ↔ held ≠ content := by
  cases h with
  | unreadable | undecodable | unchanged | unwritable =>
    simp [Update.isUpdated, cannotRead, cannotWrite]
  | updated _ htext hother =>
    simp only [Update.isUpdated, true_iff]
    rw [← Text.toUTF8_of_decodeUtf8 htext]
    exact fun heq => hother (String.toByteArray_inj.mp heq)

theorem of_updated (h : w.Treats path content u held) (hupdated : u.isUpdated = true) :
    ∃ text, Text.decodeUtf8 content = .ok text ∧ held = (convertText text).1.toUTF8 := by
  cases h with
  | unreadable | undecodable | unchanged | unwritable => cases hupdated
  | updated _ htext => exact ⟨_, htext, rfl⟩

theorem eq_of_skipped (h : w.Treats path content (.skipped reason) held) : held = content :=
  not_not.mp fun hne => absurd (h.isUpdated_iff.mpr hne) (by simp [Update.isUpdated])

end World.Treats

/-- The report tells exactly what became of the files, from one world to the other. -/
structure Source.UpdateReport.IsExact (report : UpdateReport) (files : List Path) (w w' : World) :
    Prop where
  nodup : files.Nodup
  /-- The files that are updated are those that hold something else, in their order. -/
  updated_eq : report.updated =
    files.filter fun path => (w'.disk.read path).toOption ≠ (w.disk.read path).toOption
  /-- They hold their converted texts. -/
  converted : ∀ path ∈ report.updated, ∃ content text, w.disk.read path = .ok content ∧
    Text.decodeUtf8 content = .ok text ∧ w'.disk.read path = .ok (convertText text).1.toUTF8
  /-- The files that are skipped may not be opened, or hold no text. -/
  mem_skipped_iff : ∀ path reason, (path, reason) ∈ report.skipped ↔
    path ∈ files ∧ ∃ content, w.disk.read path = .ok content ∧
      w.Treats path content (.skipped reason) content
  /-- They hold what they held, and are not told to be updated. -/
  kept : ∀ path reason, (path, reason) ∈ report.skipped →
    w'.disk.read path = w.disk.read path ∧ path ∉ report.updated
  /-- Without one of them all others become the same. -/
  without : ∀ before path after reason, files = before ++ path :: after →
    (path, reason) ∈ report.skipped → (updateFiles w (before ++ after)).2 = w' ∧
      (updateFiles w (before ++ after)).1.updated = report.updated ∧
      (updateFiles w (before ++ after)).1.skipped = report.skipped.filter (·.1 ≠ path)
  /-- Nothing changes in the world but what files hold. -/
  sameShape : w.disk.SameShape w'.disk
  world_eq : w' = { w with disk := w'.disk }
  /-- A file that holds something else is one that is updated. -/
  elsewhere : ∀ place, w'.disk.tree.node? place ≠ w.disk.tree.node? place →
    ∃ path ∈ report.updated, w.disk.find path.route .follow = .ok (.entry place)

namespace Source

section

variable (ht : w.disk.tree.WellFormed) (hpair : files.Pairwise (LeadApart w.disk))
  (hread : ∀ path ∈ files, ∃ content, w.disk.read path = .ok content)
include ht hpair hread

theorem exists_held_of_mem (hpath : path ∈ files) : ∃ content held, w.disk.read path = .ok content ∧
    (updateFiles w files).2.disk.read path = .ok held ∧
        w.Treats path content (updateFile w path).1 held := by
  obtain ⟨content, hcontent⟩ := hread path hpath
  obtain ⟨held, htreats, hheld⟩ := updateFiles_treats ht hpair hpath hcontent
  exact ⟨content, held, hcontent, hheld, htreats⟩

theorem mem_updated_updateFiles_iff :
    path ∈ (updateFiles w files).1.updated ↔ path ∈ files ∧
        (updateFile w path).1.isUpdated = true := by
  rw [updateFiles_report ht hpair hread, UpdateReport.mem_updated_ofUpdates_iff]

theorem mem_skipped_updateFiles_iff :
    (path, reason) ∈ (updateFiles w files).1.skipped ↔ path ∈ files ∧
        (updateFile w path).1 = .skipped reason := by
  rw [updateFiles_report ht hpair hread, UpdateReport.mem_skipped_ofUpdates_iff]

/-- A file holds something else only if it is one that is updated. -/
theorem exists_updated_of_node?_ne
    (hne : (updateFiles w files).2.disk.tree.node? place ≠ w.disk.tree.node? place) :
    ∃ path ∈ (updateFiles w files).1.updated, w.disk.find path.route .follow =
        .ok (.entry place) := by
  obtain ⟨path, hpath, hfind⟩ :
      ∃ path ∈ files, w.disk.find path.route .follow = .ok (.entry place) := by
    by_contra hnone
    exact hne (node?_updateFiles_of_ne ht fun path hpath hfind => hnone ⟨path, hpath, hfind⟩)
  obtain ⟨content, held, hcontent, hheld, htreats⟩ := exists_held_of_mem ht hpair hread hpath
  refine ⟨path,
    (mem_updated_updateFiles_iff ht hpair hread).mpr ⟨hpath, htreats.isUpdated_iff.mpr ?_⟩, hfind⟩
  rintro rfl
  -- what the path leads to holds the same before and after
  obtain ⟨hshape, -⟩ := updateFiles_sameShape ht files
  obtain ⟨there, hthere, hnode⟩ := (Disk.read_eq_ok_iff ht).mp hcontent
  obtain ⟨there', hthere', hnode'⟩ := (Disk.read_eq_ok_iff (hshape.tree.wellFormed ht)).mp hheld
  rw [← hshape.find_eq, hfind] at hthere'
  rw [hfind] at hthere
  cases hthere
  cases hthere'
  exact hne (hnode'.trans hnode.symm)

end

/-- A file that is skipped might as well not be among them, for the report too. -/
theorem updateFiles_without (ht : w.disk.tree.WellFormed)
    (hpair : (before ++ path :: after).Pairwise (LeadApart w.disk))
    (hread : ∀ other ∈ before ++ path :: after, ∃ content, w.disk.read other = .ok content)
    (hskipped : (path, reason) ∈ (updateFiles w (before ++ path :: after)).1.skipped) :
    (updateFiles w (before ++ after)).2 = (updateFiles w (before ++ path :: after)).2 ∧
      (updateFiles w (before ++ after)).1.updated =
        (updateFiles w (before ++ path :: after)).1.updated ∧
      (updateFiles w (before ++ after)).1.skipped =
        (updateFiles w (before ++ path :: after)).1.skipped.filter (·.1 ≠ path) := by
  obtain ⟨hpath, hreason⟩ := (mem_skipped_updateFiles_iff ht hpair hread).mp hskipped
  obtain ⟨content, hcontent⟩ := hread path hpath
  have hsub : (before ++ after).Sublist (before ++ path :: after) :=
    (List.Sublist.refl before).append (List.sublist_cons_self path after)
  rw [updateFiles_report ht hpair hread,
    updateFiles_report ht (hpair.sublist hsub) fun other hother => hread other (hsub.subset hother)]
  exact ⟨(world_updateFiles_of_skipped ht hpair hcontent hreason).symm,
    UpdateReport.ofUpdates_without (nodup_of_leadApart ht hpair hread) hreason⟩

/-- The report of files at places of their own is exact. -/
theorem updateFiles_isExact (ht : w.disk.tree.WellFormed)
    (hpair : files.Pairwise (LeadApart w.disk))
    (hread : ∀ path ∈ files, ∃ content, w.disk.read path = .ok content) :
    (updateFiles w files).1.IsExact files w (updateFiles w files).2 where
  nodup := nodup_of_leadApart ht hpair hread
  updated_eq := by
    rw [updateFiles_report ht hpair hread, UpdateReport.updated_ofUpdates]
    refine List.filter_congr fun path hpath => ?_
    obtain ⟨content, held, hcontent, hheld, htreats⟩ := exists_held_of_mem ht hpair hread hpath
    rw [hcontent, hheld, Bool.eq_iff_iff, htreats.isUpdated_iff]
    simp [Except.toOption]
  converted path hupdated := by
    obtain ⟨hpath, hwritten⟩ := (mem_updated_updateFiles_iff ht hpair hread).mp hupdated
    obtain ⟨content, held, hcontent, hheld, htreats⟩ := exists_held_of_mem ht hpair hread hpath
    obtain ⟨text, htext, rfl⟩ := htreats.of_updated hwritten
    exact ⟨content, text, hcontent, htext, hheld⟩
  mem_skipped_iff path reason := by
    rw [mem_skipped_updateFiles_iff ht hpair hread]
    refine and_congr_right fun hpath => ?_
    obtain ⟨content, held, hcontent, -, htreats⟩ := exists_held_of_mem ht hpair hread hpath
    constructor
    · intro hskipped
      rw [hskipped] at htreats
      exact ⟨content, hcontent, htreats.eq_of_skipped ▸ htreats⟩
    · rintro ⟨content', hcontent', htreats'⟩
      cases hcontent.symm.trans hcontent'
      exact (htreats.unique htreats').1
  kept path reason hskipped := by
    obtain ⟨hpath, hreason⟩ := (mem_skipped_updateFiles_iff ht hpair hread).mp hskipped
    obtain ⟨content, held, hcontent, hheld, htreats⟩ := exists_held_of_mem ht hpair hread hpath
    rw [hreason] at htreats
    rw [hcontent, hheld, htreats.eq_of_skipped, mem_updated_updateFiles_iff ht hpair hread, hreason]
    exact ⟨rfl, fun hupdated => Bool.false_ne_true hupdated.2⟩
  without before path after reason hfiles hskipped := by
    subst hfiles
    exact updateFiles_without ht hpair hread hskipped
  sameShape := (updateFiles_sameShape ht files).1
  world_eq := (updateFiles_sameShape ht files).2
  elsewhere _ := exists_updated_of_node?_ne ht hpair hread

/-- The report of the source files below roots is exact, in the order in which they are found. The
update ends with a failure only at a root, or at a file or link whose path the system does not
take. -/
theorem updateSources_isExact (ht : w.disk.tree.WellFormed)
    (hroots : ∀ r ∈ roots, r.path.IsNormal) :
    let done := updateSources w extensions ignored roots
    done.report.IsExact (sourceFiles w.disk extensions ignored roots).files w done.world ∧
      ∀ failure, done.failure? = some failure → outermostRoots w.disk roots = .error failure ∨
        ∃ kept, outermostRoots w.disk roots = .ok kept ∧ ∃ root ∈ kept, ∃ names node,
          node ≠ .directory ∧ w.disk.Exceeds ignored root names node failure := by
  intro done
  cases hkept : outermostRoots w.disk roots with
  | error failure =>
    -- nothing is found
    have hnone : sourceFiles w.disk extensions ignored roots = ⟨[], some failure⟩ := by
      rw [sourceFiles, hkept]
    have hexact : (updateFiles w []).1.IsExact [] w (updateFiles w []).2 :=
      updateFiles_isExact ht .nil fun path hpath => absurd hpath List.not_mem_nil
    dsimp only [done, updateSources]
    rw [hnone]
    exact ⟨hexact, fun other hfails => .inl (congrArg Except.error (Option.some.inj hfails))⟩
  | ok kept =>
    refine ⟨updateFiles_isExact ht (leadApart_sourceFiles ht hroots hkept) fun path =>
      exists_read_of_mem_sourceFiles ht hroots hkept, fun failure hfails => .inr ⟨kept, rfl, ?_⟩⟩
    obtain ⟨root, hroot, names, node, hnode, -, hexceeds⟩ := exceeds_of_sourceFiles ht hkept hfails
    exact ⟨root, hroot, names, node, hnode, hexceeds⟩

end Source

/-- Five files: one that may not be read, one that holds no text, one that stays as it is, one that
may not be written, and one that is written. -/
def Tree.assorted : Tree :=
  ⟨[(["a.ts"], .file "import A from './subApp'".toUTF8), (["b.ts"], .file ⟨#[0xFF]⟩),
    (["c.ts"], .file "export default 1".toUTF8),
    (["d.ts"], .file "import A from './subApp'".toUTF8),
    (["e.ts"], .file "import A from './subApp'".toUTF8)]⟩

def World.assorted : World :=
  { World.ofTree .assorted with unreadable := ["a.ts"], unwritable := ["d.ts"] }

/-- The last file is written, although three of those before it are skipped. -/
theorem updateSources_isExact_assorted :
    let done := updateSources .assorted usualExtensions ["dist"] [.ofText "."]
    done.report.IsExact (sourceFiles World.assorted.disk usualExtensions ["dist"]
        [.ofText "."]).files .assorted done.world ∧
      done.report.updated = [.parse "e.ts"] ∧
      done.report.skipped.map (·.1) = [.parse "a.ts", .parse "b.ts", .parse "d.ts"] ∧
      done.world.disk.tree.node? ["e.ts"] = some (.file "import A from './sub-app'".toUTF8) := by
  intro done
  have hexact : done.report.IsExact (sourceFiles World.assorted.disk usualExtensions ["dist"]
      [.ofText "."]).files .assorted done.world :=
    (Source.updateSources_isExact (w := .assorted) (by decide) (isNormal_ofText ["."])).1
  exact ⟨hexact, by decide +kernel, by decide +kernel, by decide +kernel⟩

end Recase
