import Recase.Proofs.Preview
import Recase.Proofs.Source.Segments

/-!
# Specifiers of scanned files

What the rule for specifiers makes of the path of a scanned file.

* `convertedStep`, `convertedSpecifier`: the rule on texts. It acts step by step
  (`segments_convertedSpecifier`), on every step as the rule for files (`convertedStep_eq`), and
  makes names of names (`isName_convertedStep_iff`).
* `RulesAgree`: the rule for files gives a name the converted form that the rule for directories
  gives it.
* `convertedSpecifier_path_iff`: the specifier of a scanned file becomes that of its converted path
  if and only if the rules agree on all directories on the way; without its extension, if and only
  if they also agree on what is left of its name.
-/

namespace Recase

open Name Text Recase.Tree

namespace Source

/-! ## The rule for specifiers -/

/-- The converted form of one step of a specifier. -/
def convertedStep (step : String) : String := String.ofList (convertSegment step.toList)

/-- The converted form of a specifier. -/
def convertedSpecifier (specifier : String) : String :=
  String.ofList (convertSpecifier specifier.toList)

variable {step name specifier : String} {names : List String}

theorem toList_convertedStep (step : String) :
    (convertedStep step).toList = fileName step.toList := by
  rw [convertedStep, String.toList_ofList, convertSegment_eq_fileName]

/-- A step is converted as the name of a file, with or without an extension. -/
theorem convertedStep_eq (step : String) : convertedStep step = EntryKind.file.convert step := by
  apply String.toList_injective
  rw [toList_convertedStep, EntryKind.toList_convert]

theorem convertedStep_of_not_isName (h : ¬ IsName step) : convertedStep step = step := by
  have hmem : step.toList ∈ [[], ['.'], ['.', '.']] := by
    rcases step_cases step with (rfl | rfl) | rfl | hname
    · simp
    · simp
    · simp
    · exact absurd hname h
  apply String.toList_injective
  rw [toList_convertedStep, (fileName_eq_step_iff hmem).mpr rfl]

/-- A step becomes a name only if it is one. -/
theorem isName_convertedStep_iff : IsName (convertedStep step) ↔ IsName step := by
  refine ⟨fun h => ?_, fun h => ?_⟩
  · by_contra hname
    rw [convertedStep_of_not_isName hname] at h
    exact hname h
  · -- what becomes a step has been that step
    have hstep : ∀ text : String, text.toList ∈ [[], ['.'], ['.', '.']] →
        convertedStep step = text → step = text := by
      intro text htext heq
      apply String.toList_injective
      rw [← fileName_eq_step_iff htext, ← toList_convertedStep, heq]
    exact ⟨fun he => h.ne_empty (hstep _ (by simp) he), fun he => h.ne_dot (hstep _ (by simp) he),
      fun he => h.ne_dots (hstep _ (by simp) he)⟩

/-- The steps of a relative specifier are converted one by one. -/
theorem segments_convertedSpecifier (h : isRelativeSpecifier specifier.toList = true) :
    PathText.segments (convertedSpecifier specifier) =
      (PathText.segments specifier).map convertedStep := by
  rw [PathText.segments, convertedSpecifier, String.toList_ofList, pieces_convertSpecifier h,
    PathText.segments, List.map_map, List.map_map]
  refine List.map_congr_left fun piece _ => ?_
  simp [convertedStep, convertSegment_eq_fileName]

/-- A specifier that starts with a dot does not become one that starts at the top. -/
theorem head?_convertedSpecifier (h : specifier.toList.head? = some '.') :
    (convertedSpecifier specifier).toList.head? ≠ some '/' := by
  obtain ⟨rest, hrest⟩ : ∃ rest, specifier.toList = '.' :: rest := by
    cases hlist : specifier.toList with
    | nil => simp [hlist] at h
    | cons c rest => exact ⟨rest, by simpa [hlist] using h⟩
  obtain ⟨first, more, hsegments, hfirst⟩ : ∃ first more,
      PathText.segments specifier = first :: more ∧ first ≠ "" := by
    rw [PathText.segments, hrest, pieces]
    cases hpieces : pieces (· == '/') rest with
    | nil => exact absurd hpieces (pieces_ne_nil _ rest)
    | cons piece more => exact ⟨_, _, rfl, by simp⟩
  have hrelative : isRelativeSpecifier specifier.toList = true := by simp [isRelativeSpecifier, h]
  have hconverted := segments_convertedSpecifier hrelative
  rw [hsegments, List.map_cons] at hconverted
  rw [← pathText_segments (convertedSpecifier specifier), hconverted]
  refine head?_pathText_cons (fun he => ?_)
    (not_slash_of_mem_segments (hconverted ▸ List.mem_cons_self))
  have hstay : ¬ IsName first := fun hname =>
    (isName_convertedStep_iff.mpr hname).ne_empty he
  exact hfirst ((convertedStep_of_not_isName hstay).symm.trans he)

/-- The specifier of a path below the directory of the file that refers to it. -/
theorem convertedSpecifier_pathText (hne : names ≠ []) (h : ∀ n ∈ names, IsPlain n) :
    convertedSpecifier ("./" ++ pathText names) =
      "./" ++ pathText (names.map EntryKind.file.convert) := by
  have hdot : ∀ {names : List String}, names ≠ [] →
      "./" ++ pathText names = pathText ("." :: names) := by
    intro names hne
    rw [← List.singleton_append, pathText_append (by simp) hne, pathText_singleton]
    rfl
  have hslash : ∀ n ∈ "." :: names, '/' ∉ n.toList := by
    intro n hn
    rcases List.mem_cons.mp hn with rfl | hn
    · simp
    · exact (h n hn).slash
  have hsteps : ("." :: names).map convertedStep = "." :: names.map EntryKind.file.convert := by
    rw [List.map_cons, convertedStep_of_not_isName fun hname => hname.ne_dot rfl]
    exact congrArg _ (List.map_congr_left fun n _ => convertedStep_eq n)
  have hrelative : isRelativeSpecifier ("./" ++ pathText names).toList = true := by
    simp [isRelativeSpecifier]
  have hsegments := segments_convertedSpecifier hrelative
  rw [hdot hne, segments_pathText (by simp) hslash, hsteps] at hsegments
  rw [hdot hne, hdot (by simpa using hne), ← pathText_segments (convertedSpecifier _), hsegments]

/-! ## The two rules for names -/

/-- The rule for files gives the name the converted form that the rule for directories gives it. -/
def RulesAgree (name : String) : Prop :=
  EntryKind.file.convert name = EntryKind.directory.convert name

instance (name : String) : Decidable (RulesAgree name) := inferInstanceAs (Decidable (_ = _))

theorem rulesAgree_of_not_mem (h : '.' ∉ name.toList) : RulesAgree name := by
  apply String.toList_injective
  rw [EntryKind.toList_convert, EntryKind.toList_convert]
  simp [fileName_eq, cutExtension_of_not_mem h]

/-- A path without the extension of its last name. -/
def withoutExtension (path : String) : String := String.ofList (cutExtension path.toList).1

theorem withoutExtension_pathText {above : List String} (h : '/' ∉ name.toList) :
    withoutExtension (pathText (above ++ [name])) =
        pathText (above ++ [withoutExtension name]) := by
  rcases eq_or_ne above [] with rfl | ha
  · simp
  · apply String.toList_injective
    have hlist : ∀ last, (pathText (above ++ [last])).toList =
        (pathText above).toList ++ '/' :: last.toList := by
      intro last
      rw [pathText_append ha (by simp)]
      simp
    rw [hlist, withoutExtension, String.toList_ofList, hlist, cutExtension_append_slash _ h,
      withoutExtension, String.toList_ofList]

/-- What is left of a name without its extension is converted as a whole. -/
theorem withoutExtension_convert (name : String) :
    withoutExtension (EntryKind.file.convert name) =
      EntryKind.directory.convert (withoutExtension name) := by
  apply String.toList_injective
  rw [withoutExtension, EntryKind.toList_convert, EntryKind.toList_convert, withoutExtension]
  simp [cutExtension_fileName]

theorem isPlain_withoutExtension (h : IsPlain name) (hdot : name.toList.head? ≠ some '.') :
    IsPlain (withoutExtension name) ∧ (withoutExtension name).toList.head? ≠ some '.' := by
  have happ := cutExtension_append name.toList
  have hmem : ∀ c, c ∈ (cutExtension name.toList).1 → c ∈ name.toList :=
    fun c hc => happ ▸ List.mem_append_left _ hc
  have hne : (cutExtension name.toList).1 ≠ [] := by
    rcases cutExtension_cases h.slash with ⟨-, -, -, -, hcut⟩ | ⟨stem, rest, -, ⟨c, hc, -⟩, -, hcut⟩
    · rw [hcut]
      simpa using h.ne_empty
    · rw [hcut]
      exact List.ne_nil_of_mem hc
  have hhead : (withoutExtension name).toList.head? ≠ some '.' := by
    obtain ⟨c, rest, hc⟩ := List.exists_cons_of_ne_nil hne
    rw [← happ, hc] at hdot
    simpa [withoutExtension, hc] using hdot
  refine ⟨⟨fun he => hne ?_, fun he => ?_, fun he => ?_, fun hm => h.slash ?_, fun hm => h.nul ?_⟩,
    hhead⟩
  · simpa [withoutExtension] using congrArg String.toList he
  · rw [he] at hhead
    simp at hhead
  · rw [he] at hhead
    simp at hhead
  · exact hmem _ (by simpa [withoutExtension] using hm)
  · exact hmem _ (by simpa [withoutExtension] using hm)

/-- Whether the specifier of a path becomes that of a path of converted directories. -/
theorem convertedSpecifier_eq_iff {above : List String} {newName : String}
    (h : ∀ n ∈ above ++ [name], IsPlain n ∧ n.toList.head? ≠ some '.') (hnew : IsPlain newName) :
    convertedSpecifier ("./" ++ pathText (above ++ [name])) =
        "./" ++ pathText (above.map EntryKind.directory.convert ++ [newName]) ↔
      (∀ n ∈ above, RulesAgree n) ∧ EntryKind.file.convert name = newName := by
  have hplain : ∀ (kind : EntryKind) (names : List String), names <+: above ++ [name] →
      ∀ n ∈ names.map kind.convert, IsPlain n := by
    intro kind names hnames n hn
    obtain ⟨source, hsource, rfl⟩ := List.mem_map.mp hn
    obtain ⟨hplain, hdot⟩ := h source (hnames.subset hsource)
    exact EntryKind.isPlain_convert hplain hdot
  rw [convertedSpecifier_pathText (by simp) fun n hn => (h n hn).1]
  constructor
  · intro heq
    have htext : pathText ((above ++ [name]).map EntryKind.file.convert) =
        pathText (above.map EntryKind.directory.convert ++ [newName]) := by
      apply String.toList_injective
      simpa using congrArg String.toList heq
    have hlists := pathText_injective (hplain .file _ List.prefix_rfl) (fun n hn => ?_) htext
    · rw [List.map_append, List.map_singleton] at hlists
      obtain ⟨habove, hlast⟩ := List.append_inj' hlists rfl
      exact ⟨List.map_inj_left.mp habove, by simpa using hlast⟩
    · rcases List.mem_append.mp hn with hn | hn
      · exact hplain .directory above (List.prefix_append _ _) n hn
      · rwa [List.mem_singleton.mp hn]
  · rintro ⟨habove, rfl⟩
    rw [List.map_append, List.map_singleton, List.map_inj_left.mpr habove]

end Source

/-! ## Scanned files -/

variable {d : Disk} {ignored : List String} {roots : List Root} {items : List Item} {item : Item}

/-- A scanned item is that of a retained entry. -/
theorem exists_of_mem_scan (ht : d.tree.WellFormed)
    (hscan : (scan d ignored roots).items = .ok items) (hitem : item ∈ items) :
    ∃ e, d.Retains ignored e ∧ e.IsVisible ∧ e.item = item := by
  obtain ⟨kept, -, rfl⟩ := scan_items hscan
  obtain ⟨e, he, rfl⟩ := List.mem_map.mp hitem
  have hretains := ((mem_retained_iff ht).mp he).2
  exact ⟨e, hretains, hretains.isVisible ht, rfl⟩

/-- The names of the directories on the way to the item. -/
def Item.directories (item : Item) : List String := (PathText.segments item.path).dropLast

theorem Retained.IsVisible.item_directories {e : Retained} (h : e.IsVisible) :
    e.item.directories = e.above := by
  rw [Item.directories, h.segments_path, Retained.names, List.dropLast_concat]

/-- The specifier of a scanned file becomes that of its converted path if and only if the rules
agree on the directories on the way, and so does the specifier without the extension if and only if
they agree on the rest of its name, too. -/
theorem convertedSpecifier_path_iff (ht : d.tree.WellFormed)
    (hscan : (scan d ignored roots).items = .ok items) (hitem : item ∈ items)
    (hfile : item.kind = .file) :
    (Source.convertedSpecifier ("./" ++ item.path) = "./" ++ item.convertedPath ↔
        ∀ n ∈ item.directories, Source.RulesAgree n) ∧
      (Source.convertedSpecifier ("./" ++ Source.withoutExtension item.path) =
          "./" ++ Source.withoutExtension item.convertedPath ↔
        (∀ n ∈ item.directories, Source.RulesAgree n) ∧
          Source.RulesAgree (Source.withoutExtension item.name)) := by
  obtain ⟨e, -, hvisible, rfl⟩ := exists_of_mem_scan ht hscan hitem
  have hnew : e.newName = EntryKind.file.convert e.name := by
    rw [Retained.newName, show e.kind = .file from hfile]
  have hnames : ∀ n ∈ e.names, IsPlain n ∧ n.toList.head? ≠ some '.' :=
    fun n hn => ⟨hvisible.isPlain n hn, hvisible.head n hn⟩
  have hconverted : e.item.convertedPath =
      pathText (e.above.map EntryKind.directory.convert ++ [e.newName]) := rfl
  rw [hvisible.item_directories, hvisible.item_name]
  constructor
  · have hiff := Source.convertedSpecifier_eq_iff hnames hvisible.isPlain_newName
    rw [hconverted]
    exact hiff.trans (and_iff_left hnew.symm)
  · obtain ⟨hstem, hdot⟩ :=
      Source.isPlain_withoutExtension hvisible.isPlain_name hvisible.head_name
    have hplain := EntryKind.directory.isPlain_convert hstem hdot
    have hpath : Source.withoutExtension e.item.path =
        pathText (e.above ++ [Source.withoutExtension e.name]) :=
      Source.withoutExtension_pathText hvisible.isPlain_name.slash
    rw [hpath, hconverted, Source.withoutExtension_pathText hvisible.isPlain_newName.slash, hnew,
      Source.withoutExtension_convert]
    refine Source.convertedSpecifier_eq_iff (fun n hn => ?_) hplain
    rcases List.mem_append.mp hn with hn | hn
    · exact hnames n (List.mem_append_left _ hn)
    · rw [List.mem_singleton.mp hn]
      exact ⟨hstem, hdot⟩

/-- A file in a directory with a capital after a dot, and one that refers to it. -/
def Tree.dotted : Tree :=
  ⟨[(["mainApp.spec.ts"], .file "import x from './v1.Beta/fooBar'".toUTF8),
    (["v1.Beta"], .directory), (["v1.Beta", "fooBar.ts"], .file ⟨#[]⟩)]⟩

/-- The item of the file in the directory. -/
def Item.dotted : Item := ⟨"v1.Beta/fooBar.ts", "v1.beta/foo-bar.ts", .file, true, ⟨.relative, []⟩⟩

/-- The item of the other. -/
def Item.dottedMain : Item := ⟨"mainApp.spec.ts", "main-app.spec.ts", .file, true, ⟨.relative, []⟩⟩

/-- The specifiers of the file keep the name of its directory, which is renamed. -/
theorem convertedSpecifier_dotted :
    ∃ items, (scan (World.ofTree .dotted).disk [] (["."].map .ofText)).items = .ok items ∧
      Item.dotted ∈ items ∧ Item.dotted.kind = .file ∧
      Source.convertedSpecifier ("./" ++ Item.dotted.path) = "./v1.Beta/foo-bar.ts" ∧
      "./v1.Beta/foo-bar.ts" ≠ "./" ++ Item.dotted.convertedPath ∧
      Source.convertedSpecifier ("./" ++ Source.withoutExtension Item.dotted.path) =
        "./v1.Beta/foo-bar" ∧
      "./v1.Beta/foo-bar" ≠ "./" ++ Source.withoutExtension Item.dotted.convertedPath :=
  exists_ok_of_any (by decide +kernel)

theorem convertedSpecifier_path_dotted :
    Source.convertedSpecifier ("./" ++ Item.dottedMain.path) =
        "./" ++ Item.dottedMain.convertedPath ∧
      Source.convertedSpecifier ("./" ++ Source.withoutExtension Item.dottedMain.path) =
        "./" ++ Source.withoutExtension Item.dottedMain.convertedPath := by
  obtain ⟨items, hscan, hitem⟩ : ∃ items,
      (scan (World.ofTree .dotted).disk [] (["."].map .ofText)).items = .ok items ∧
        Item.dottedMain ∈ items := exists_ok_of_any (by decide +kernel)
  obtain ⟨hpath, hstem⟩ := convertedSpecifier_path_iff (d := (World.ofTree .dotted).disk)
    (by decide) hscan hitem rfl
  exact ⟨hpath.mpr (by decide), hstem.mpr (by decide)⟩

end Recase
