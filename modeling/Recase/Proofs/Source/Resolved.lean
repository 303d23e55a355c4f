import Recase.Proofs.Source.Specifier

/-!
# References between scanned files

Where a specifier leads from the directory of a file, and that it leads there still once files and
specifier are converted.

* `resolveFrom?`, `resolve?`: where steps lead below a top when no link is followed. Two dots take a
  name back, and none may be missing.
* `resolveFrom?_map`: renaming the names on the way, and the steps in any way that keeps them names,
  renames what they lead to: what is left of the start, and the steps after it.
* `resolve?_convertedSpecifier`: a relative specifier that leads from one scanned file to another
  leads from the converted path of the one to that of the other once it is converted.
-/

namespace Recase

open Name Text Recase.Tree

namespace Source

/-- The names below a top to which steps lead from the names `here`, unless they climb above the
top. -/
def resolveFrom? : (here : List String) → List String → Option (List String)
  | here, [] => some here
  | here, step :: rest =>
    if step = "" ∨ step = "." then resolveFrom? here rest
    else if step = ".." then if here = [] then none else resolveFrom? here.dropLast rest
    else resolveFrom? (here ++ [step]) rest

/-- The path below a top that a path with dots leads to, unless it climbs above the top. -/
def resolve? (path : String) : Option String :=
  (resolveFrom? [] (PathText.segments path)).map pathText

variable {here names rest steps : List String} {step : String}

theorem resolveFrom?_skip (h : step = "" ∨ step = ".") :
    resolveFrom? here (step :: rest) = resolveFrom? here rest := by
  rw [resolveFrom?, if_pos h]

theorem resolveFrom?_up :
    resolveFrom? here (".." :: rest) =
      if here = [] then none else resolveFrom? here.dropLast rest := by
  rw [resolveFrom?, if_neg (by decide), if_pos rfl]

theorem resolveFrom?_name (h : IsName step) :
    resolveFrom? here (step :: rest) = resolveFrom? (here ++ [step]) rest := by
  rw [resolveFrom?, if_neg h.not_skip, if_neg h.ne_dots]

theorem resolveFrom?_append (h : ∀ n ∈ names, IsName n) :
    resolveFrom? here (names ++ steps) = resolveFrom? (here ++ names) steps := by
  induction names generalizing here with
  | nil => simp
  | cons name rest ih =>
    rw [List.cons_append, resolveFrom?_name (h name (by simp)), ih fun n hn => h n (by simp [hn]),
      List.append_assoc, List.singleton_append]

/-- The names that steps lead to are among them and those of the start. -/
theorem mem_of_resolveFrom? (h : resolveFrom? here steps = some names) :
    ∀ n ∈ names, n ∈ here ∨ n ∈ steps := by
  induction steps generalizing here with
  | nil =>
    cases h
    exact fun n hn => .inl hn
  | cons step rest ih =>
    intro n hn
    rcases step_cases step with hskip | rfl | hname
    · rw [resolveFrom?_skip hskip] at h
      exact (ih h n hn).imp_right (List.mem_cons_of_mem _)
    · rw [resolveFrom?_up] at h
      split at h
      · cases h
      · exact (ih h n hn).imp (List.dropLast_subset _ ·) (List.mem_cons_of_mem _)
    · rw [resolveFrom?_name hname] at h
      rcases ih h n hn with hmem | hmem
      · rcases List.mem_append.mp hmem with hmem | hmem
        · exact .inl hmem
        · exact .inr (List.mem_singleton.mp hmem ▸ List.mem_cons_self)
      · exact .inr (List.mem_cons_of_mem _ hmem)

/-- Steps that are renamed lead to what is left of the start, and after it to the renamed steps. -/
theorem resolveFrom?_map {f g : String → String} (hname : ∀ step, IsName step → IsName (g step))
    (hstay : ∀ step, ¬ IsName step → g step = step) {front pushed : List String}
    (h : resolveFrom? (front ++ pushed) steps = some names) :
    ∃ front' pushed', front' <+: front ∧ names = front' ++ pushed' ∧
      resolveFrom? (front.map f ++ pushed.map g) (steps.map g) =
        some (front'.map f ++ pushed'.map g) := by
  induction steps generalizing front pushed with
  | nil =>
    cases h
    exact ⟨front, pushed, List.prefix_rfl, rfl, rfl⟩
  | cons step rest ih =>
    rw [List.map_cons]
    rcases step_cases step with hskip | rfl | hstep
    · rw [resolveFrom?_skip hskip] at h
      rw [hstay step (fun hstep => hstep.not_skip hskip), resolveFrom?_skip hskip]
      exact ih h
    · rw [hstay ".." (fun hstep => hstep.ne_dots rfl)]
      rw [resolveFrom?_up] at h ⊢
      split at h
      · cases h
      rename_i hne
      rw [if_neg (by simpa using hne)]
      -- the step takes back one of the steps before it, or else a name of the start
      rcases List.eq_nil_or_concat pushed with rfl | ⟨pushed, last, rfl⟩
      · rw [List.append_nil, ← List.append_nil front.dropLast] at h
        obtain ⟨front', pushed', hfront, hnames, hresolve⟩ := ih h
        refine ⟨front', pushed', hfront.trans (List.dropLast_prefix front), hnames, ?_⟩
        simpa [List.map_dropLast] using hresolve
      · rw [List.concat_eq_append, ← List.append_assoc, List.dropLast_concat] at h
        have hlast : front.map f ++ (pushed.concat last).map g =
            front.map f ++ pushed.map g ++ [g last] := by simp
        rw [hlast, List.dropLast_concat]
        exact ih h
    · rw [resolveFrom?_name hstep, List.append_assoc] at h
      rw [resolveFrom?_name (hname step hstep), List.append_assoc]
      simpa using ih h

end Source

variable {d : Disk} {ignored : List String} {roots : List Root} {items : List Item}
  {origin target : Item} {specifier : String}

/-- A relative specifier that leads from one scanned file to another, over directories without dots
in their names, leads there once files and specifier are converted. -/
theorem resolve?_convertedSpecifier (ht : d.tree.WellFormed)
    (hscan : (scan d ignored roots).items = .ok items) (horigin : origin ∈ items)
    (htarget : target ∈ items) (hroot : origin.root = target.root) (hfile : target.kind = .file)
    (hdots : ∀ n ∈ target.directories, '.' ∉ n.toList)
    (hrelative : specifier.toList.head? = some '.')
    (hleads : Source.resolve? (PathText.joinText (PathText.parentText origin.path) specifier) =
      some target.path) :
    Source.resolve? (PathText.joinText (PathText.parentText origin.convertedPath)
        (Source.convertedSpecifier specifier)) = some target.convertedPath := by
  obtain ⟨e, hretains, hvisible, rfl⟩ := exists_of_mem_scan ht hscan horigin
  obtain ⟨e', hretains', hvisible', rfl⟩ := exists_of_mem_scan ht hscan htarget
  rw [hvisible'.item_directories] at hdots
  have hparent : PathText.parentText e.item.path = pathText e.above :=
    parentText_pathText hvisible.isPlain_name.slash hvisible.isPlain_above
  have hnewParent : PathText.parentText e.item.convertedPath = pathText e.newAbove :=
    parentText_pathText hvisible.isPlain_newName.slash hvisible.isPlain_newAbove
  -- the steps that lead to the target
  rw [hparent, Source.resolve?, segments_joinText hvisible.isPlain_above (by simp [hrelative]),
    Source.resolveFrom?_append fun n hn => (hvisible.isPlain_above n hn).isName, List.nil_append,
    Option.map_eq_some_iff] at hleads
  obtain ⟨names, hresolve, htext⟩ := hleads
  obtain rfl : names = e'.names := by
    have hslash : ∀ n ∈ names, '/' ∉ n.toList := by
      intro n hn
      rcases Source.mem_of_resolveFrom? hresolve n hn with hmem | hmem
      · exact (hvisible.isPlain_above n hmem).slash
      · exact not_slash_of_mem_segments hmem
    have hne : names ≠ [] := by
      rintro rfl
      have hnil : [] = e'.names := pathText_injective (by simp) hvisible'.isPlain htext
      simp [Retained.names] at hnil
    rw [← segments_pathText hne hslash, htext]
    exact segments_pathText (by simp [Retained.names]) fun n hn => (hvisible'.isPlain n hn).slash
  rw [← List.append_nil e.above] at hresolve
  obtain ⟨front, pushed, hfront, hnames, hconverted⟩ :=
    Source.resolveFrom?_map (f := EntryKind.directory.convert)
      (fun step => Source.isName_convertedStep_iff.mpr)
      (fun step => Source.convertedStep_of_not_isName) hresolve
  -- the last of the names is a step, for what is left of the start are directories
  obtain ⟨between, rfl⟩ : ∃ between, pushed = between ++ [e'.name] := by
    rcases List.eq_nil_or_concat pushed with rfl | ⟨between, last, rfl⟩
    · exfalso
      obtain ⟨rest, hrest⟩ := hfront
      obtain ⟨node, hnode, hkind⟩ := hretains'.node
      obtain ⟨node', hnode', -⟩ := hretains.node
      have htop : e.top = e'.top := by
        have htop := hretains.top
        rw [show e.root = e'.root from hroot, hretains'.top] at htop
        exact (Option.some.inj htop).symm
      have hdir := ht.isDirectory_of_concat hnode'
      rw [List.append_nil] at hnames
      rw [Retained.directory, ← hrest, ← hnames, htop, ← List.append_assoc, ← e'.place_eq] at hdir
      have hplace := ht.isDirectory_of_isDirectory_append hdir
      rw [isDirectory_iff.mp hplace] at hnode
      cases hnode
      rw [show e'.kind = .file from hfile] at hkind
      cases hkind
    · refine ⟨between, ?_⟩
      rw [Retained.names, List.concat_eq_append, ← List.append_assoc] at hnames
      rw [List.concat_eq_append, (List.append_inj' hnames rfl).2]
  have habove : e'.above = front ++ between := by
    rw [Retained.names, ← List.append_assoc] at hnames
    exact (List.append_inj' hnames rfl).1
  have hbetween : between.map Source.convertedStep = between.map EntryKind.directory.convert := by
    refine List.map_congr_left fun n hn => ?_
    have hmem : n ∈ e'.above := habove ▸ List.mem_append_right _ hn
    rw [Source.convertedStep_eq]
    exact Source.rulesAgree_of_not_mem (hdots n hmem)
  have hname : Source.convertedStep e'.name = e'.newName := by
    rw [Source.convertedStep_eq, Retained.newName, show e'.kind = .file from hfile]
  have hhead := Source.head?_convertedSpecifier hrelative
  have hsteps : PathText.segments (Source.convertedSpecifier specifier) =
      (PathText.segments specifier).map Source.convertedStep :=
    Source.segments_convertedSpecifier (by simp [Source.isRelativeSpecifier, hrelative])
  rw [hnewParent, Source.resolve?, segments_joinText hvisible.isPlain_newAbove hhead,
    Source.resolveFrom?_append fun n hn => (hvisible.isPlain_newAbove n hn).isName, List.nil_append,
    hsteps]
  rw [List.map_nil, List.append_nil] at hconverted
  rw [Retained.newAbove, hconverted, Option.map_some]
  rw [List.map_append, hbetween, List.map_singleton, hname, ← List.append_assoc, ← List.map_append,
    ← habove]
  rfl

/-- Two directories with a file in each. -/
def Tree.referring : Tree :=
  ⟨[(["libCode"], .directory), (["libCode", "fooBar.v2.ts"], .file ⟨#[]⟩),
    (["srcFiles"], .directory), (["srcFiles", "MainApp.ts"], .file ⟨#[]⟩)]⟩

/-- The item of the file in the second of them. -/
def Item.referring : Item :=
  ⟨"srcFiles/MainApp.ts", "src-files/main-app.ts", .file, true, ⟨.relative, []⟩⟩

/-- The item of the file in the first. -/
def Item.referred : Item :=
  ⟨"libCode/fooBar.v2.ts", "lib-code/foo-bar.v2.ts", .file, true, ⟨.relative, []⟩⟩

theorem resolve?_convertedSpecifier_referring :
    Source.resolve? (PathText.joinText (PathText.parentText Item.referring.path)
        ".././srcFiles/My.Own/../../libCode//fooBar.v2.ts") = some Item.referred.path ∧
      Source.resolve? (PathText.joinText (PathText.parentText Item.referring.convertedPath)
        (Source.convertedSpecifier ".././srcFiles/My.Own/../../libCode//fooBar.v2.ts")) =
          some Item.referred.convertedPath := by
  obtain ⟨items, hscan, horigin, htarget⟩ : ∃ items,
      (scan (World.ofTree .referring).disk [] (["."].map .ofText)).items = .ok items ∧
        Item.referring ∈ items ∧ Item.referred ∈ items := exists_ok_of_any (by decide +kernel)
  have hleads : Source.resolve? (PathText.joinText (PathText.parentText Item.referring.path)
      ".././srcFiles/My.Own/../../libCode//fooBar.v2.ts") = some Item.referred.path := by
    decide
  exact ⟨hleads, resolve?_convertedSpecifier (d := (World.ofTree .referring).disk) (by decide)
    hscan horigin htarget rfl rfl (by decide) (by decide) hleads⟩

end Recase
