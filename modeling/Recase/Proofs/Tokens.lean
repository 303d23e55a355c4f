import Recase.Proofs.Ending
import Recase.Proofs.Name.Intended

/-!
# Plans but for their tokens

A temporary name that is taken gets a token, and no two plans draw the same. Two plans of one disk
are the same in all else.

* `EqButToken`: texts that are the same, or temporary names of one text with tokens of one drawing.
  `Move.EqButToken`: moves between such texts.
* `planMoves_eqButToken`: two sources of tokens give the same moves but for them.
* `temporaryTarget?_freePath`: the converted name of an item is read off the name over which it is
  taken, with a token or without.
* `exists_warningsOf`: whether the warnings of a plan can be told does not hang on its tokens.
* `run_of_preview`: a run finds the conflicts of a preview with other tokens, and what it gives is
  what the preview has shown.
-/

namespace Recase

open Name

/-- The texts are the same, or temporary names of one text with tokens of one drawing. -/
inductive EqButToken (token token' : Nat → String) : String → String → Prop
  | same (text : String) : EqButToken token token' text text
  | tokens (text : String) (drawing : Nat) :
      EqButToken token token' (text ++ temporarySuffix ++ "-" ++ token drawing)
        (text ++ temporarySuffix ++ "-" ++ token' drawing)

/-- The moves are the same but for the tokens in temporary names. -/
structure Move.EqButToken (token token' : Nat → String) (m m' : Move) : Prop where
  source : Recase.EqButToken token token' m.source m'.source
  target : Recase.EqButToken token token' m.target m'.target
  root : m'.root = m.root
  isPaired : m'.isPaired = m.isPaired

/-- The tokens from the one of a drawing on. -/
def tokensFrom (token : Nat → String) (drawn : Nat) : Nat → String := fun k => token (drawn + k)

variable {isTaken : Path → Bool} {token token' : Nat → String} {item : Item} {items : List Item}
  {moves moves' : List Move} {m m' : Move} {text name : String} {drawn drawn' : Nat}

/-! ## The moves of a plan -/

theorem freePath_eqButToken (isTaken : Path → Bool) (token token' : Nat → String)
    (drawn drawn' j : Nat) (item : Item) :
    EqButToken (tokensFrom token drawn) (tokensFrom token' drawn')
        (freePath isTaken token (drawn + j) item).1 (freePath isTaken token' (drawn' + j) item).1 ∧
      ∃ j', (freePath isTaken token (drawn + j) item).2 = drawn + j' ∧
        (freePath isTaken token' (drawn' + j) item).2 = drawn' + j' := by
  unfold freePath
  split
  · exact ⟨.tokens item.convertedPath (j + 1), j + 1, rfl, rfl⟩
  · exact ⟨.same _, j, rfl, rfl⟩

theorem movesOf_eqButToken (isTaken : Path → Bool) (token token' : Nat → String)
    (drawn drawn' j : Nat) (item : Item) :
    List.Forall₂ (Move.EqButToken (tokensFrom token drawn) (tokensFrom token' drawn'))
        (movesOf isTaken token (drawn + j) item).1 (movesOf isTaken token' (drawn' + j) item).1 ∧
      ∃ j', (movesOf isTaken token (drawn + j) item).2 = drawn + j' ∧
        (movesOf isTaken token' (drawn' + j) item).2 = drawn' + j' := by
  unfold movesOf
  split
  · obtain ⟨hbetween, hdrawn⟩ := freePath_eqButToken isTaken token token' drawn drawn' j item
    exact ⟨.cons ⟨.same _, hbetween, rfl, rfl⟩ (.cons ⟨hbetween, .same _, rfl, rfl⟩ .nil), hdrawn⟩
  · exact ⟨.cons ⟨.same _, .same _, rfl, rfl⟩ .nil, j, rfl, rfl⟩

theorem movesOfAll_cons (isTaken : Path → Bool) (token : Nat → String) (drawn : Nat) (item : Item)
    (rest : List Item) :
    (movesOfAll isTaken token drawn (item :: rest)).1 = (movesOf isTaken token drawn item).1 ++
      (movesOfAll isTaken token (movesOf isTaken token drawn item).2 rest).1 := by
  rw [movesOfAll]

theorem movesOfAll_eqButToken (isTaken : Path → Bool) (token token' : Nat → String)
    (drawn drawn' j : Nat) (items : List Item) :
    List.Forall₂ (Move.EqButToken (tokensFrom token drawn) (tokensFrom token' drawn'))
      (movesOfAll isTaken token (drawn + j) items).1
          (movesOfAll isTaken token' (drawn' + j) items).1 := by
  induction items generalizing j with
  | nil => exact .nil
  | cons item rest ih =>
    obtain ⟨hmoves, j', hdrawn, hdrawn'⟩ :=
      movesOf_eqButToken isTaken token token' drawn drawn' j item
    rw [movesOfAll_cons, movesOfAll_cons, hdrawn, hdrawn']
    exact List.rel_append hmoves (ih j')

/-- Two sources of tokens give the same moves but for them. -/
theorem planMoves_eqButToken (isTaken : Path → Bool) (token token' : Nat → String)
    (drawn drawn' : Nat) (items : List Item) :
    List.Forall₂ (Move.EqButToken (tokensFrom token drawn) (tokensFrom token' drawn'))
      (planMoves isTaken token drawn items).1 (planMoves isTaken token' drawn' items).1 :=
  movesOfAll_eqButToken isTaken token token' drawn drawn' 0 _

/-! ## Names with tokens -/

/-- The token of a temporary path belongs to its last name. -/
theorem lastName_tokened (htoken : IsToken text) :
    PathText.lastName (name ++ temporarySuffix ++ "-" ++ text) =
      PathText.lastName name ++ temporarySuffix ++ "-" ++ text := by
  have hslash : '/' ∉ text.toList :=
    fun hm => (isSmall_of_isHexDigit (htoken.2 _ hm)).2 (.inr (.inl rfl))
  rw [lastName_append hslash, lastName_append (by decide), lastName_append (by decide)]

/-- Whether a name with a token is a temporary one does not hang on the token. -/
theorem isTemporary_tokened {text' : String} (htoken : IsToken text) (htoken' : IsToken text') :
    isTemporary (PathText.lastName (name ++ temporarySuffix ++ "-" ++ text)) =
      isTemporary (PathText.lastName (name ++ temporarySuffix ++ "-" ++ text')) := by
  simp only [isTemporary, temporaryTarget?, lastName_tokened htoken, lastName_tokened htoken',
    (IsTemporaryFor.tokened htoken).dropTemporary?_eq,
      (IsTemporaryFor.tokened htoken').dropTemporary?_eq]

/-- There is something through the last occurrence of what occurs. -/
theorem throughLast?_ne_none {part cs : List Char} (h : part <:+: cs) :
    throughLast? part cs ≠ none := by
  induction cs with
  | nil => simp [throughLast?, List.infix_nil.mp h]
  | cons c rest ih =>
    rw [throughLast?]
    split
    · simp
    · rename_i hnone
      rcases List.infix_cons_iff.mp h with hpre | hrest
      · simp [List.isPrefixOf_iff_prefix.mpr hpre]
      · exact absurd hnone (ih hrest)

/-! ## The path between -/

/-- The path over which an item is taken ends in a temporary name for its converted one. -/
theorem isTemporaryFor_freePath (htoken : ∀ n, IsToken (token n)) (drawn : Nat) (item : Item) :
    IsTemporaryFor item.convertedName
        (PathText.lastName (freePath isTaken token drawn item).1) := by
  unfold freePath
  split
  · rw [Item.temporaryPath, lastName_tokened (htoken _)]
    exact .tokened (htoken _)
  · rw [Item.temporaryPath, lastName_append (by decide)]
    exact .untokened

/-- The converted name of an item is read off the name over which it is taken, whether that has a
token or not, if there is no line feed in it and it is not empty, as those of scanned items never
are. Of the names without a line feed those are read that are an intended name with the suffix, and
with a hyphen and a token or without, and they are read in this way alone. -/
theorem temporaryTarget?_freePath (isTaken : Path → Bool) (htoken : ∀ n, IsToken (token n)) :
    (∀ (item : Item) (drawn : Nat), '\n' ∉ item.convertedName.toList → ∀ target : String,
        temporaryTarget? (PathText.lastName (freePath isTaken token drawn item).1) = some target ↔
          target ≠ "" ∧ target = item.convertedName) ∧
      (∀ (d : Disk) (ignored : List String) (roots : List Root) (items : List Item),
        d.tree.WellFormed → (scan d ignored roots).items = .ok items →
        ∀ item ∈ items, ∀ drawn, '\n' ∉ item.convertedName.toList →
          temporaryTarget? (PathText.lastName (freePath isTaken token drawn item).1) =
            some item.convertedName) ∧
      ∀ name target : String, '\n' ∉ name.toList →
        (temporaryTarget? name = some target ↔ target ≠ "" ∧ IsTemporaryFor target name) := by
  refine ⟨fun item drawn hline target => ?_,
    fun d ignored roots items ht hitems item hitem drawn hline => ?_,
    fun name target hline => temporaryTarget?_eq_some_iff_of_not_mem hline⟩
  · rw [(isTemporaryFor_freePath htoken drawn item).temporaryTarget?_eq_some_iff]
    constructor
    · rintro ⟨rfl, hne, -⟩
      exact ⟨hne, rfl⟩
    · rintro ⟨hne, rfl⟩
      exact ⟨rfl, hne, hline⟩
  · obtain ⟨kept, -, rfl⟩ := scan_items hitems
    obtain ⟨e, he, rfl⟩ := List.mem_map.mp hitem
    have hvisible := isVisible_of_mem_retained ht e he
    rw [(isTemporaryFor_freePath htoken drawn e.item).temporaryTarget?_eq_some_iff]
    exact ⟨rfl, hvisible.item_convertedName ▸ hvisible.isPlain_newName.ne_empty, hline⟩

/-- A file whose name looks like a temporary one with a token. -/
def Tree.suffixed : Tree := ⟨[(["Note.temp-rename-0000000a"], .file .empty)]⟩

/-- All of its converted name is read back, and not what stands before the first suffix in it. -/
theorem temporaryTarget?_freePath_suffixed :
    ∃ items, (scan (World.ofTree .suffixed).disk [] (["."].map .ofText)).items = .ok items ∧
      ∃ item ∈ items, PathText.lastName (freePath (fun _ => true) tokenText 0 item).1 =
          "note.temp-rename-0000000a.temp-rename-00000001" ∧
        temporaryTarget? (PathText.lastName (freePath (fun _ => true) tokenText 0 item).1) =
          some item.convertedName ∧
        item.convertedName = "note.temp-rename-0000000a" ∧
        ¬ IsTemporaryFor "note" "note.temp-rename-0000000a.temp-rename-00000001" := by
  obtain ⟨items, hitems, item, hitem, hname⟩ : ∃ items,
      (scan (World.ofTree .suffixed).disk [] (["."].map .ofText)).items = .ok items ∧
        ∃ item ∈ items, item.convertedName = "note.temp-rename-0000000a" :=
    exists_ok_of_any (by decide +kernel)
  have hlast : PathText.lastName (freePath (fun _ => true) tokenText 0 item).1 =
      item.convertedName ++ temporarySuffix ++ "-" ++ tokenText 1 :=
        lastName_tokened (isToken_tokenText 1)
  rw [hname, show "note.temp-rename-0000000a" ++ temporarySuffix ++ "-" ++ tokenText 1 =
    "note.temp-rename-0000000a.temp-rename-00000001" by decide] at hlast
  have hline : '\n' ∉ item.convertedName.toList := by
    rw [hname]
    decide
  obtain ⟨hread, hscanned, hnames⟩ := temporaryTarget?_freePath (fun _ => true) isToken_tokenText
  have htarget := hscanned _ _ _ items (by decide) hitems item hitem 0 hline
  refine ⟨items, hitems, item, hitem, hlast, htarget, hname, fun hnote => ?_⟩
  have hother := (hnames _ "note" (by decide)).mpr ⟨by decide, hnote⟩
  rw [← hlast] at hother
  obtain ⟨-, hsame⟩ := (hread item 0 hline "note").mp hother
  exact absurd (hsame.trans hname) (by decide)

/-! ## Warnings -/

theorem EqButToken.isTemporary_eq {a b : String} (h : EqButToken token token' a b)
    (htoken : ∀ n, IsToken (token n)) (htoken' : ∀ n, IsToken (token' n)) :
    isTemporary (PathText.lastName a) = isTemporary (PathText.lastName b) := by
  cases h with
  | same => rfl
  | tokens text drawing => exact isTemporary_tokened (htoken drawing) (htoken' drawing)

theorem EqButToken.isSuffixOf_eq {a b : String} (h : EqButToken token token' a b)
    (htoken : ∀ n, IsToken (token n)) (htoken' : ∀ n, IsToken (token' n)) :
    temporarySuffix.toList.isSuffixOf a.toList = temporarySuffix.toList.isSuffixOf b.toList := by
  cases h with
  | same => rfl
  | tokens text drawing =>
    have hfalse : ∀ t, IsToken t → temporarySuffix.toList.isSuffixOf
        (text.toList ++ (temporarySuffix.toList ++ '-' :: t.toList)) = false := by
      intro t ht
      rw [← List.append_assoc]
      exact isSuffixOf_tokened ht
    simp only [String.toList_append, List.append_assoc]
    exact (hfalse _ (htoken drawing)).trans (hfalse _ (htoken' drawing)).symm

theorem EqButToken.throughLast?_ne_none {a b : String} (h : EqButToken token token' a b)
    (ha : throughLast? temporarySuffix.toList a.toList ≠ none) :
    throughLast? temporarySuffix.toList b.toList ≠ none := by
  cases h with
  | same => exact ha
  | tokens text drawing =>
    refine Recase.throughLast?_ne_none ⟨text.toList, '-' :: (token' drawing).toList, ?_⟩
    simp

theorem Move.EqButToken.needsWarning_eq (h : m.EqButToken token token' m')
    (htoken : ∀ n, IsToken (token n)) (htoken' : ∀ n, IsToken (token' n)) :
    m.needsWarning = m'.needsWarning := by
  rw [needsWarning, needsWarning, leavesTemporary, leavesTemporary, h.isPaired,
    h.source.isTemporary_eq htoken htoken', h.target.isSuffixOf_eq htoken htoken']

/-- The warnings of moves can be told if the suffix occurs in the target of each that needs one. -/
theorem exists_warningsOf_iff :
    (∃ warnings, warningsOf moves = .ok warnings) ↔ ∀ m ∈ moves, m.needsWarning = true →
      throughLast? temporarySuffix.toList m.target.toList ≠ none := by
  induction moves with
  | nil => simp [warningsOf]
  | cons m rest ih =>
    rw [List.forall_mem_cons, ← ih, warningsOf]
    by_cases hneeds : m.needsWarning = true
    · rw [if_pos hneeds]
      cases hkept : throughLast? temporarySuffix.toList m.target.toList with
      | none => simp [hneeds]
      | some kept =>
        cases hrest : warningsOf rest <;> simp [hneeds, Except.map]
    · rw [if_neg hneeds]
      simp [hneeds]

/-- Whether the warnings of moves can be told does not hang on the tokens. -/
theorem exists_warningsOf {warnings : List TokenWarning} (htoken : ∀ n, IsToken (token n))
    (htoken' : ∀ n, IsToken (token' n))
    (h : List.Forall₂ (Move.EqButToken token token') moves moves')
    (hwarnings : warningsOf moves = .ok warnings) :
    ∃ warnings', warningsOf moves' = .ok warnings' := by
  have hall := exists_warningsOf_iff.mp ⟨warnings, hwarnings⟩
  rw [exists_warningsOf_iff]
  clear hwarnings
  induction h with
  | nil => simp
  | cons hm _ ih =>
    rw [List.forall_mem_cons] at hall ⊢
    refine ⟨fun hneeds => hm.target.throughLast?_ne_none (hall.1 ?_), ih hall.2⟩
    rwa [hm.needsWarning_eq htoken htoken']

/-! ## A preview and a run -/

variable {o : Options} {w : World} {roots : List Root} {kept : List Path} {plan : Plan}
  {standing : Standing} {ignored : List String}

/-- A preview of roots, and one of those that are kept of them with other tokens. -/
theorem preview_eqButToken (htoken : ∀ n, IsToken (w.token n))
    (htoken' : ∀ n, IsToken (token' n)) (hkept : outermostRoots w.disk roots = .ok kept)
    (hagain : outermostRoots w.disk (kept.map .ofPath) = .ok kept)
    (h : (preview { w with token := token', drawn := drawn' } ignored roots).plan = .ok plan) :
    ∃ plan', (preview w ignored (kept.map .ofPath)).plan = .ok plan' ∧
      plan'.scanned = plan.scanned ∧ plan'.items = plan.items ∧ plan'.conflicts = plan.conflicts ∧
      List.Forall₂ (Move.EqButToken (tokensFrom token' drawn') (tokensFrom w.token w.drawn))
        plan.moves plan'.moves := by
  obtain ⟨items, hitems⟩ := exists_items_of_preview h
  have hitems' : (scan w.disk ignored (kept.map .ofPath)).items = .ok items := by
    rw [← hitems, scan, scan, hkept, hagain]
  cases hwarnings :
      warningsOf (planMoves (fun path => w.disk.hasEntry path.route) token' drawn' items).1 with
  | error failure =>
    simp [preview, hitems, buildPlan, hwarnings, Except.map] at h
  | ok warnings =>
    have hmoves :=
      planMoves_eqButToken (fun path => w.disk.hasEntry path.route) token' w.token drawn'
        w.drawn items
    obtain ⟨warnings', hwarnings'⟩ :=
      exists_warningsOf (fun n => htoken' _) (fun n => htoken _) hmoves hwarnings
    obtain ⟨hplan, -⟩ := preview_of_scan (w := { w with token := token', drawn := drawn' })
      hitems rfl hwarnings
    obtain ⟨hplan', -⟩ := preview_of_scan hitems' rfl hwarnings'
    obtain rfl := Except.ok.inj (h.symm.trans hplan)
    exact ⟨_, hplan', rfl, rfl, rfl, hmoves⟩

/-- A run finds the conflicts of a preview, whatever tokens each of them draws. What a run gives
that ends well, a dry one or not, is what the preview has shown but for the tokens. -/
theorem run_of_preview {texts : List String} (ht : w.disk.tree.WellFormed)
    (htoken : ∀ n, IsToken (w.token n)) (htoken' : ∀ n, IsToken (token' n))
    (hstanding : standingOf w.disk w.git.repositories (texts.map .ofText) = .ok standing)
    (hsafe : ensureSafe standing o.force = .ok ())
    (hplan : (preview { w with token := token', drawn := drawn' } o.ignored
      (texts.map .ofText)).plan = .ok plan) :
    (∀ conflicts, (run o (texts.map .ofText) w).result = .error (.conflicting conflicts) ↔
        plan.conflicts ≠ [] ∧ conflicts = plan.conflicts) ∧
      ∀ r, (run o (texts.map .ofText) w).result = .ok r →
        r.scanned = plan.scanned ∧ r.renamed = plan.items ∧
          List.Forall₂ (Move.EqButToken (tokensFrom token' drawn') (tokensFrom w.token w.drawn))
            plan.moves r.moves := by
  obtain ⟨items, hitems⟩ := exists_items_of_preview hplan
  obtain ⟨kept, hkept, -⟩ := scan_items hitems
  have hkept : outermostRoots w.disk (texts.map .ofText) = .ok kept := hkept
  have hadmitted : admission o (texts.map .ofText) w = .ok (standing, kept) := by
    rw [admission, hstanding]
    simp only [bind, Except.bind, hsafe, hkept]
  obtain ⟨-, -, hagain⟩ := hasRoots_of_admission ht (isNormal_ofText _) hadmitted
  obtain ⟨plan', hplan', hscanned, hrenamed, hconflicts, hmoves⟩ :=
    preview_eqButToken htoken htoken' hkept hagain hplan
  rw [← hscanned, ← hrenamed, ← hconflicts]
  obtain ⟨hne, reports, hrun⟩ | ⟨hnone, reports, r, hscanned', hmoves',
      ⟨-, message, hrenamed', hrun⟩ | ⟨-, -, hrun⟩⟩ :=
    run_cases_of_plan hadmitted hplan' <;> rw [hrun]
  · -- the plan is refused
    refine ⟨fun conflicts => ?_, fun r hr => ?_⟩
    · simp [Outcome.failed, hne, eq_comm]
    · cases hr
  · -- nothing is moved
    refine ⟨fun conflicts => ?_, fun r' hr => ?_⟩
    · simp [Outcome.completed, hnone]
    · cases hr
      exact ⟨hscanned', hrenamed', hmoves' ▸ hmoves⟩
  · -- the moves are made
    rw [result_after]
    refine ⟨fun conflicts => ?_, fun r' hr => ?_⟩
    · refine iff_of_false (fun hfailed => ?_) fun h => h.1 hnone
      obtain ⟨f, hf⟩ | ⟨s, -, hroots, -⟩ := moveStage_error hfailed rfl
      · cases hf
      · obtain ⟨root, -, -, hf | hf⟩ := failure_of_outermostRoots hroots rfl <;> cases hf
    · obtain ⟨hscanned'', hmoves'', hrenamed''⟩ := moveStage_of_eq_ok hr
      rw [hscanned'', hmoves'', hscanned', hmoves']
      exact ⟨rfl, hrenamed'', hmoves⟩

/-- A file whose name changes in letter case alone, with its temporary name taken by another. -/
def Tree.taken : Tree := ⟨[(["README.md"], .file ⟨#[]⟩), (["readme.md.temp-rename"], .file ⟨#[]⟩)]⟩

/-- A preview that draws other tokens than the run after it. -/
theorem run_of_preview_taken :
    ∃ plan r,
      (preview { World.ofTree .taken with token := fun n => tokenText (n + 100), drawn := 7 }
        ignoredNames (["."].map .ofText)).plan = .ok plan ∧
      (run (.default (World.ofTree .taken).disk) (["."].map .ofText) (.ofTree .taken)).result =
        .ok r ∧
      r.moves ≠ plan.moves ∧ r.renamed = plan.items ∧
      List.Forall₂ (Move.EqButToken (tokensFrom (fun n => tokenText (n + 100)) 7)
        (tokensFrom tokenText 0)) plan.moves r.moves := by
  obtain ⟨plan, hplan, hsource⟩ : ∃ plan : Plan,
      (preview { World.ofTree .taken with token := fun n => tokenText (n + 100), drawn := 7 }
        ignoredNames (["."].map .ofText)).plan = .ok plan ∧
      plan.moves = [⟨"README.md", "readme.md.temp-rename-0000006c", ⟨.relative, []⟩, true⟩,
        ⟨"readme.md.temp-rename-0000006c", "readme.md", ⟨.relative, []⟩, true⟩] :=
    exists_ok_of_any (by decide +kernel)
  obtain ⟨r, hr, hmoves⟩ : ∃ r : RunResult,
      (run (.default (World.ofTree .taken).disk) (["."].map .ofText) (.ofTree .taken)).result =
        .ok r ∧
      r.moves = [⟨"README.md", "readme.md.temp-rename-00000001", ⟨.relative, []⟩, true⟩,
        ⟨"readme.md.temp-rename-00000001", "readme.md", ⟨.relative, []⟩, true⟩] :=
    exists_ok_of_any (by decide +kernel)
  have hstanding :
      standingOf (World.ofTree .taken).disk [] (["."].map .ofText) = .ok .unversioned := by
    decide
  obtain ⟨-, hsame⟩ :=
    run_of_preview (o := .default (World.ofTree .taken).disk) (w := .ofTree .taken)
      (by decide) isToken_tokenText (fun n => isToken_tokenText (n + 100)) hstanding rfl hplan
  obtain ⟨-, hrenamed, hall⟩ := hsame r hr
  refine ⟨plan, r, hplan, hr, ?_, hrenamed, hall⟩
  rw [hsource, hmoves]
  decide

end Recase
