import Mathlib.Algebra.Ring.Nat
import Mathlib.Data.List.TakeWhile
import Recase.Path.Route
import Recase.Proofs.Name.Entry
import Recase.Scan

/-!
# Paths of names

The text of names with slashes between them, read back in each of the ways in which the project
reads paths.

* `segments_pathText`, `parse_pathText`: as segments, and as a path. `utf8ByteSize_pathText`: its
  size, as that of the path (`Path.size_route`). `Path.size_le_below`: a path is not longer than
  those below it.
* `lastName_pathText`, `parentText_pathText`, `depth_pathText`: its parts, and how many there are.
  `parentText_joinText`: what is put below a parent has that parent.
* `joinText_pathText`, `pathText_concat_append`: what is put below it, or after its last name.
* `Path.joinText_pathText`: it names what lies below a root.
-/

namespace Recase

open Name Text

/-! ## Pieces -/

theorem Text.pieces_eq_splitOnP (p : Char → Bool) (cs : List Char) :
    pieces p cs = cs.splitOnP p := by
  induction cs with
  | nil => rfl
  | cons c rest ih =>
    rw [pieces, List.splitOnP_cons_eq_if_modifyHead, ih]
    split
    · rfl
    · cases h : rest.splitOnP p with
      | nil => exact absurd h (List.splitOnP_ne_nil p rest)
      | cons piece more => rfl

/-- The pieces between slashes are put together with slashes and read back. -/
theorem Text.pieces_intercalate {parts : List (List Char)} (hne : parts ≠ [])
    (h : ∀ part ∈ parts, '/' ∉ part) : pieces (· == '/') (['/'].intercalate parts) = parts := by
  rw [pieces_eq_splitOnP]
  exact List.splitOn_intercalate '/' h hne

theorem Text.joinPieces_eq_intercalate (separator : Char) (parts : List (List Char)) :
    joinPieces separator parts = [separator].intercalate parts := by
  induction parts with
  | nil => rfl
  | cons part rest ih =>
    cases rest with
    | nil => simp [joinPieces]
    | cons next more =>
      have hcons : [separator].intercalate (part :: next :: more) =
          part ++ [separator] ++ [separator].intercalate (next :: more) :=
        List.intercalate_cons_of_ne_nil (by simp)
      rw [joinPieces_cons (by simp), ih, hcons]
      simp

/-- No piece has a character in it at which the text is cut. -/
theorem Text.not_of_mem_pieces {p : Char → Bool} {cs piece : List Char} (h : piece ∈ pieces p cs) :
    ∀ c ∈ piece, p c = false := by
  induction cs generalizing piece with
  | nil =>
    rw [pieces, List.mem_singleton] at h
    simp [h]
  | cons c rest ih =>
    rw [pieces] at h
    split at h
    · rcases List.mem_cons.mp h with rfl | h
      · simp
      · exact ih h
    · rename_i hc
      split at h
      · rename_i first more hpieces
        rcases List.mem_cons.mp h with rfl | h
        · simpa [hc] using ih (hpieces ▸ List.mem_cons_self)
        · exact ih (hpieces ▸ List.mem_cons_of_mem _ h)
      · rename_i hpieces
        exact absurd hpieces (pieces_ne_nil p rest)

variable {names above : List String} {name : String}

theorem toList_pathText (names : List String) :
    (pathText names).toList = ['/'].intercalate (names.map String.toList) := by
  rw [pathText, String.toList_intercalate]; rfl

@[simp] theorem pathText_nil : pathText [] = "" := String.intercalate_nil

@[simp] theorem pathText_singleton (name : String) : pathText [name] = name :=
  String.intercalate_singleton

theorem pathText_append {more : List String} (h : above ≠ []) (hm : more ≠ []) :
    pathText (above ++ more) = pathText above ++ "/" ++ pathText more :=
  String.intercalate_append_of_ne_nil h hm

theorem segments_pathText (hne : names ≠ []) (h : ∀ n ∈ names, '/' ∉ n.toList) :
    PathText.segments (pathText names) = names := by
  rw [PathText.segments, toList_pathText, pieces_intercalate (by simpa using hne)]
  · simp
  · simpa using h

theorem not_slash_of_mem_segments {path : String} (h : name ∈ PathText.segments path) :
    '/' ∉ name.toList := by
  obtain ⟨piece, hpiece, rfl⟩ := List.mem_map.mp h
  rw [String.toList_ofList]
  exact fun hm => by simpa using not_of_mem_pieces hpiece _ hm

/-- The segments of a text make it up. -/
theorem pathText_segments (path : String) : pathText (PathText.segments path) = path := by
  apply String.toList_injective
  have hpieces : (PathText.segments path).map String.toList = pieces (· == '/') path.toList := by
    simp [PathText.segments]
  rw [toList_pathText, hpieces, ← joinPieces_eq_intercalate, joinPieces_pieces]

/-- Different names have different texts. -/
theorem pathText_injective {others : List String} (h : ∀ n ∈ names, IsPlain n)
    (ho : ∀ n ∈ others, IsPlain n) (heq : pathText names = pathText others) : names = others := by
  have key : ∀ l : List String, l ≠ [] → (∀ n ∈ l, IsPlain n) → pathText l ≠ "" := by
    intro l hne hl he
    have hs := segments_pathText hne fun n hn => (hl n hn).slash
    rw [he] at hs
    have := hl "" (by rw [← hs]; simp [PathText.segments, pieces])
    exact this.ne_empty rfl
  rcases eq_or_ne names [] with rfl | hn <;> rcases eq_or_ne others [] with rfl | ho'
  · rfl
  · exact absurd (heq.symm.trans pathText_nil) (key _ ho' ho)
  · exact absurd (heq.trans pathText_nil) (key _ hn h)
  · rw [← segments_pathText hn fun n hm => (h n hm).slash, heq,
      segments_pathText ho' fun n hm => (ho n hm).slash]

theorem head?_pathText_cons {rest : List String} (hne : name ≠ "") (h : '/' ∉ name.toList) :
    (pathText (name :: rest)).toList.head? ≠ some '/' := by
  obtain ⟨c, cs, hc⟩ := List.exists_cons_of_ne_nil (l := name.toList) (by simpa using hne)
  have hslash : c ≠ '/' := fun he => h (by simp [hc, he])
  cases rest with
  | nil => simpa [hc] using hslash
  | cons m more =>
    rw [show name :: m :: more = [name] ++ (m :: more) from rfl,
      pathText_append (by simp) (by simp)]
    simpa [hc] using hslash

theorem getLast?_pathText (h : ∀ n ∈ names, IsPlain n) :
    (pathText names).toList.getLast? ≠ some '/' := by
  rcases List.eq_nil_or_concat names with rfl | ⟨above, n, rfl⟩
  · simp
  · have hn := h n (by simp)
    have hlast : n.toList.getLast? ≠ some '/' := fun he => hn.slash (List.mem_of_mem_getLast? he)
    have hne : n.toList ≠ [] := by simpa using hn.ne_empty
    rcases eq_or_ne above [] with rfl | ha
    · simpa using hlast
    · rw [List.concat_eq_append, pathText_append ha (by simp), pathText_singleton]
      simpa [List.getLast?_append, List.getLast?_cons,
        List.getLast?_eq_some_getLast hne] using hlast

/-! ## Reading the text -/

/-- A text that does not begin with a slash is a relative path. -/
theorem Path.anchorOf_of_head? {cs : List Char} (h : cs.head? ≠ some '/') :
    anchorOf cs = .relative := by
  unfold anchorOf
  cases cs with
  | nil => rfl
  | cons c rest =>
    rw [List.takeWhile_cons_of_neg (by simpa using h)]
    rfl

/-- Names that are neither empty nor dots and have no slash in them are read back, two dots among
them. -/
theorem parse_pathText_of (h : ∀ n ∈ names, n ≠ "" ∧ n ≠ "." ∧ '/' ∉ n.toList) :
    Path.parse (pathText names) = ⟨.relative, names⟩ := by
  have hanchor : Path.anchorOf (pathText names).toList = .relative := by
    refine Path.anchorOf_of_head? ?_
    cases names with
    | nil => simp
    | cons n rest => exact head?_pathText_cons (h n (by simp)).1 (h n (by simp)).2.2
  have hsteps : Path.stepsOf (pathText names).toList = names := by
    rcases eq_or_ne names [] with rfl | hne
    · rfl
    · rw [Path.stepsOf, toList_pathText, pieces_intercalate (by simpa using hne)
        (by simpa using fun n hn => (h n hn).2.2), List.filter_eq_self.mpr]
      · simp
      · intro part hpart
        obtain ⟨n, hn, rfl⟩ := List.mem_map.mp hpart
        have hdot : n.toList ≠ ['.'] := fun he =>
          (h n hn).2.1 (by rw [← String.ofList_toList (s := n), he])
        simpa [hdot] using (h n hn).1
  rw [Path.parse, hanchor, hsteps]

theorem parse_pathText (h : ∀ n ∈ names, IsPlain n) :
    Path.parse (pathText names) = ⟨.relative, names⟩ :=
  parse_pathText_of fun n hn => ⟨(h n hn).ne_empty, (h n hn).ne_dot, (h n hn).slash⟩

/-- The size of the text: that of the names, with a slash after each but the last. -/
theorem utf8ByteSize_pathText (h : names ≠ []) :
    (pathText names).utf8ByteSize + 1 = (names.map fun n => n.utf8ByteSize + 1).sum := by
  induction names with
  | nil => exact absurd rfl h
  | cons n rest ih =>
    rcases eq_or_ne rest [] with rfl | hne
    · simp
    · have hcons : pathText (n :: rest) = n ++ "/" ++ pathText rest := by
        rw [← List.singleton_append, pathText_append (by simp) hne, pathText_singleton]
      rw [hcons, List.map_cons, List.sum_cons, ← ih hne]
      simp only [String.utf8ByteSize_append]
      have hslash : "/".utf8ByteSize = 1 := rfl
      omega

theorem utf8ByteSize_pathText_append {above more : List String} (h : above ≠ []) (hm : more ≠ []) :
    (pathText (above ++ more)).utf8ByteSize =
      (pathText above).utf8ByteSize + 1 + (pathText more).utf8ByteSize := by
  rw [pathText_append h hm]
  simp only [String.utf8ByteSize_append]
  rfl

/-- The size of a path in the working directory: that of its segments, with a slash after each but
the last. -/
theorem Path.size_route {p : Path} (hanchor : p.anchor = .relative) (hne : p.segments ≠ []) :
    p.route.size + 1 = (p.segments.map fun n => n.utf8ByteSize + 1).sum := by
  have htext : p.toString = pathText p.segments := by
    simp [Path.toString, hanchor, hne, pathText]
  rw [← utf8ByteSize_pathText hne, ← htext]
  rfl

theorem depth_pathText (h : ∀ n ∈ names, IsPlain n) :
    PathText.depth (pathText names) = names.length := by
  rcases eq_or_ne names [] with rfl | hne
  · rfl
  · rw [PathText.depth, toList_pathText, pieces_intercalate (by simpa using hne)
      (by simpa using fun n hn => (h n hn).slash), List.filter_eq_self.mpr, List.length_map]
    intro part hpart
    obtain ⟨n, hn, rfl⟩ := List.mem_map.mp hpart
    simpa using (h n hn).ne_empty

/-- What the text of a path looks like from its end. -/
theorem reverse_toList_pathText_concat (above : List String) (name : String) :
    (pathText (above ++ [name])).toList.reverse =
      name.toList.reverse ++ if above = [] then [] else '/' :: (pathText above).toList.reverse := by
  rcases eq_or_ne above [] with rfl | ha
  · simp
  · rw [pathText_append ha (by simp)]
    simp [ha]

private theorem not_slash_of_mem_reverse {name : String} (h : '/' ∉ name.toList) :
    ∀ c ∈ name.toList.reverse, (c != '/') = true :=
  fun _ hc => bne_iff_ne.mpr fun he => h (he ▸ List.mem_reverse.mp hc)

theorem lastName_pathText (h : '/' ∉ name.toList) :
    PathText.lastName (pathText (above ++ [name])) = name := by
  rw [PathText.lastName, reverse_toList_pathText_concat,
    List.takeWhile_append_of_pos (not_slash_of_mem_reverse h)]
  split <;> simp

/-- What is put after the last slash belongs to the last name. -/
theorem lastName_append {text added : String} (h : '/' ∉ added.toList) :
    PathText.lastName (text ++ added) = PathText.lastName text ++ added := by
  apply String.toList_injective
  simp [PathText.lastName, List.takeWhile_append_of_pos (not_slash_of_mem_reverse h)]

/-- A text that does not end in a slash has none to drop there. -/
theorem dropWhile_reverse_of_getLast? {cs : List Char} (h : cs.getLast? ≠ some '/') :
    cs.reverse.dropWhile (· == '/') = cs.reverse := by
  rw [← List.head?_reverse] at h
  cases hcs : cs.reverse with
  | nil => rfl
  | cons c rest =>
    rw [hcs] at h
    exact List.dropWhile_cons_of_neg (by simpa using h)

theorem parentText_pathText (h : '/' ∉ name.toList) (ha : ∀ n ∈ above, IsPlain n) :
    PathText.parentText (pathText (above ++ [name])) = pathText above := by
  rw [PathText.parentText, reverse_toList_pathText_concat,
    List.dropWhile_append_of_pos (not_slash_of_mem_reverse h)]
  split
  · rename_i he; simp [he]
  · rename_i hne
    rw [List.dropWhile_cons_of_neg (by simp), List.dropWhile_cons_of_pos (by simp),
      dropWhile_reverse_of_getLast? (getLast?_pathText ha)]
    split
    · rename_i hemp
      have hnil : pathText above = "" := by simpa using hemp
      exact absurd (pathText_injective ha (by simp) (hnil.trans pathText_nil.symm)) hne
    · simp

/-- What is put after the last slash does not change what precedes it. -/
theorem parentText_append {text added : String} (h : '/' ∉ added.toList) :
    PathText.parentText (text ++ added) = PathText.parentText text := by
  simp only [PathText.parentText, String.toList_append, List.reverse_append,
    List.dropWhile_append_of_pos (not_slash_of_mem_reverse h)]

/-- A parent ends in a slash only if it has nothing else. -/
theorem parentText_cases (path : String) :
    (∀ c ∈ (PathText.parentText path).toList, c = '/') ∨
      (PathText.parentText path).toList.getLast? ≠ some '/' := by
  rw [PathText.parentText]
  split
  · rename_i hnil
    refine .inl fun c hc => ?_
    simpa using List.dropWhile_eq_nil_iff.mp (List.isEmpty_iff.mp hnil) c (by simpa using hc)
  · refine .inr fun hlast => ?_
    have hhead := List.head?_dropWhile_not (· == '/') (path.toList.reverse.dropWhile (· != '/'))
    rw [String.toList_ofList, List.getLast?_reverse] at hlast
    rw [hlast] at hhead
    simp at hhead

/-- A name below a parent has that parent. -/
theorem parentText_joinText {path : String} (hname : '/' ∉ name.toList)
    (hne : PathText.parentText path ≠ "") :
    PathText.parentText (PathText.joinText (PathText.parentText path) name) =
      PathText.parentText path := by
  have hhead : name.toList.head? ≠ some '/' := fun he => hname (List.mem_of_mem_head? he)
  have hcases := parentText_cases path
  generalize PathText.parentText path = parent at hne hcases ⊢
  have hempty : parent.isEmpty = false := by simpa using hne
  rw [PathText.joinText, if_neg hhead, hempty, Bool.false_or]
  by_cases hlast : parent.toList.getLast? = some '/'
  · -- slashes alone: they all stay
    have hall := hcases.resolve_right (not_not.mpr hlast)
    have htaken : parent.toList.reverse.dropWhile (· != '/') = parent.toList.reverse := by
      rw [← List.head?_reverse, List.head?_eq_some_iff] at hlast
      obtain ⟨rest, hrest⟩ := hlast
      rw [hrest, List.dropWhile_cons_of_neg (by simp)]
    have hdropped : parent.toList.reverse.dropWhile (· == '/') = [] := by
      simpa using hall
    rw [if_pos (by simpa using hlast), parentText_append hname, PathText.parentText]
    simp [htaken, hdropped]
  · -- the slash that is put between them is dropped
    have hdropped := dropWhile_reverse_of_getLast? hlast
    rw [if_neg (by simpa using hlast), parentText_append hname, PathText.parentText]
    simp [hdropped, hne]

theorem not_mem_lastName (path : String) : '/' ∉ (PathText.lastName path).toList := by
  rw [PathText.lastName, String.toList_ofList, List.mem_reverse]
  exact fun hm => by simpa using List.mem_takeWhile_imp hm

theorem joinText_pathText (ha : ∀ n ∈ above, IsPlain n) (hne : above ≠ []) (h : IsPlain name) :
    PathText.joinText (pathText above) name = pathText (above ++ [name]) := by
  have hhead : name.toList.head? ≠ some '/' := fun he => h.slash (List.mem_of_mem_head? he)
  have hemp : (pathText above).isEmpty = false := by
    rw [Bool.eq_false_iff, ne_eq, String.isEmpty_iff]
    exact fun he => hne (pathText_injective ha (by simp) (he.trans pathText_nil.symm))
  rw [PathText.joinText, if_neg hhead, hemp, if_neg (by simpa using getLast?_pathText ha),
    pathText_append hne (by simp), pathText_singleton]

/-- The pieces of two texts with a slash between them. -/
theorem Text.pieces_append_slash (top path : String) :
    pieces (· == '/') (top ++ "/" ++ path).toList =
      pieces (· == '/') top.toList ++ pieces (· == '/') path.toList := by
  simp only [pieces_eq_splitOnP, String.toList_append, List.append_assoc]
  exact List.splitOnP_append_cons _ _ (by decide)

theorem segments_append_slash (top path : String) :
    PathText.segments (top ++ "/" ++ path) = PathText.segments top ++ PathText.segments path := by
  rw [PathText.segments, pieces_append_slash, List.map_append]
  rfl

/-- The segments of a text below the text of names. -/
theorem segments_joinText {path : String} (ha : ∀ n ∈ above, IsPlain n)
    (hpath : path.toList.head? ≠ some '/') :
    PathText.segments (PathText.joinText (pathText above) path) =
      above ++ PathText.segments path := by
  rw [PathText.joinText, if_neg hpath]
  rcases eq_or_ne above [] with rfl | hne
  · simp
  · have hemp : (pathText above).isEmpty = false := by
      rw [Bool.eq_false_iff, ne_eq, String.isEmpty_iff]
      exact fun he => hne (pathText_injective ha (by simp) (he.trans pathText_nil.symm))
    rw [hemp, if_neg (by simpa using getLast?_pathText ha), segments_append_slash,
      segments_pathText hne fun n hn => (ha n hn).slash]

/-- What is put after the text comes after its last name. -/
theorem pathText_concat_append (above : List String) (name added : String) :
    pathText (above ++ [name]) ++ added = pathText (above ++ [name ++ added]) := by
  rcases eq_or_ne above [] with rfl | ha
  · simp
  · rw [pathText_append ha (by simp), pathText_append ha (by simp), pathText_singleton,
      pathText_singleton, String.append_assoc]

/-- The text names what lies below a root. -/
theorem Path.joinText_pathText (root : Path) (h : ∀ n ∈ names, IsPlain n) :
    root.joinText (pathText names) = root.below names := by
  rw [Path.joinText, parse_pathText h]; rfl

theorem Path.joinText_name (root : Path) (h : IsPlain name) :
    root.joinText name = root.below [name] := by
  rw [← root.joinText_pathText (by simpa using h), pathText_singleton]

namespace Path

/-- The size of what stands before the first segment. -/
def startSize (p : Path) : Nat :=
  match p.anchor with
  | .relative => 0
  | .absolute => 1
  | .doubleSlash => 2

/-- The size of the text: that of its segments and of what stands before them. A path without either
is a dot. -/
theorem size_toString (p : Path) :
    p.toString.utf8ByteSize =
      if p.segments = [] then max 1 p.startSize
      else p.startSize + (pathText p.segments).utf8ByteSize := by
  obtain ⟨anchor, segments⟩ := p
  have hsizes : "/".utf8ByteSize = 1 ∧ ".".utf8ByteSize = 1 ∧ "//".utf8ByteSize = 2 := by decide
  by_cases h : segments = []
  · subst h
    cases anchor <;> rfl
  · cases anchor <;> simp [toString, startSize, pathText, h, hsizes]

variable {root : Path} {front : List String} {name : String}

/-- The text of a path is not longer than that of an entry below it. Neither is the text by which a
walk reaches the directory of the entry. -/
theorem size_le_below (hname : name ≠ "") :
    root.toString.utf8ByteSize ≤ (root.below (front ++ [name])).toString.utf8ByteSize ∧
      (root.walkedText front).utf8ByteSize ≤
          (root.below (front ++ [name])).toString.utf8ByteSize := by
  have hpos : 0 < name.utf8ByteSize :=
    Nat.pos_of_ne_zero fun hzero => hname (String.utf8ByteSize_eq_zero_iff.mp hzero)
  have hbound : root.startSize ≤ 2 := by
    unfold startSize
    split <;> omega
  have hbelow : (root.below (front ++ [name])).toString.utf8ByteSize =
      root.startSize + (pathText (root.segments ++ (front ++ [name]))).utf8ByteSize := by
    rw [size_toString, if_neg (by simp [below])]
    rfl
  have hroot := size_toString root
  rcases eq_or_ne front [] with rfl | hfront
  · have hwalked : root.walkedText [] = root.toString := rfl
    rw [hwalked]
    rw [List.nil_append] at hbelow ⊢
    suffices h : root.toString.utf8ByteSize ≤ (root.below [name]).toString.utf8ByteSize from ⟨h, h⟩
    by_cases h : root.segments = []
    · rw [h, List.nil_append, pathText_singleton] at hbelow
      rw [if_pos h] at hroot
      omega
    · rw [utf8ByteSize_pathText_append h (by simp), pathText_singleton] at hbelow
      rw [if_neg h] at hroot
      omega
  · have hwalked : (root.walkedText front).utf8ByteSize ≤
        root.toString.utf8ByteSize + 1 + (pathText front).utf8ByteSize := by
      have hsome : front.isEmpty = false := by simpa using hfront
      have hslash : "/".utf8ByteSize = 1 := rfl
      rw [walkedText, hsome]
      change (PathText.joinText root.toString (pathText front)).utf8ByteSize ≤ _
      unfold PathText.joinText
      split
      · omega
      · split <;> simp only [String.utf8ByteSize_append] <;> omega
    have hlast := utf8ByteSize_pathText_append hfront (List.cons_ne_nil name [])
    rw [pathText_singleton] at hlast
    by_cases h : root.segments = []
    · rw [h, List.nil_append, hlast] at hbelow
      rw [if_pos h] at hroot
      omega
    · rw [utf8ByteSize_pathText_append h (by simp), hlast] at hbelow
      rw [if_neg h] at hroot
      omega

end Path

end Recase
