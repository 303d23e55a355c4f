import Recase.Proofs.Path.Text
import Recase.Proofs.Tree.Leads

/-!
# Normal paths

A path as its text is read: no segment is empty or a dot, and none has a slash in it.

* `Path.isNormal_parse`: a path that is read is normal.
* `Path.filter_names_route`, `Path.filter_segments_toString`: the steps of its route and the
  segments of its text are its segments, but for those that are passed over.
* `Path.head?_toString`: its text starts with a slash if it does not start in the working directory.
  `Path.toString_injective`: no other path has its text.
* `Tree.filter_steps_ofText`: the steps of a text and its segments.
-/

namespace Recase

open Text

namespace Tree

/-- The names of a route are the segments of its text that are not empty. -/
theorem names_ofText (text : String) :
    (Route.ofText text).names = (PathText.segments text).filter (· != "") := by
  simp only [Route.ofText, PathText.segments, List.filter_map]
  congr 1
  refine List.filter_congr fun piece _ => ?_
  cases piece with
  | nil => rfl
  | cons c rest => simp

theorem filter_names_ofText (text : String) :
    (Route.ofText text).names.filter isTaken = (PathText.segments text).filter isTaken := by
  rw [names_ofText, List.filter_filter]
  refine List.filter_congr fun step _ => ?_
  by_cases hempty : step = "" <;> simp [isTaken, hempty]

/-- The steps of a route are the segments of its text, but for those that are passed over. -/
theorem filter_steps_ofText (text : String) :
    (Route.ofText text).steps.filter isTaken = (PathText.segments text).filter isTaken := by
  rw [Route.steps]
  split
  · rw [List.filter_append, filter_names_ofText]
    simp [isTaken]
  · exact filter_names_ofText text

end Tree

/-- A path as its text is read: no segment is empty or a dot, and none has a slash in it. -/
def Path.IsNormal (p : Path) : Prop := ∀ s ∈ p.segments, Tree.isTaken s = true ∧ '/' ∉ s.toList

theorem Path.IsNormal.filter_segments {p : Path} (h : p.IsNormal) :
    p.segments.filter Tree.isTaken = p.segments :=
  List.filter_eq_self.mpr fun s hs => (h s hs).1

theorem Path.IsNormal.below {p : Path} (h : p.IsNormal) {names : List String}
    (hnames : ∀ n ∈ names, Name.IsPlain n) : (p.below names).IsNormal := by
  intro n hn
  rcases List.mem_append.mp hn with hn | hn
  · exact h n hn
  · exact ⟨(hnames n hn).isName.isTaken, (hnames n hn).slash⟩

/-- Without two dots in it, a normal path is one of names. -/
theorem Path.IsNormal.isName {p : Path} (h : p.IsNormal) (hdots : ".." ∉ p.segments) :
    ∀ n ∈ p.segments, Tree.IsName n := by
  intro n hn
  obtain hskip | rfl | hname := Tree.step_cases n
  · exact absurd (h n hn).1 (by simp [Tree.isTaken_eq_false_iff.mpr hskip])
  · exact absurd hn hdots
  · exact hname

theorem Path.isNormal_parse (text : String) : (Path.parse text).IsNormal := by
  intro s hs
  obtain ⟨piece, hpiece, rfl⟩ := List.mem_map.mp hs
  obtain ⟨hpiece, htaken⟩ := List.mem_filter.mp hpiece
  refine ⟨?_, ?_⟩
  · simp only [Bool.and_eq_true, Bool.not_eq_true', List.isEmpty_eq_false_iff, bne_iff_ne] at htaken
    have hdot : String.ofList piece ≠ "." :=
      fun he => htaken.2 (by simpa using congrArg String.toList he)
    simp [Tree.isTaken, htaken.1, hdot]
  · rw [String.toList_ofList]
    exact fun hm => by simpa using not_of_mem_pieces hpiece _ hm

namespace Path

variable {p : Path} {here : Place}

theorem filter_names_route (h : p.IsNormal) : p.route.names.filter Tree.isTaken = p.segments := by
  unfold route
  split
  · rename_i hnil
    have : p.segments = [] := by simpa using (Bool.and_eq_true_iff.mp hnil).2
    rw [this]
    rfl
  · exact h.filter_segments

/-- The text of a path that starts at the top. -/
theorem slash_append_pathText {names : List String} (h : names ≠ []) :
    "/" ++ pathText names = pathText ("" :: names) := by
  rw [show "" :: names = [""] ++ names from rfl, pathText_append (by simp) h]
  simp

theorem filter_segments_toString (h : p.IsNormal) :
    (PathText.segments p.toString).filter Tree.isTaken = p.segments := by
  have hslash : ∀ s ∈ p.segments, '/' ∉ s.toList := fun s hs => (h s hs).2
  obtain ⟨anchor, segments⟩ := p
  rcases eq_or_ne segments [] with rfl | hne
  · cases anchor <;> decide
  · have hempty : segments.isEmpty = false := by simpa using hne
    cases anchor with
    | relative =>
      rw [toString, hempty]
      exact (congrArg _ (segments_pathText hne hslash)).trans h.filter_segments
    | absolute =>
      have htext : toString ⟨.absolute, segments⟩ = pathText ("" :: segments) :=
        slash_append_pathText hne
      rw [htext, segments_pathText (by simp) (by simpa using hslash)]
      exact h.filter_segments
    | doubleSlash =>
      have htext : toString ⟨.doubleSlash, segments⟩ = pathText ("" :: "" :: segments) := by
        rw [← slash_append_pathText (by simp), ← slash_append_pathText hne, ← String.append_assoc]
        rfl
      rw [htext, segments_pathText (by simp) (by simpa using hslash)]
      exact h.filter_segments

theorem head?_toString (h : p.IsNormal) :
    p.toString.toList.head? = some '/' ↔ p.isRelative = false := by
  obtain ⟨anchor, segments⟩ := p
  cases anchor with
  | absolute | doubleSlash => simp [toString, isRelative]
  | relative =>
    have hrel : isRelative ⟨.relative, segments⟩ = true := rfl
    rw [hrel]
    rcases segments with _ | ⟨s, rest⟩
    · decide
    · obtain ⟨htaken, hslash⟩ := h s (by simp)
      have hne : s ≠ "" := fun he => by simp [he, Tree.isTaken] at htaken
      obtain ⟨c, cs, hc⟩ := List.exists_cons_of_ne_nil (l := s.toList) (by simpa using hne)
      have hcslash : c ≠ '/' := fun he => hslash (by simp [hc, he])
      rcases rest with _ | ⟨s', rest⟩
      · simp [toString, hc, hcslash]
      · have htext : toString ⟨.relative, s :: s' :: rest⟩ = pathText ([s] ++ (s' :: rest)) := rfl
        rw [htext, pathText_append (by simp) (by simp)]
        simp [hc, hcslash]

/-- Different paths have different texts. -/
theorem toString_injective {q : Path} (hp : p.IsNormal) (hq : q.IsNormal)
    (h : p.toString = q.toString) :
    p = q := by
  have hsegments : p.segments = q.segments := by
    rw [← filter_segments_toString hp, h, filter_segments_toString hq]
  obtain ⟨anchor, segments⟩ := p
  obtain ⟨anchor', segments'⟩ := q
  obtain rfl : segments = segments' := hsegments
  suffices hanchor : anchor = anchor' by rw [hanchor]
  rcases eq_or_ne segments [] with rfl | hne
  · cases anchor <;> cases anchor' <;> first | rfl | exact absurd h (by decide)
  · -- texts of the same segments differ in size by the slashes in front
    have hsize := congrArg String.utf8ByteSize h
    rw [size_toString, size_toString, if_neg hne, if_neg hne] at hsize
    cases anchor <;> cases anchor' <;> simp [startSize] at hsize ⊢

end Path

end Recase
