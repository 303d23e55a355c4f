/-!
# Sorting

* `merge`: two sorted lists as one, the first list's element in front where neither order is
  required.
* `sortBy`: a list in the order `le`, elements that `le` holds equal in the order that they had.
* `sortBy_perm`, `sortBy_pairwise`: the result has the same elements, and is in order.
-/

namespace Recase

variable {α : Type}

/-- Two sorted lists as one. -/
def merge (le : α → α → Bool) (xs ys : List α) : List α :=
  match xs, ys with
  | [], ys => ys
  | xs, [] => xs
  | x :: xs, y :: ys =>
    if le x y then x :: merge le xs (y :: ys) else y :: merge le (x :: xs) ys
termination_by xs.length + ys.length

/-- The two halves of a list sorted and merged, for a list no longer than `bound`. -/
def sortWithin (le : α → α → Bool) : Nat → List α → List α
  | 0, xs => xs
  | _ + 1, [] => []
  | _ + 1, [x] => [x]
  | bound + 1, x :: y :: more =>
    let xs := x :: y :: more
    let half := xs.length / 2
    merge le (sortWithin le bound (xs.take half)) (sortWithin le bound (xs.drop half))

/-- The list in the order `le`. -/
def sortBy (le : α → α → Bool) (xs : List α) : List α := sortWithin le xs.length xs

section Lemmas

variable (le : α → α → Bool)

theorem merge_perm (xs ys : List α) : (merge le xs ys).Perm (xs ++ ys) := by
  fun_induction merge le xs ys with
  | case1 => simp
  | case2 => simp
  | case3 x xs y ys _ ih => exact (ih.cons x)
  | case4 x xs y ys _ ih => exact (ih.cons y).trans (List.perm_middle.symm)

theorem sortWithin_perm (bound : Nat) (xs : List α) : (sortWithin le bound xs).Perm xs := by
  fun_induction sortWithin le bound xs with
  | case1 => exact .refl _
  | case2 => exact .refl _
  | case3 => exact .refl _
  | case4 bound x y more xs half ih₁ ih₂ =>
    refine (merge_perm le _ _).trans ((ih₁.append ih₂).trans ?_)
    rw [List.take_append_drop]

/-- Sorting keeps the elements. -/
theorem sortBy_perm (xs : List α) : (sortBy le xs).Perm xs := sortWithin_perm le _ xs

variable {le}

theorem merge_pairwise (trans : ∀ a b c, le a b → le b c → le a c)
    (total : ∀ a b, le a b || le b a) {xs ys : List α}
    (hxs : xs.Pairwise fun a b => le a b = true) (hys : ys.Pairwise fun a b => le a b = true) :
    (merge le xs ys).Pairwise fun a b => le a b = true := by
  fun_induction merge le xs ys with
  | case1 => exact hys
  | case2 => exact hxs
  | case3 x xs y ys hxy ih =>
    have hx := List.pairwise_cons.mp hxs
    have hy := List.pairwise_cons.mp hys
    refine List.pairwise_cons.mpr ⟨fun z hz => ?_, ih hx.2 hys⟩
    rcases List.mem_append.mp ((merge_perm le _ _).mem_iff.mp hz) with hz | hz
    · exact hx.1 z hz
    · rcases List.mem_cons.mp hz with rfl | hz
      · exact hxy
      · exact trans _ _ _ hxy (hy.1 z hz)
  | case4 x xs y ys hxy ih =>
    have hx := List.pairwise_cons.mp hxs
    have hy := List.pairwise_cons.mp hys
    have hyx : le y x = true := by
      have := total x y
      simp_all
    refine List.pairwise_cons.mpr ⟨fun z hz => ?_, ih hxs hy.2⟩
    rcases List.mem_append.mp ((merge_perm le _ _).mem_iff.mp hz) with hz | hz
    · rcases List.mem_cons.mp hz with rfl | hz
      · exact hyx
      · exact trans _ _ _ hyx (hx.1 z hz)
    · exact hy.1 z hz

theorem sortWithin_pairwise (trans : ∀ a b c, le a b → le b c → le a c)
    (total : ∀ a b, le a b || le b a) {bound : Nat} {xs : List α} (h : xs.length ≤ bound) :
    (sortWithin le bound xs).Pairwise fun a b => le a b = true := by
  fun_induction sortWithin le bound xs with
  | case1 xs =>
    have : xs = [] := List.length_eq_zero_iff.mp (Nat.le_zero.mp h)
    simp [this]
  | case2 => simp
  | case3 => simp
  | case4 bound x y more xs half ih₁ ih₂ =>
    have hlen : xs.length = more.length + 2 := rfl
    refine merge_pairwise trans total (ih₁ ?_) (ih₂ ?_)
    · rw [List.length_take]
      simp only [List.length_cons] at h
      omega
    · rw [List.length_drop]
      simp only [List.length_cons] at h
      omega

/-- Sorting by a total order puts the elements in order. -/
theorem sortBy_pairwise (trans : ∀ a b c, le a b → le b c → le a c)
    (total : ∀ a b, le a b || le b a) (xs : List α) :
    (sortBy le xs).Pairwise fun a b => le a b = true :=
  sortWithin_pairwise trans total (Nat.le_refl _)

end Lemmas

end Recase
