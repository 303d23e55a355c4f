import Recase.Plan.Basic

/-!
# The order of a plan is an order

* `sortBy_map`: sorting commutes with a map along which the order is taken.
* `Item.executionOrder_trans`, `Item.executionOrder_total`: the order in which items are renamed is
  a total order of its keys, so that items come in it (`mem_front`).
-/

namespace Recase

/-! ## Sorting along a map -/

section Map

variable {α β : Type} (f : α → β) (le : β → β → Bool)

theorem merge_map (xs ys : List α) :
    merge le (xs.map f) (ys.map f) = (merge (fun a b => le (f a) (f b)) xs ys).map f := by
  fun_induction merge (fun a b => le (f a) (f b)) xs ys with
  | case1 ys => simp [merge]
  | case2 xs h => cases xs <;> simp [merge]
  | case3 x xs y ys hle ih =>
    rw [List.map_cons, List.map_cons, merge, if_pos hle, List.map_cons, ← ih, List.map_cons]
  | case4 x xs y ys hle ih =>
    rw [List.map_cons, List.map_cons, merge, if_neg hle, List.map_cons, ← ih, List.map_cons]

theorem sortWithin_map (bound : Nat) (xs : List α) :
    sortWithin le bound (xs.map f) = (sortWithin (fun a b => le (f a) (f b)) bound xs).map f := by
  fun_induction sortWithin (fun a b => le (f a) (f b)) bound xs with
  | case1 => rfl
  | case2 => rfl
  | case3 => rfl
  | case4 bound x y more xs half ih₁ ih₂ =>
    have hlength : (f x :: f y :: more.map f).length / 2 = half := by simp [half, xs]
    rw [List.map_cons, List.map_cons, sortWithin]
    rw [hlength, ← merge_map, ← ih₁, ← ih₂, List.map_take, List.map_drop]
    rfl

/-- Sorting commutes with a map along which the order is taken. -/
theorem sortBy_map (xs : List α) :
    sortBy le (xs.map f) = (sortBy (fun a b => le (f a) (f b)) xs).map f := by
  rw [sortBy, sortBy, List.length_map, sortWithin_map]

end Map

/-! ## The order of items -/

namespace Item

/-- Whether an item comes after the directories: zero for directories, one for files. -/
def rank (item : Item) : Nat :=
  match item.kind with
  | .directory => 0
  | .file => 1

/-- The depth of an item as it counts: directories from the top down, files from the bottom up. -/
def signedDepth (item : Item) : Int :=
  match item.kind with
  | .directory => item.depth
  | .file => -item.depth

theorem executionOrder_eq :
    executionOrder = compareLex (compareOn rank) (compareLex (compareOn signedDepth)
      (compareLex (compareOn fun i => i.root.toString) (compareOn (·.path)))) := by
  funext a b
  have hflip : ∀ m n : Nat, compare (-(m : Int)) (-(n : Int)) = compare n m := by
    intro m n
    simp only [compare, compareOfLessAndEq]
    grind
  have hcast : ∀ m n : Nat, compare (m : Int) (n : Int) = compare m n := by
    intro m n
    simp only [compare, compareOfLessAndEq]
    grind
  have hbefore : compare 0 1 = Ordering.lt := rfl
  have hafter : compare 1 0 = Ordering.gt := rfl
  cases ha : a.kind <;> cases hb : b.kind <;>
    simp [executionOrder, compareLex, compareOn, rank, signedDepth, ha, hb, hflip, hcast, hbefore,
      hafter, Ordering.then]

instance : Std.TransCmp executionOrder := by
  rw [executionOrder_eq]
  infer_instance

theorem executionOrder_trans (a b c : Item) (hab : (a.executionOrder b).isLE = true)
    (hbc : (b.executionOrder c).isLE = true) : (a.executionOrder c).isLE = true :=
  Std.TransCmp.isLE_trans hab hbc

theorem executionOrder_total (a b : Item) :
    ((a.executionOrder b).isLE || (b.executionOrder a).isLE) = true := by
  rw [@Std.OrientedCmp.eq_swap _ executionOrder _ b a]
  cases a.executionOrder b <;> rfl

end Item

/-- In a list in order, what is not required to come after an element comes before it. -/
theorem mem_front {α : Type} {le : α → α → Bool} {front back : List α} {a e : α}
    (hsorted : (front ++ e :: back).Pairwise fun a b => le a b = true) (hrefl : le e e = true)
    (ha : a ∈ front ++ e :: back) (hle : le e a = false) : a ∈ front := by
  rcases List.mem_append.mp ha with ha | ha
  · exact ha
  · have hafter := (List.pairwise_append.mp hsorted).2.1
    rcases List.mem_cons.mp ha with rfl | ha
    · rw [hrefl] at hle; cases hle
    · rw [(List.pairwise_cons.mp hafter).1 a ha] at hle
      cases hle

end Recase
