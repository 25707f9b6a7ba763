import Mathlib

/-!
# Edit distances

An edit transcript turns one list into another from the left to the right: it keeps an item, puts
another in its place, deletes it or inserts one. The distance is the least number of changes.
-/

namespace AflPlusPlus.EditDistance

variable {α : Type*}

/-- A transcript with `k` changes. -/
inductive Edits : List α → List α → ℕ → Prop
  | done : Edits [] [] 0
  | keep {xs ys k} (x : α) : Edits xs ys k → Edits (x :: xs) (x :: ys) k
  | replace {xs ys k} (x y : α) : Edits xs ys k → Edits (x :: xs) (y :: ys) (k + 1)
  | delete {xs ys k} (x : α) : Edits xs ys k → Edits (x :: xs) ys (k + 1)
  | insert {xs ys k} (y : α) : Edits xs ys k → Edits xs (y :: ys) (k + 1)

namespace Edits
variable {xs ys us vs : List α} {k l : ℕ}

theorem append (h : Edits xs ys k) (h' : Edits us vs l) : Edits (xs ++ us) (ys ++ vs) (k + l) := by
  induction h with
  | done => rwa [Nat.zero_add]
  | keep x _ ih => exact ih.keep x
  | replace x y _ ih =>
    rw [Nat.add_right_comm]
    exact ih.replace x y
  | delete x _ ih =>
    rw [Nat.add_right_comm]
    exact ih.delete x
  | insert y _ ih =>
    rw [Nat.add_right_comm]
    exact ih.insert y

/-- The changes can be made from the right to the left. -/
theorem reverse (h : Edits xs ys k) : Edits xs.reverse ys.reverse k := by
  induction h with
  | done => exact done
  | keep x _ ih =>
    rw [List.reverse_cons, List.reverse_cons]
    exact ih.append (done.keep x)
  | replace x y _ ih =>
    rw [List.reverse_cons, List.reverse_cons]
    exact ih.append (done.replace x y)
  | delete x _ ih =>
    have h := ih.append (done.delete x)
    rw [List.append_nil] at h
    rwa [List.reverse_cons]
  | insert y _ ih =>
    have h := ih.append (done.insert y)
    rw [List.append_nil] at h
    rwa [List.reverse_cons]

theorem deleteAll : ∀ xs : List α, Edits xs [] xs.length
  | [] => done
  | x :: xs => (deleteAll xs).delete x

theorem insertAll : ∀ ys : List α, Edits [] ys ys.length
  | [] => done
  | y :: ys => (insertAll ys).insert y

end Edits

variable [DecidableEq α]

def dist : List α → List α → ℕ
  | [], ys => ys.length
  | xs, [] => xs.length
  | x :: xs, y :: ys =>
    min (min (dist xs (y :: ys) + 1) (dist (x :: xs) ys + 1))
      (dist xs ys + if x = y then 0 else 1)
termination_by xs ys => xs.length + ys.length

section Dist
variable {xs ys : List α} {x y : α} {k : ℕ}

theorem dist_nil_left (ys : List α) : dist [] ys = ys.length := by
  rw [dist]

theorem dist_nil_right (xs : List α) : dist xs [] = xs.length := by
  cases xs with
  | nil => rw [dist]
  | cons x xs => rw [dist]; simp

theorem dist_cons_cons : dist (x :: xs) (y :: ys) =
    min (min (dist xs (y :: ys) + 1) (dist (x :: xs) ys + 1))
      (dist xs ys + if x = y then 0 else 1) := by
  rw [dist]

/-- There is a transcript with as many changes as the distance. -/
theorem edits_dist (xs ys : List α) : Edits xs ys (dist xs ys) := by
  induction xs generalizing ys with
  | nil =>
    rw [dist_nil_left]
    exact Edits.insertAll ys
  | cons x xs ihx =>
    induction ys with
    | nil =>
      rw [dist_nil_right]
      exact Edits.deleteAll (x :: xs)
    | cons y ys ihy =>
      rw [dist_cons_cons]
      have hlast : Edits (x :: xs) (y :: ys) (dist xs ys + if x = y then 0 else 1) := by
        by_cases heq : x = y
        · rw [if_pos heq, heq]
          exact (ihx ys).keep y
        · rw [if_neg heq]
          exact (ihx ys).replace x y
      rcases min_choice (min (dist xs (y :: ys) + 1) (dist (x :: xs) ys + 1))
        (dist xs ys + if x = y then 0 else 1) with h | h
      · rw [h]
        rcases min_choice (dist xs (y :: ys) + 1) (dist (x :: xs) ys + 1) with h' | h'
        · rw [h']
          exact (ihx (y :: ys)).delete x
        · rw [h']
          exact ihy.insert y
      · rw [h]
        exact hlast

/-- No transcript has fewer changes. -/
theorem Edits.dist_le (h : Edits xs ys k) : dist xs ys ≤ k := by
  induction h with
  | done => rw [dist_nil_left, List.length_nil]
  | keep x _ ih =>
    rw [dist_cons_cons, if_pos rfl, Nat.add_zero]
    exact (min_le_right _ _).trans ih
  | replace x y _ ih =>
    rw [dist_cons_cons]
    refine (min_le_right _ _).trans (Nat.add_le_add ih ?_)
    split <;> decide
  | @delete xs ys k x _ ih =>
    cases ys with
    | nil =>
      rw [dist_nil_right] at ih ⊢
      exact Nat.succ_le_succ ih
    | cons y ys =>
      rw [dist_cons_cons]
      exact ((min_le_left _ _).trans (min_le_left _ _)).trans (Nat.succ_le_succ ih)
  | @insert xs ys k y _ ih =>
    cases xs with
    | nil =>
      rw [dist_nil_left] at ih ⊢
      exact Nat.succ_le_succ ih
    | cons x xs =>
      rw [dist_cons_cons]
      exact ((min_le_left _ _).trans (min_le_right _ _)).trans (Nat.succ_le_succ ih)

theorem dist_reverse (xs ys : List α) : dist xs.reverse ys.reverse = dist xs ys := by
  apply le_antisymm
  · exact (edits_dist xs ys).reverse.dist_le
  · have h := (edits_dist xs.reverse ys.reverse).reverse
    rw [List.reverse_reverse, List.reverse_reverse] at h
    exact h.dist_le

theorem isLeast_dist (xs ys : List α) : IsLeast {k | Edits xs ys k} (dist xs ys) :=
  ⟨edits_dist xs ys, fun _ h => h.dist_le⟩

/-! ## Tables of distances -/

/-- The distance of the first `i` items of one list and the first `j` of the other. -/
def prefixDist (xs ys : List α) (i j : ℕ) : ℕ := dist (xs.take i).reverse (ys.take j).reverse

theorem prefixDist_zero_left {j : ℕ} (hj : j ≤ ys.length) : prefixDist xs ys 0 j = j := by
  rw [prefixDist, List.take_zero, List.reverse_nil, dist_nil_left, List.length_reverse,
    List.length_take, min_eq_left hj]

theorem prefixDist_zero_right {i : ℕ} (hi : i ≤ xs.length) : prefixDist xs ys i 0 = i := by
  rw [prefixDist, List.take_zero, List.reverse_nil, dist_nil_right, List.length_reverse,
    List.length_take, min_eq_left hi]

theorem prefixDist_succ {i j : ℕ} (hi : i < xs.length) (hj : j < ys.length) :
    prefixDist xs ys (i + 1) (j + 1) =
      min (min (prefixDist xs ys i (j + 1) + 1) (prefixDist xs ys (i + 1) j + 1))
        (prefixDist xs ys i j + if xs[i] = ys[j] then 0 else 1) := by
  have hxs : (xs.take (i + 1)).reverse = xs[i] :: (xs.take i).reverse := by
    rw [List.take_add_one, List.getElem?_eq_getElem hi, Option.toList_some, List.reverse_append]
    rfl
  have hys : (ys.take (j + 1)).reverse = ys[j] :: (ys.take j).reverse := by
    rw [List.take_add_one, List.getElem?_eq_getElem hj, Option.toList_some, List.reverse_append]
    rfl
  rw [prefixDist, hxs, hys, dist_cons_cons, ← hxs, ← hys]
  rfl

theorem prefixDist_length (xs ys : List α) : prefixDist xs ys xs.length ys.length = dist xs ys := by
  rw [prefixDist, List.take_length, List.take_length, dist_reverse]

end Dist

end AflPlusPlus.EditDistance
