import Mathlib

/-!
# Blocks of a list

Removing the elements between two positions, and the move of the elements behind them inside
an array that keeps its size. Removals lead to a subsequence, and the removal of nothing
changes nothing.
-/

namespace AflPlusPlus.ListBlocks

variable {α : Type*}

/-- The list without its elements from `pos` up to `pos + n`. -/
def eraseBlock (pos n : ℕ) (xs : List α) : List α := xs.take pos ++ xs.drop (pos + n)

/-- The array after `n` elements from `src` on were copied to `dst`. -/
def memmove (dst src n : ℕ) (xs : List α) : List α :=
  xs.take dst ++ (xs.drop src).take n ++ xs.drop (dst + n)

/-- The list with `n` elements from `pos` on set to `x`. -/
def fillBlock (pos n : ℕ) (x : α) (xs : List α) : List α :=
  xs.take pos ++ List.replicate n x ++ xs.drop (pos + n)

variable {pos n len : ℕ} {xs : List α}

theorem length_fillBlock {x : α} (h : pos + n ≤ xs.length) :
    (fillBlock pos n x xs).length = xs.length := by
  simp only [fillBlock, List.length_append, List.length_take, List.length_replicate,
    List.length_drop]
  omega

theorem eraseBlock_sublist : (eraseBlock pos n xs).Sublist xs := by
  have hdrop : (xs.drop (pos + n)).Sublist (xs.drop pos) := by
    rw [← List.drop_drop]
    exact List.drop_sublist _ _
  calc eraseBlock pos n xs
      _ = xs.take pos ++ xs.drop (pos + n) := rfl
      List.Sublist _ (xs.take pos ++ xs.drop pos) := hdrop.append_left _
      _ = xs := List.take_append_drop _ _

theorem eraseBlock_one (pos : ℕ) (xs : List α) : eraseBlock pos 1 xs = xs.eraseIdx pos :=
  (List.eraseIdx_eq_take_drop_succ xs pos).symm

/-- Of two equal neighbours either may go. -/
theorem eraseBlock_eq_of_take_eq (h : (xs.drop pos).take n = (xs.drop (pos + n)).take n) :
    eraseBlock (pos + n) n xs = eraseBlock pos n xs := by
  calc xs.take (pos + n) ++ xs.drop (pos + n + n)
      _ = xs.take pos ++ ((xs.drop pos).take n ++ xs.drop (pos + n + n)) := by
        rw [List.take_add, List.append_assoc]
      _ = xs.take pos ++ ((xs.drop (pos + n)).take n ++ (xs.drop (pos + n)).drop n) := by
        rw [h, List.drop_drop]
      _ = xs.take pos ++ xs.drop (pos + n) := by rw [List.take_append_drop]

theorem length_memmove {dst src : ℕ} (hsrc : src + n ≤ xs.length) (hdst : dst + n ≤ xs.length) :
    (memmove dst src n xs).length = xs.length := by
  simp only [memmove, List.length_append, List.length_take, List.length_drop]
  omega

/-- Moving what stands behind a block over it removes the block from the first `len`
elements. -/
theorem take_memmove (h : pos + n ≤ len) (hlen : len ≤ xs.length) :
    (memmove pos (pos + n) (len - pos - n) xs).take (len - n) =
      eraseBlock pos n (xs.take len) := by
  have htail : (xs.drop (pos + n)).take (len - pos - n) = (xs.take len).drop (pos + n) := by
    rw [List.drop_take, Nat.sub_sub]
  have hhead : (xs.take len).take pos = xs.take pos := by
    rw [List.take_take, Nat.min_eq_left (by omega)]
  have hsize : (xs.take pos ++ (xs.take len).drop (pos + n)).length = len - n := by
    simp only [List.length_append, List.length_take, List.length_drop]
    omega
  rw [memmove, htail, eraseBlock, hhead, List.take_append_of_le_length hsize.ge,
    List.take_of_length_le hsize.le]

end AflPlusPlus.ListBlocks
