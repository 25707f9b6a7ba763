import Mathlib

/-!
# Blocks of one length

A list is cut into blocks of a given length, and a rest that is shorter.
-/

namespace AflPlusPlus.EqualBlocks

variable {α : Type*}

/-- The blocks of length `n` from the beginning on, as many as fit. -/
def blocks (n : ℕ) (xs : List α) : List (List α) :=
  (List.range (xs.length / n)).map fun k => (xs.drop (n * k)).take n

def rest (n : ℕ) (xs : List α) : List α := xs.drop (n * (xs.length / n))

section Blocks
variable {n : ℕ} {xs : List α}

theorem length_rest (hn : 0 < n) : (rest n xs).length < n := by
  rw [rest, List.length_drop]
  have hmod := Nat.mod_lt xs.length hn
  have hdiv := Nat.div_add_mod xs.length n
  omega

theorem flatten_take_blocks (k : ℕ) :
    ((List.range k).map fun k => (xs.drop (n * k)).take n).flatten = xs.take (n * k) := by
  induction k with
  | zero => rw [List.range_zero, List.map_nil, List.flatten_nil, Nat.mul_zero, List.take_zero]
  | succ k ih =>
    rw [List.range_succ, List.map_append, List.flatten_append, ih, List.map_singleton,
      List.flatten_singleton, Nat.mul_succ, List.take_add]

/-- The blocks and the rest are the list. -/
theorem flatten_blocks : (blocks n xs).flatten ++ rest n xs = xs := by
  rw [blocks, rest, flatten_take_blocks, List.take_append_drop]

theorem length_of_mem_blocks {block : List α} (h : block ∈ blocks n xs) : block.length = n := by
  obtain ⟨k, hk, rfl⟩ := List.mem_map.mp h
  rw [List.length_take, List.length_drop, Nat.min_eq_left]
  have hlt := Nat.mul_le_mul_left n (Nat.succ_le_of_lt (List.mem_range.mp hk))
  have hle := Nat.mul_div_le xs.length n
  rw [Nat.mul_succ] at hlt
  omega

/-- A further item may fill a block. -/
theorem blocks_concat (hn : 0 < n) (xs : List α) (x : α) :
    (blocks n (xs ++ [x]) = if (rest n xs).length + 1 = n then blocks n xs ++ [rest n xs ++ [x]]
      else blocks n xs) ∧
    rest n (xs ++ [x]) = if (rest n xs).length + 1 = n then [] else rest n xs ++ [x] := by
  have hdiv := Nat.div_add_mod xs.length n
  have hmod := Nat.mod_lt xs.length hn
  have hle : n * (xs.length / n) ≤ xs.length := Nat.mul_div_le _ _
  have hlen : (rest n xs).length = xs.length % n := by
    rw [rest, List.length_drop]
    omega
  have hold : ∀ k < xs.length / n, ((xs ++ [x]).drop (n * k)).take n = (xs.drop (n * k)).take n := by
    intro k hk
    have hlt : n * k + n ≤ xs.length := by
      have hmul := Nat.mul_le_mul_left n (Nat.succ_le_of_lt hk)
      rw [Nat.mul_succ] at hmul
      omega
    rw [List.drop_append_of_le_length (by omega), List.take_append_of_le_length]
    rw [List.length_drop]
    omega
  have hmap : ((List.range (xs.length / n)).map fun k => ((xs ++ [x]).drop (n * k)).take n) =
      blocks n xs := List.map_congr_left fun k hk => hold k (List.mem_range.mp hk)
  have hdrop : (xs ++ [x]).drop (n * (xs.length / n)) = rest n xs ++ [x] := by
    rw [List.drop_append_of_le_length hle, rest]
  by_cases hfull : xs.length % n + 1 = n
  · have hquot : (xs ++ [x]).length / n = xs.length / n + 1 := by
      rw [List.length_append, List.length_singleton, Nat.div_eq_iff hn, Nat.add_mul,
        Nat.mul_comm (xs.length / n)]
      omega
    rw [hlen, if_pos hfull, if_pos hfull]
    refine ⟨?_, ?_⟩
    · rw [blocks, hquot, List.range_succ, List.map_append, hmap, List.map_singleton, hdrop,
        List.take_of_length_le]
      rw [List.length_append, hlen, List.length_singleton]
      omega
    · rw [rest, List.drop_eq_nil_iff, hquot, List.length_append, List.length_singleton,
        Nat.mul_succ]
      omega
  · have hquot : (xs ++ [x]).length / n = xs.length / n := by
      rw [List.length_append, List.length_singleton, Nat.div_eq_iff hn,
        Nat.mul_comm (xs.length / n)]
      omega
    rw [hlen, if_neg hfull, if_neg hfull, blocks, hquot, hmap, rest, hquot, hdrop]
    exact ⟨rfl, rfl⟩

end Blocks

end AflPlusPlus.EqualBlocks
