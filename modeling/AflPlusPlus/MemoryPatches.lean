import AflPlusPlus.ByteWords

/-!
# Parts of a memory

A run of bytes is written over a memory, or read from a place of it as from the start of another
one. What was read puts back what was written.
-/

namespace AflPlusPlus.MemoryPatches
open ByteWords

/-- `memcpy(m + i, bytes, n)` -/
def patch (m : Mem) (i n : ℕ) (bytes : Mem) : Mem := fun k =>
  if i ≤ k ∧ k < i + n then bytes (k - i) else m k

/-- `m + i` -/
def window (m : Mem) (i : ℕ) : Mem := fun k => m (i + k)

/-- The word of `n` bytes at `m + i`. -/
def load (n : ℕ) (m : Mem) (i : ℕ) : BitVec (8 * n) := ofBytes n (window m i)

/-- The first `n` bytes. -/
def bytes (n : ℕ) (m : Mem) : List Byte := (List.range n).map m

variable {m m' x y : Mem} {i n j k l : ℕ}

@[simp] theorem window_apply : window m i k = m (i + k) := rfl

@[simp] theorem window_zero : window m 0 = m := by
  funext k
  rw [window_apply, Nat.zero_add]

theorem patch_of_mem (h : i ≤ k ∧ k < i + n) : patch m i n x k = x (k - i) := if_pos h

theorem patch_of_not_mem (h : ¬(i ≤ k ∧ k < i + n)) : patch m i n x k = m k := if_neg h

@[simp] theorem patch_zero : patch m i 0 x = m := by
  funext k
  apply patch_of_not_mem
  omega

theorem patch_congr (h : ∀ k < n, x k = y k) : patch m i n x = patch m i n y := by
  funext k
  by_cases hk : i ≤ k ∧ k < i + n
  · rw [patch_of_mem hk, patch_of_mem hk]
    apply h
    omega
  · rw [patch_of_not_mem hk, patch_of_not_mem hk]

/-- A patch that goes on where another one ends. -/
theorem patch_append : patch (patch m i n x) (i + n) l (window x n) = patch m i (n + l) x := by
  funext k
  by_cases hfirst : i ≤ k ∧ k < i + n
  · rw [patch_of_not_mem (by omega), patch_of_mem hfirst, patch_of_mem (by omega)]
  · by_cases hsecond : i + n ≤ k ∧ k < i + n + l
    · rw [patch_of_mem hsecond, patch_of_mem (by omega), window_apply]
      congr 1
      omega
    · rw [patch_of_not_mem hsecond, patch_of_not_mem hfirst, patch_of_not_mem]
      omega

/-- The memories are the same outside of `n` bytes. -/
def SameOutside (i n : ℕ) (m m' : Mem) : Prop := ∀ k, ¬(i ≤ k ∧ k < i + n) → m k = m' k

theorem SameOutside.refl (i n : ℕ) (m : Mem) : SameOutside i n m m := fun _ _ => rfl

theorem SameOutside.trans {m'' : Mem} (h : SameOutside i n m m') (h' : SameOutside i n m' m'') :
    SameOutside i n m m'' := fun k hk => (h k hk).trans (h' k hk)

theorem SameOutside.mono (h : SameOutside i n m m') (hl : n ≤ l) : SameOutside i l m m' := by
  intro k hk
  apply h
  omega

/-- The same bytes are written to both. -/
theorem SameOutside.patch (h : SameOutside i n m m') :
    SameOutside i n (patch m i l x) (patch m' i l x) := by
  intro k hk
  by_cases hin : i ≤ k ∧ k < i + l
  · rw [patch_of_mem hin, patch_of_mem hin]
  · rw [patch_of_not_mem hin, patch_of_not_mem hin, h k hk]

@[simp] theorem length_bytes : (bytes n m).length = n := by
  simp [bytes]

theorem getElem?_bytes (hk : k < n) : (bytes n m)[k]? = some (m k) := by
  simp [bytes, hk]

theorem bytes_congr (h : ∀ k < n, m k = m' k) : bytes n m = bytes n m' := by
  apply List.map_congr_left
  intro k hk
  exact h k (List.mem_range.mp hk)

theorem bytes_add : bytes (n + l) m = bytes n m ++ bytes l (window m n) := by
  simp [bytes, List.range_add, Function.comp_def]

theorem bytes_succ : bytes (n + 1) (window m i) = m i :: bytes n (window m (i + 1)) := by
  rw [Nat.add_comm, bytes_add]
  simp [bytes, window, Nat.add_assoc]

theorem drop_bytes (h : i ≤ n) : (bytes n m).drop i = bytes (n - i) (window m i) := by
  obtain ⟨l, rfl⟩ := Nat.exists_eq_add_of_le h
  rw [bytes_add, List.drop_left' length_bytes, Nat.add_sub_cancel_left]

theorem take_bytes (h : i ≤ n) : (bytes n m).take i = bytes i m := by
  obtain ⟨l, rfl⟩ := Nat.exists_eq_add_of_le h
  rw [bytes_add, List.take_left' length_bytes]

/-- A list is what a memory with its elements has. -/
theorem bytes_getD (s : List Byte) : bytes s.length (fun k => s.getD k 0) = s := by
  apply List.ext_getElem?
  intro k
  by_cases hk : k < s.length
  · rw [getElem?_bytes hk, List.getD_eq_getElem _ _ hk, List.getElem?_eq_getElem hk]
  · rw [List.getElem?_eq_none (by simpa using hk), List.getElem?_eq_none (by omega)]

end AflPlusPlus.MemoryPatches
