import AflPlusPlus.ByteWords
import AflPlusPlus.CheckedBlocks
import AflPlusPlus.Limits

/-!
# Allocation of memory

The functions of `alloc-inl.h` take the size in 32 bits and refuse sizes that are too large. There
is no result when they end the process.
-/

namespace AflPlusPlus.CkAlloc
open ByteWords CheckedBlocks

/-- Null stands for a block without cells. -/
def ckAlloc (size : ℕ) : Option (Block Byte) :=
  let size := size % 2 ^ 32
  if size > maxAlloc then none else some ⟨size, fun _ => 0⟩

/-- A string is given by its characters before the terminator. As many characters are copied as the
block has cells. -/
def ckStrdup (str : List Byte) : Option (Block Byte) :=
  let size := (str.length + 1) % 2 ^ 32
  if size > maxAlloc then none else some ⟨size, fun i => str.getD i 0⟩

variable {size : ℕ} {str : List Byte}

theorem size_eq_of_le (h : size ≤ maxAlloc) : size % 2 ^ 32 = size :=
  Nat.mod_eq_of_lt (h.trans_lt (by decide))

theorem ckAlloc_eq (h : size ≤ maxAlloc) : ckAlloc size = some ⟨size, fun _ => 0⟩ := by
  rw [ckAlloc]
  simp only [size_eq_of_le h]
  exact if_neg (Nat.not_lt.mpr h)

/-- A size that is too large is refused, or only what is left of it in 32 bits is allocated. -/
theorem ckAlloc_of_lt (h : maxAlloc < size) :
    ckAlloc size = none ∨ ∃ b, ckAlloc size = some b ∧ b.size + maxAlloc < size := by
  by_cases hlarge : size % 2 ^ 32 > maxAlloc
  · exact Or.inl (if_pos hlarge)
  · refine Or.inr ⟨_, if_neg hlarge, ?_⟩
    rw [maxAlloc] at h hlarge ⊢
    simp only
    omega

theorem ckStrdup_eq (h : str.length + 1 ≤ maxAlloc) :
    ckStrdup str = some ⟨str.length + 1, fun i => str.getD i 0⟩ := by
  rw [ckStrdup]
  simp only [size_eq_of_le h]
  exact if_neg (Nat.not_lt.mpr h)

end AflPlusPlus.CkAlloc
