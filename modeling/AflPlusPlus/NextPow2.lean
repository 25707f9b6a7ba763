import Mathlib

/-!
# The next power of two

`next_pow2` spreads every bit of `in - 1` to the bits below it, by shifts of 1, 2, 4, 8 and 16. So a
bit reaches the 31 bits below it, and in a word of 64 bits some may be left out.
-/

namespace AflPlusPlus.NextPow2

/-- `next_pow2` of `alloc-inl.h`, on a 64-bit `size_t`. -/
def nextPow2 (x : BitVec 64) : BitVec 64 :=
  let out := x - 1
  let out := out ||| out >>> 1
  let out := out ||| out >>> 2
  let out := out ||| out >>> 4
  let out := out ||| out >>> 8
  let out := out ||| out >>> 16
  out + 1

/-- The least power of two that is at least `x`, or 0 where it takes more than 64 bits. -/
def RoundsUp (x r : BitVec 64) : Prop :=
  ∃ k, x.toNat ≤ 2 ^ k ∧ (∀ j, x.toNat ≤ 2 ^ j → k ≤ j) ∧ r.toNat = if k < 64 then 2 ^ k else 0

/-! ## Spreading bits -/

/-- The bits of `y` are those of `x`, each with the `n - 1` bits below it. -/
def Spread {w : ℕ} (n : ℕ) (x y : BitVec w) : Prop :=
  ∀ j, y.getLsbD j = true ↔ ∃ d < n, x.getLsbD (j + d) = true

section Spread
variable {w n : ℕ} {x y : BitVec w}

theorem spread_one (x : BitVec w) : Spread 1 x x := by
  intro j
  constructor
  · intro h
    exact ⟨0, Nat.one_pos, h⟩
  · rintro ⟨d, hd, h⟩
    obtain rfl : d = 0 := Nat.lt_one_iff.mp hd
    exact h

/-- A shift by as much as was spread before doubles it. -/
theorem Spread.double (h : Spread n x y) : Spread (n + n) x (y ||| y >>> n) := by
  intro j
  rw [BitVec.getLsbD_or, BitVec.getLsbD_ushiftRight, Bool.or_eq_true, h, h]
  constructor
  · rintro (⟨d, hd, hbit⟩ | ⟨d, hd, hbit⟩)
    · exact ⟨d, by omega, hbit⟩
    · refine ⟨n + d, by omega, ?_⟩
      rwa [← Nat.add_assoc, Nat.add_comm j n]
  · rintro ⟨d, hd, hbit⟩
    by_cases hlow : d < n
    · exact Or.inl ⟨d, hlow, hbit⟩
    · refine Or.inr ⟨d - n, by omega, ?_⟩
      have hsum : n + j + (d - n) = j + d := by omega
      rwa [hsum]

end Spread

/-- Where the code stops, a bit has reached 31 others. -/
theorem nextPow2_eq (x : BitVec 64) : ∃ out, Spread 32 (x - 1) out ∧ nextPow2 x = out + 1 := by
  refine ⟨_, ?_, rfl⟩
  exact (spread_one (x - 1)).double.double.double.double.double

/-! ## When the result is a power of two -/

/-- Among the bits below the highest one there are no 32 zeros in a row. -/
def Dense (x : BitVec 64) : Prop := ∀ j, 2 ^ j ≤ x.toNat → ∃ d < 32, x.getLsbD (j + d) = true

section Result
variable {x out : BitVec 64} {j k : ℕ}

theorem lt_size_of_getLsbD (h : x.getLsbD j = true) : j < Nat.size x.toNat := by
  rw [Nat.lt_size]
  exact Nat.ge_two_pow_of_testBit h

/-- The bits that are spread are the ones up to the highest exactly when no gap is too wide. -/
theorem spread_full_iff (h : Spread 32 x out) :
    out.toNat = 2 ^ Nat.size x.toNat - 1 ↔ Dense x := by
  constructor
  · intro hfull j hj
    rw [← h j]
    change out.toNat.testBit j = true
    rw [hfull, Nat.testBit_two_pow_sub_one, decide_eq_true_eq]
    exact Nat.lt_size.mpr hj
  · intro hdense
    apply Nat.eq_of_testBit_eq
    intro j
    rw [Nat.testBit_two_pow_sub_one, Bool.eq_iff_iff, decide_eq_true_eq]
    constructor
    · intro hbit
      obtain ⟨d, -, hd⟩ := (h j).mp hbit
      exact (Nat.le_add_right j d).trans_lt (lt_size_of_getLsbD hd)
    · intro hj
      exact (h j).mpr (hdense j (Nat.lt_size.mp hj))

/-- Up to 4 GiB no gap is too wide. -/
theorem dense_of_lt (h : x.toNat < 2 ^ 32) : Dense x := by
  intro j hj
  by_contra hgap
  push Not at hgap
  apply absurd hj (Nat.not_le.mpr _)
  apply Nat.lt_pow_two_of_testBit
  intro i hi
  by_cases hnear : i < j + 32
  · have hbit := hgap (i - j) (by omega)
    rw [Nat.add_sub_cancel' hi] at hbit
    exact eq_false_of_ne_true hbit
  · have hpow : 2 ^ 32 ≤ 2 ^ i := Nat.pow_le_pow_right (by decide) (by omega)
    exact Nat.testBit_lt_two_pow (h.trans_le hpow)

/-- The exponent is the number of bits of `x - 1`. -/
theorem roundsUp_iff {r : BitVec 64} (hx : 1 ≤ x.toNat) :
    RoundsUp x r ↔ r.toNat = 2 ^ Nat.size (x.toNat - 1) % 2 ^ 64 := by
  have hsize : ∀ j, x.toNat ≤ 2 ^ j ↔ Nat.size (x.toNat - 1) ≤ j := by
    intro j
    rw [Nat.size_le]
    omega
  have hcut : ∀ k ≤ 64, (if k < 64 then 2 ^ k else 0) = 2 ^ k % 2 ^ 64 := by
    intro k hk
    split
    · next hlt => rw [Nat.mod_eq_of_lt (Nat.pow_lt_pow_right (by decide) hlt)]
    · next hge =>
      obtain rfl : k = 64 := by omega
      rfl
  have hle : Nat.size (x.toNat - 1) ≤ 64 := (hsize 64).mp x.isLt.le
  constructor
  · rintro ⟨k, hk, hleast, hr⟩
    obtain rfl : k = Nat.size (x.toNat - 1) :=
      le_antisymm (hleast _ ((hsize _).mpr le_rfl)) ((hsize k).mp hk)
    rw [hr, hcut _ hle]
  · intro hr
    exact ⟨_, (hsize _).mpr le_rfl, fun j => (hsize j).mp, hr.trans (hcut _ hle).symm⟩

theorem roundsUp_spread_iff (h : Spread 32 (x - 1) out) (hx : 1 ≤ x.toNat) :
    RoundsUp x (out + 1) ↔ Dense (x - 1) := by
  have hpred : (x - 1).toNat = x.toNat - 1 := by
    rw [BitVec.toNat_sub_of_le]
    · rfl
    · exact hx
  have hpos : 0 < 2 ^ Nat.size (x.toNat - 1) := Nat.two_pow_pos _
  have hle : 2 ^ Nat.size (x.toNat - 1) ≤ 2 ^ 64 := by
    apply Nat.pow_le_pow_right (by decide)
    rw [Nat.size_le]
    omega
  rw [roundsUp_iff hx, ← spread_full_iff h, hpred, BitVec.toNat_add]
  change (out.toNat + 1) % 2 ^ 64 = _ ↔ _
  have hout : out.toNat < 2 ^ 64 := out.isLt
  constructor
  · intro h
    omega
  · intro h
    omega

/-- Up to 4 GiB the result is right. -/
theorem nextPow2_roundsUp_of_le (hx : 1 ≤ x.toNat) (hle : x.toNat ≤ 2 ^ 32) :
    RoundsUp x (nextPow2 x) := by
  obtain ⟨out, hspread, hresult⟩ := nextPow2_eq x
  rw [hresult, roundsUp_spread_iff hspread hx]
  apply dense_of_lt
  have hone : (1 : BitVec 64) ≤ x := hx
  rw [BitVec.toNat_sub_of_le hone]
  change x.toNat - 1 < 2 ^ 32
  omega

theorem nextPow2_roundsUp_iff (x : BitVec 64) (hx : 1 ≤ x.toNat) :
    RoundsUp x (nextPow2 x) ↔ Dense (x - 1) := by
  obtain ⟨out, hspread, hresult⟩ := nextPow2_eq x
  rw [hresult]
  exact roundsUp_spread_iff hspread hx

/-- Above 4 GiB: one zero below the highest bit is no gap, 32 of them are. -/
theorem nextPow2_roundsUp_iff_above : RoundsUp 0x300000000 (nextPow2 0x300000000) ∧
    ¬Dense (0x100000001 - 1) := by
  have hbits : Dense (0x300000000 - 1) := by
    intro j hj
    have hlt : j < 34 := (Nat.pow_lt_pow_iff_right (by decide : 1 < 2)).mp (hj.trans_lt (by decide))
    interval_cases j <;> decide
  refine ⟨(nextPow2_roundsUp_iff 0x300000000 (by decide)).mpr hbits, ?_⟩
  rw [← nextPow2_roundsUp_iff 0x100000001 (by decide), roundsUp_iff (by decide)]
  decide +kernel

/-- One more than 4 GiB: the lowest bit is not reached. -/
theorem nextPow2_above_four_gib : ¬ ∀ x : BitVec 64, 1 ≤ x.toNat → RoundsUp x (nextPow2 x) := by
  intro h
  have hresult := (roundsUp_iff (by decide)).mp (h 0x100000001 (by decide))
  revert hresult
  decide +kernel

end Result

end AflPlusPlus.NextPow2
