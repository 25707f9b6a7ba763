import AflPlusPlus.CmpExtendEncoding

/-!
# Operands in the other byte order

The length of a swap is given in bits where it is taken for bytes. For three bytes and more the
shift that drops the bytes above the operand is then one that C leaves undefined.
-/

namespace AflPlusPlus.Redqueen
open ByteWords MemoryPatches

/-- The lowest bytes of `y` are those of `x` in the other order. -/
def Reversed (n : ℕ) (x y : BitVec 128) : Prop := ∀ j < n, byteOf y j = byteOf x (n - 1 - j)

instance (n : ℕ) (x y : BitVec 128) : Decidable (Reversed n x y) :=
  inferInstanceAs (Decidable (∀ j < n, _))

def Operands.All {w : ℕ} (P : BitVec w → Prop) (o : Operands w) : Prop :=
  P o.pattern ∧ P o.repl ∧ P o.oPattern ∧ P o.changedVal

theorem Operands.all_congr {w : ℕ} {P Q : BitVec w → Prop} (h : ∀ x, P x ↔ Q x) (o : Operands w) :
    o.All P ↔ o.All Q := by
  simp only [Operands.All, h]

/-- The operands of the call for the other byte order are swapped. -/
def SwapsOperands (f : Fuzzer) (hshape : ℕ) (o : Operands 128) : Prop :=
  let r := reversedOperands f hshape o
  Reversed hshape o.pattern r.pattern ∧ Reversed hshape o.repl r.repl ∧
    Reversed hshape o.oPattern r.oPattern ∧ Reversed hshape o.changedVal r.changedVal

theorem byteOf_reverseBytes (x : BitVec 128) {j : ℕ} (hj : j < 16) :
    byteOf (reverseBytes x) j = byteOf x (15 - j) := byteOf_ofBytes _ hj

theorem byteOf_ushiftRight (x : BitVec 128) (n j : ℕ) :
    byteOf (x >>> (8 * n)) j = byteOf x (n + j) := by
  apply BitVec.eq_of_getLsbD_eq
  intro b hb
  simp only [byteOf, BitVec.getLsbD_extractLsb', BitVec.getLsbD_ushiftRight, Nat.mul_add,
    Nat.add_assoc]

/-- For one byte the value is shifted by the half of its width. -/
theorem SWAPN_one (f : Fuzzer) (x : BitVec 128) {j : ℕ} (hj : j < 8) :
    byteOf (SWAPN f x (BitVec.ofNat 32 1 <<< 3)) j = byteOf x (7 - j) := by
  have hswap : SWAPN f x (BitVec.ofNat 32 1 <<< 3) = reverseBytes x >>> (8 * 8) := rfl
  rw [hswap, byteOf_ushiftRight, byteOf_reverseBytes x (by omega)]
  congr 1
  omega

/-- For two bytes it is not shifted. -/
theorem SWAPN_two (f : Fuzzer) (x : BitVec 128) {j : ℕ} (hj : j < 16) :
    byteOf (SWAPN f x (BitVec.ofNat 32 2 <<< 3)) j = byteOf x (15 - j) := by
  have hswap : SWAPN f x (BitVec.ofNat 32 2 <<< 3) = reverseBytes x >>> (8 * 0) := rfl
  rw [hswap, byteOf_ushiftRight, byteOf_reverseBytes x (by omega)]
  congr 1
  omega

/-- For any other width the shift count is too large. -/
theorem SWAPN_wide (f : Fuzzer) (x : BitVec 128) {hshape : ℕ} (hlow : 3 ≤ hshape)
    (hhigh : hshape ≤ 16) :
    ∃ sr, SWAPN f x (BitVec.ofNat 32 hshape <<< 3) = f.wideShift (reverseBytes x) sr := by
  have hcount : ¬(128 - ((BitVec.ofNat 32 hshape <<< 3) <<< 3)).toNat < 128 := by
    interval_cases hshape
    all_goals decide
  exact ⟨_, if_neg hcount⟩

theorem swapsOperands_all {f : Fuzzer} {hshape : ℕ} {o : Operands 128} : SwapsOperands f hshape o ↔
    o.All fun x => Reversed hshape x (SWAPN f x (BitVec.ofNat 32 hshape <<< 3)) := Iff.rfl

theorem reversed_one_iff (f : Fuzzer) (x : BitVec 128) :
    Reversed 1 x (SWAPN f x (BitVec.ofNat 32 1 <<< 3)) ↔ byteOf x 7 = byteOf x 0 := by
  constructor
  · intro h
    have hbyte := h 0 (by norm_num)
    rwa [SWAPN_one f x (by norm_num)] at hbyte
  · intro h j hj
    obtain rfl : j = 0 := by omega
    rw [SWAPN_one f x (by norm_num)]
    exact h

theorem reversed_two_iff (f : Fuzzer) (x : BitVec 128) :
    Reversed 2 x (SWAPN f x (BitVec.ofNat 32 2 <<< 3)) ↔
      byteOf x 15 = byteOf x 1 ∧ byteOf x 14 = byteOf x 0 := by
  constructor
  · intro h
    have hfirst := h 0 (by norm_num)
    have hsecond := h 1 (by norm_num)
    rw [SWAPN_two f x (by norm_num)] at hfirst hsecond
    exact ⟨hfirst, hsecond⟩
  · rintro ⟨hfirst, hsecond⟩ j hj
    rw [SWAPN_two f x (by omega)]
    obtain rfl | rfl : j = 0 ∨ j = 1 := by omega
    · exact hfirst
    · exact hsecond

/-- A fuzzer with a shift that gives any value. -/
def shifting (wideShift : BitVec 128 → ℕ → BitVec 128) : Fuzzer :=
  { silent 16 LVL1 with wideShift }

/-- No operand of three bytes or more is swapped by every shift. -/
theorem not_reversed_wide (x : BitVec 128) {hshape : ℕ} (hlow : 3 ≤ hshape) (hhigh : hshape ≤ 16) :
    ∃ f, ¬Reversed hshape x (SWAPN f x (BitVec.ofNat 32 hshape <<< 3)) := by
  have hother : ∀ b : BitVec 8, byteOf ((~~~b).setWidth 128) 0 ≠ b := by
    decide +kernel
  refine ⟨shifting fun _ _ => (~~~(byteOf x (hshape - 1))).setWidth 128, fun h => ?_⟩
  have hbyte := h 0 (by omega)
  obtain ⟨sr, hswap⟩ := SWAPN_wide (shifting fun _ _ => (~~~(byteOf x (hshape - 1))).setWidth 128) x
    hlow hhigh
  rw [hswap] at hbyte
  exact hother _ hbyte

/-- The operands are swapped, whatever an undefined shift gives, exactly when they have one or two
bytes and the bytes that take their place happen to be the same. -/
theorem swapsOperands_iff (o : Operands 128) (hshape : ℕ) (hlow : 1 ≤ hshape)
    (hhigh : hshape ≤ 16) :
    (∀ f, SwapsOperands f hshape o) ↔
      (hshape = 1 ∧ o.All fun x => byteOf x 7 = byteOf x 0) ∨
      (hshape = 2 ∧ o.All fun x => byteOf x 15 = byteOf x 1 ∧ byteOf x 14 = byteOf x 0) := by
  constructor
  · intro h
    obtain rfl | rfl | hwide : hshape = 1 ∨ hshape = 2 ∨ 3 ≤ hshape := by omega
    · have hall := swapsOperands_all.mp (h (shifting fun x _ => x))
      rw [o.all_congr (reversed_one_iff _)] at hall
      exact .inl ⟨rfl, hall⟩
    · have hall := swapsOperands_all.mp (h (shifting fun x _ => x))
      rw [o.all_congr (reversed_two_iff _)] at hall
      exact .inr ⟨rfl, hall⟩
    · obtain ⟨f, hf⟩ := not_reversed_wide o.pattern hwide hhigh
      exact absurd (h f).1 hf
  · rintro (⟨rfl, h⟩ | ⟨rfl, h⟩) f
    · rw [swapsOperands_all, o.all_congr (reversed_one_iff f)]
      exact h
    · rw [swapsOperands_all, o.all_congr (reversed_two_iff f)]
      exact h

theorem swapsOperands_iff_three : (∀ f, SwapsOperands f 3 ⟨1, 2, 3, 4⟩) ↔
    (3 = 1 ∧ Operands.All (fun x : BitVec 128 => byteOf x 7 = byteOf x 0) ⟨1, 2, 3, 4⟩) ∨
    (3 = 2 ∧ Operands.All (fun x : BitVec 128 => byteOf x 15 = byteOf x 1 ∧ byteOf x 14 = byteOf x 0)
      ⟨1, 2, 3, 4⟩) :=
  swapsOperands_iff ⟨1, 2, 3, 4⟩ 3 (by norm_num) (by norm_num)

/-- Three bytes, with a shift by the count modulo the width. -/
theorem three_bytes_not_swapped : ¬SwapsOperands (shifting fun x n => x >>> (n % 128)) 3
    ⟨0x030201, 0x060504, 0x090807, 0x0c0b0a⟩ := by
  rintro ⟨hpattern, -⟩
  revert hpattern
  decide +kernel

end AflPlusPlus.Redqueen
