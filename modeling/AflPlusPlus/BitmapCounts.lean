import AflPlusPlus.CoverageMap

/-!
# Counts over a map

The counts read the map by words of four bytes, and so up to three bytes behind its size. They skip
the words that are most frequent, and count the bits of a word with the builtin or by adding
neighbouring fields.
-/

namespace AflPlusPlus.BitmapCounts
open ByteWords CoverageMap

/-! ## The code -/

/-- The number of words, in 32 bits. -/
def mapWords (realMapSize : BitVec 32) : ℕ := ((realMapSize + 3) >>> 2).toNat

/-- `while (i--)`, over the words of the map. -/
def countWords (step : BitVec 32 → BitVec 32 → BitVec 32) (realMapSize : BitVec 32) (mem : Mem) :
    BitVec 32 :=
  (List.range (mapWords realMapSize)).foldl (fun ret k => step ret (loadWord 4 mem k)) 0

/-- `__builtin_popcount` -/
def builtinPopcount (v : BitVec 32) : BitVec 32 := BitVec.ofNat 32 (Nat.count (v.getLsbD ·) 32)

/-- The code where there is no such builtin. -/
def fallbackPopcount (v : BitVec 32) : BitVec 32 :=
  let v := v - ((v >>> 1) &&& 0x55555555#32)
  let v := (v &&& 0x33333333#32) + ((v >>> 2) &&& 0x33333333#32)
  (((v + (v >>> 4)) &&& 0xF0F0F0F#32) * 0x01010101#32) >>> 24

def countBits (builtin : Bool) : BitVec 32 → Mem → BitVec 32 :=
  countWords fun ret v =>
    if v = 0xffffffff then ret + 32
    else ret + (if builtin then builtinPopcount v else fallbackPopcount v)

def countBytes : BitVec 32 → Mem → BitVec 32 :=
  countWords fun ret v =>
    if v = 0 then ret
    else
      let ret := if v &&& 0x000000ff ≠ 0 then ret + 1 else ret
      let ret := if v &&& 0x0000ff00 ≠ 0 then ret + 1 else ret
      let ret := if v &&& 0x00ff0000 ≠ 0 then ret + 1 else ret
      if v &&& 0xff000000 ≠ 0 then ret + 1 else ret

def countNon255Bytes : BitVec 32 → Mem → BitVec 32 :=
  countWords fun ret v =>
    if v = 0xffffffff then ret
    else
      let ret := if v &&& 0x000000ff ≠ 0x000000ff then ret + 1 else ret
      let ret := if v &&& 0x0000ff00 ≠ 0x0000ff00 then ret + 1 else ret
      let ret := if v &&& 0x00ff0000 ≠ 0x00ff0000 then ret + 1 else ret
      if v &&& 0xff000000 ≠ 0xff000000 then ret + 1 else ret

/-- `minimize_bits`, for any size of the map. -/
def minimizeBitsUpTo (mapSize : ℕ) (dst src : Mem) : Mem :=
  (List.range mapSize).foldl (fun dst i =>
    if src i ≠ 0 then Function.update dst (i >>> 3) (dst (i >>> 3) ||| (1#8 <<< (i &&& 7)))
    else dst) dst

theorem minimizeBits_eq (g : MapGeometry) : minimizeBits g = minimizeBitsUpTo g.mapSize := rfl

/-! ## One index after the other -/

def naiveBits (mem : Mem) (bytes : ℕ) : ℕ :=
  Nat.count (fun b => (mem (b / 8)).getLsbD (b % 8)) (8 * bytes)

def naiveBytes (mem : Mem) (bytes : ℕ) : ℕ := Nat.count (fun i => mem i ≠ 0) bytes

def naiveNon255Bytes (mem : Mem) (bytes : ℕ) : ℕ := Nat.count (fun i => mem i ≠ 0xff) bytes

/-! ## Loops that count -/

/-- When each word adds the count over its part of the indices, the loop counts over all. -/
theorem countWords_eq {step : BitVec 32 → BitVec 32 → BitVec 32} {mem : Mem} {p : ℕ → Prop}
    [DecidablePred p] {c : ℕ} (hstep : ∀ ret k, step ret (loadWord 4 mem k) =
      ret + BitVec.ofNat 32 (Nat.count (fun j => p (c * k + j)) c)) (realMapSize : BitVec 32) :
    countWords step realMapSize mem = BitVec.ofNat 32 (Nat.count p (c * mapWords realMapSize)) := by
  rw [countWords]
  induction mapWords realMapSize with
  | zero => rfl
  | succ n ih =>
    rw [List.range_succ, List.foldl_append, List.foldl_cons, List.foldl_nil, ih, hstep,
      Nat.mul_succ, Nat.count_add, BitVec.ofNat_add]

/-! ## The bytes of a word -/

section Lanes
variable {v m : BitVec 32} {j : ℕ}

/-- A mask for one byte asks for that byte. -/
theorem and_mask_eq_iff {x : BitVec 32} (hin : byteOf m j = 0xff)
    (hout : ∀ i < 4, i ≠ j → byteOf m i = 0) (hx : ∀ i < 4, i ≠ j → byteOf x i = 0) :
    v &&& m = x ↔ byteOf v j = byteOf x j := by
  have hones : (0xff : Byte) = BitVec.allOnes 8 := rfl
  constructor
  · rintro rfl
    rw [byteOf_and, hin, hones, BitVec.and_allOnes]
  · intro h
    apply eq_of_byteOf_eq (n := 4)
    intro i hi
    rw [byteOf_and]
    by_cases hij : i = j
    · rw [hij, hin, hones, BitVec.and_allOnes, h]
    · rw [hout i hi hij, hx i hi hij]
      exact BitVec.and_zero

theorem and_mask_eq_zero_iff (hin : byteOf m j = 0xff)
    (hout : ∀ i < 4, i ≠ j → byteOf m i = 0) : v &&& m = 0 ↔ byteOf v j = 0 := by
  have hzero : ∀ i, byteOf (0 : BitVec 32) i = 0 := fun i => byteOf_zero i
  rw [and_mask_eq_iff (x := 0) hin hout fun i _ _ => hzero i, hzero]

theorem and_mask_eq_self_iff (hin : byteOf m j = 0xff)
    (hout : ∀ i < 4, i ≠ j → byteOf m i = 0) : v &&& m = m ↔ byteOf v j = 0xff := by
  rw [and_mask_eq_iff hin hout hout, hin]

/-- One after the other, the flags of four bytes are added. -/
theorem add_flags (p : ℕ → Prop) [DecidablePred p] (ret : BitVec 32) :
    (let ret := if p 0 then ret + 1 else ret
     let ret := if p 1 then ret + 1 else ret
     let ret := if p 2 then ret + 1 else ret
     if p 3 then ret + 1 else ret) = ret + BitVec.ofNat 32 (Nat.count p 4) := by
  simp only [Nat.count_succ, Nat.count_zero, BitVec.ofNat_add, BitVec.ofNat_eq_ofNat]
  split_ifs <;> bv_omega

end Lanes

/-! ## The bits of a word -/

section Popcount
variable {v : BitVec 32} {j : ℕ}

theorem count_congr {p q : ℕ → Prop} [DecidablePred p] [DecidablePred q] {n : ℕ}
    (h : ∀ k < n, p k ↔ q k) : Nat.count p n = Nat.count q n :=
  le_antisymm (Nat.count_mono_left fun k hk => (h k hk).mp)
    (Nat.count_mono_left fun k hk => (h k hk).mpr)

/-- A word is the sum of its bytes. -/
theorem toNat_eq_bytes (v : BitVec 32) : v.toNat = (byteOf v 0).toNat + 2 ^ 8 * (byteOf v 1).toNat +
    2 ^ 16 * (byteOf v 2).toNat + 2 ^ 24 * (byteOf v 3).toNat := by
  have hlt := v.isLt
  simp only [byteOf, BitVec.extractLsb'_toNat, Nat.shiftRight_eq_div_pow]
  omega

/-- A shift inside the bytes, where the mask leaves out what comes from the next one. -/
theorem byteOf_shift_and {mask : BitVec 32} {m : Byte} {s : ℕ} (hmask : byteOf mask j = m)
    (hout : ∀ t < 8, 8 ≤ s + t → m.getLsbD t = false) :
    byteOf ((v >>> s) &&& mask) j = (byteOf v j >>> s) &&& m := by
  rw [byteOf_and, hmask]
  apply BitVec.eq_of_getLsbD_eq
  intro t ht
  rw [BitVec.getLsbD_and, BitVec.getLsbD_and]
  by_cases hin : s + t < 8
  · rw [BitVec.getLsbD_ushiftRight, byteOf, byteOf, BitVec.getLsbD_extractLsb',
      BitVec.getLsbD_extractLsb', BitVec.getLsbD_ushiftRight, decide_eq_true ht,
      decide_eq_true hin, Bool.true_and, Bool.true_and, Nat.add_left_comm]
  · rw [hout t ht (Nat.not_lt.mp hin), Bool.and_false, Bool.and_false]

theorem toNat_byteOf (v : BitVec 32) (j : ℕ) :
    (byteOf v j).toNat = v.toNat / 2 ^ (8 * j) % 2 ^ 8 := by
  rw [byteOf, BitVec.extractLsb'_toNat, Nat.shiftRight_eq_div_pow]

/-- Bytes that do not overflow are added one by one. -/
theorem byteOf_add {x y : BitVec 32}
    (h : ∀ i < 4, (byteOf x i).toNat + (byteOf y i).toNat < 256) (hj : j < 4) :
    byteOf (x + y) j = byteOf x j + byteOf y j := by
  have h0 := h 0 (by decide)
  have h1 := h 1 (by decide)
  have h2 := h 2 (by decide)
  have h3 := h 3 (by decide)
  have hx := toNat_eq_bytes x
  have hy := toNat_eq_bytes y
  apply BitVec.eq_of_toNat_eq
  rw [toNat_byteOf, BitVec.toNat_add, BitVec.toNat_add]
  obtain rfl | rfl | rfl | rfl : j = 0 ∨ j = 1 ∨ j = 2 ∨ j = 3 := by omega
  all_goals omega

/-- The same for smaller bytes that are subtracted. -/
theorem byteOf_sub {x y : BitVec 32} (h : ∀ i < 4, (byteOf y i).toNat ≤ (byteOf x i).toNat)
    (hj : j < 4) : byteOf (x - y) j = byteOf x j - byteOf y j := by
  have h0 := h 0 (by decide)
  have h1 := h 1 (by decide)
  have h2 := h 2 (by decide)
  have h3 := h 3 (by decide)
  have hx := toNat_eq_bytes x
  have hy := toNat_eq_bytes y
  have hle : y ≤ x := by
    rw [BitVec.le_def]
    omega
  have hbyte := (byteOf x j).isLt
  apply BitVec.eq_of_toNat_eq
  rw [toNat_byteOf, BitVec.toNat_sub_of_le hle, BitVec.toNat_sub_of_le (BitVec.le_def.mpr (h j hj))]
  obtain rfl | rfl | rfl | rfl : j = 0 ∨ j = 1 ∨ j = 2 ∨ j = 3 := by omega
  all_goals omega

/-- The three steps on one byte: pairs of bits, fields of four, and their sum. -/
def pairs (b : Byte) : Byte := b - ((b >>> 1) &&& 0x55#8)

def fours (b : Byte) : Byte := (pairs b &&& 0x33#8) + ((pairs b >>> 2) &&& 0x33#8)

theorem byte_steps : ∀ b : Byte, ((b >>> 1) &&& 0x55#8).toNat ≤ b.toNat ∧
    (pairs b &&& 0x33#8).toNat + ((pairs b >>> 2) &&& 0x33#8).toNat < 256 ∧
    (fours b).toNat / 16 ≤ 4 ∧ (fours b).toNat % 16 ≤ 4 ∧
    (fours b).toNat / 16 + (fours b).toNat % 16 = Nat.count (b.getLsbD ·) 8 := by
  decide +kernel

theorem byteOf_pairs (hj : j < 4) :
    byteOf (v - ((v >>> 1) &&& 0x55555555#32)) j = pairs (byteOf v j) := by
  have hshift : ∀ i < 4, byteOf ((v >>> 1) &&& 0x55555555#32) i = (byteOf v i >>> 1) &&& 0x55#8 := by
    intro i hi
    apply byteOf_shift_and
    · obtain rfl | rfl | rfl | rfl : i = 0 ∨ i = 1 ∨ i = 2 ∨ i = 3 := by omega
      all_goals rfl
    · decide
  rw [byteOf_sub _ hj, hshift j hj, pairs]
  intro i hi
  rw [hshift i hi]
  exact (byte_steps (byteOf v i)).1

theorem byteOf_fours {w : BitVec 32} (hw : ∀ i < 4, byteOf w i = pairs (byteOf v i)) (hj : j < 4) :
    byteOf ((w &&& 0x33333333#32) + ((w >>> 2) &&& 0x33333333#32)) j =
      fours (byteOf v j) := by
  have hmask : ∀ i < 4, byteOf 0x33333333#32 i = 0x33#8 := by decide
  have hlow : ∀ i < 4, byteOf (w &&& 0x33333333#32) i = pairs (byteOf v i) &&& 0x33#8 := by
    intro i hi
    rw [byteOf_and, hmask i hi, hw i hi]
  have hhigh : ∀ i < 4, byteOf ((w >>> 2) &&& 0x33333333#32) i =
      (pairs (byteOf v i) >>> 2) &&& 0x33#8 := by
    intro i hi
    rw [byteOf_shift_and (hmask i hi) (by decide), hw i hi]
  rw [byteOf_add _ hj, hlow j hj, hhigh j hj, fours]
  intro i hi
  rw [hlow i hi, hhigh i hi]
  exact (byte_steps (byteOf v i)).2.1

/-- The high and low halves of four bytes, added to one another in one step. -/
theorem half_sums {a0 a1 a2 a3 b0 b1 b2 b3 n : ℕ} (ha0 : a0 ≤ 4) (ha1 : a1 ≤ 4) (ha2 : a2 ≤ 4)
    (ha3 : a3 ≤ 4) (hb0 : b0 ≤ 4) (hb1 : b1 ≤ 4) (hb2 : b2 ≤ 4) (hb3 : b3 ≤ 4)
    (hn : n = (16 * a0 + b0) + 2 ^ 8 * (16 * a1 + b1) + 2 ^ 16 * (16 * a2 + b2) +
      2 ^ 24 * (16 * a3 + b3)) :
    n + n / 16 < 2 ^ 32 ∧ (n + n / 16) % 16 = a0 + b0 ∧ (n + n / 16) / 2 ^ 8 % 16 = a1 + b1 ∧
      (n + n / 16) / 2 ^ 16 % 16 = a2 + b2 ∧ (n + n / 16) / 2 ^ 24 % 16 = a3 + b3 := by
  have hhalf : n / 16 = a0 + 16 * (b1 + 16 * (a1 + 16 * (b2 + 16 * (a2 + 16 * (b3 + 16 * a3))))) := by
    omega
  have hsum : n + n / 16 = (a0 + b0) + 16 * ((a0 + b1) + 16 * ((a1 + b1) + 16 * ((a1 + b2) +
      16 * ((a2 + b2) + 16 * ((a2 + b3) + 16 * ((a3 + b3) + 16 * a3)))))) := by
    omega
  rw [hsum]
  refine ⟨by omega, by omega, ?_, ?_, ?_⟩
  · have hdiv : ∀ x y z : ℕ, x ≤ 8 → y ≤ 8 → (x + 16 * (y + 16 * z)) / 2 ^ 8 = z := by omega
    rw [hdiv _ _ _ (by omega) (by omega)]
    omega
  · have hdiv : ∀ w x y z u : ℕ, w ≤ 8 → x ≤ 8 → y ≤ 8 → z ≤ 8 →
        (w + 16 * (x + 16 * (y + 16 * (z + 16 * u)))) / 2 ^ 16 = u := by omega
    rw [hdiv _ _ _ _ _ (by omega) (by omega) (by omega) (by omega)]
    omega
  · have hdiv : ∀ s t w x y z u : ℕ, s ≤ 8 → t ≤ 8 → w ≤ 8 → x ≤ 8 → y ≤ 8 → z ≤ 8 →
        (s + 16 * (t + 16 * (w + 16 * (x + 16 * (y + 16 * (z + 16 * u)))))) / 2 ^ 24 = u := by omega
    rw [hdiv _ _ _ _ _ _ _ (by omega) (by omega) (by omega) (by omega) (by omega) (by omega)]
    omega

theorem top_byte {c0 c1 c2 c3 : ℕ} (h0 : c0 ≤ 8) (h1 : c1 ≤ 8) (h2 : c2 ≤ 8) (h3 : c3 ≤ 8) :
    (c0 + 2 ^ 8 * c1 + 2 ^ 16 * c2 + 2 ^ 24 * c3) * 0x01010101 % 2 ^ 32 / 2 ^ 24 =
      c0 + c1 + c2 + c3 := by
  have hproduct : (c0 + 2 ^ 8 * c1 + 2 ^ 16 * c2 + 2 ^ 24 * c3) * 0x01010101 =
      2 ^ 32 * ((c1 + c2 + c3) + 2 ^ 8 * (c2 + c3) + 2 ^ 16 * c3) + 2 ^ 24 * (c0 + c1 + c2 + c3) +
        (2 ^ 16 * (c0 + c1 + c2) + 2 ^ 8 * (c0 + c1) + c0) := by
    ring
  rw [hproduct, Nat.add_assoc, Nat.mul_add_mod, Nat.mod_eq_of_lt (by omega),
    Nat.mul_add_div (by decide), Nat.div_eq_of_lt (by omega), Nat.add_zero]

/-- The multiplication adds the four bytes. -/
theorem sum_fields {w : BitVec 32} (h : ∀ i < 4, (byteOf w i).toNat / 16 ≤ 4 ∧
    (byteOf w i).toNat % 16 ≤ 4) :
    ((((w + (w >>> 4)) &&& 0xF0F0F0F#32) * 0x01010101#32) >>> 24).toNat =
      ((byteOf w 0).toNat / 16 + (byteOf w 0).toNat % 16) +
      ((byteOf w 1).toNat / 16 + (byteOf w 1).toNat % 16) +
      ((byteOf w 2).toNat / 16 + (byteOf w 2).toNat % 16) +
      ((byteOf w 3).toNat / 16 + (byteOf w 3).toNat % 16) := by
  have hw := toNat_eq_bytes w
  rw [← Nat.div_add_mod (byteOf w 0).toNat 16, ← Nat.div_add_mod (byteOf w 1).toNat 16,
    ← Nat.div_add_mod (byteOf w 2).toNat 16, ← Nat.div_add_mod (byteOf w 3).toNat 16] at hw
  obtain ⟨hlt, hs0, hs1, hs2, hs3⟩ := half_sums (h 0 (by decide)).1 (h 1 (by decide)).1
    (h 2 (by decide)).1 (h 3 (by decide)).1 (h 0 (by decide)).2 (h 1 (by decide)).2
    (h 2 (by decide)).2 (h 3 (by decide)).2 hw
  have hsum : (w + (w >>> 4)).toNat = w.toNat + w.toNat / 16 := by
    rw [BitVec.toNat_add, BitVec.toNat_ushiftRight, Nat.shiftRight_eq_div_pow]
    exact Nat.mod_eq_of_lt hlt
  have hmask : ∀ i < 4, byteOf 0xF0F0F0F#32 i = 0xF := by decide
  have hfield : ∀ i < 4, (byteOf ((w + (w >>> 4)) &&& 0xF0F0F0F#32) i).toNat =
      (w.toNat + w.toNat / 16) / 2 ^ (8 * i) % 16 := by
    intro i hi
    have hfifteen : BitVec.toNat (0xF : Byte) = 2 ^ 4 - 1 := rfl
    have hdvd : (16 : ℕ) ∣ 2 ^ 8 := by decide
    rw [byteOf_and, hmask i hi, BitVec.toNat_and, hfifteen, Nat.and_two_pow_sub_one_eq_mod,
      toNat_byteOf, hsum, Nat.mod_mod_of_dvd _ hdvd]
  have hfields := toNat_eq_bytes ((w + (w >>> 4)) &&& 0xF0F0F0F#32)
  rw [hfield 0 (by decide), hfield 1 (by decide), hfield 2 (by decide), hfield 3 (by decide),
    Nat.mul_zero, Nat.pow_zero, Nat.div_one, hs0, Nat.mul_one, hs1, hs2, hs3] at hfields
  rw [BitVec.toNat_ushiftRight, Nat.shiftRight_eq_div_pow, BitVec.toNat_mul, hfields]
  have hbound : ∀ i < 4, (byteOf w i).toNat / 16 + (byteOf w i).toNat % 16 ≤ 8 := by
    intro i hi
    exact Nat.add_le_add (h i hi).1 (h i hi).2
  exact top_byte (hbound 0 (by decide)) (hbound 1 (by decide)) (hbound 2 (by decide))
    (hbound 3 (by decide))

/-- The bits of a word, byte by byte. -/
theorem count_bits_eq (v : BitVec 32) : Nat.count (v.getLsbD ·) 32 =
    Nat.count ((byteOf v 0).getLsbD ·) 8 + Nat.count ((byteOf v 1).getLsbD ·) 8 +
      Nat.count ((byteOf v 2).getLsbD ·) 8 + Nat.count ((byteOf v 3).getLsbD ·) 8 := by
  have hbyte : ∀ i, Nat.count (fun k => v.getLsbD (8 * i + k)) 8 =
      Nat.count ((byteOf v i).getLsbD ·) 8 := by
    intro i
    apply count_congr
    intro k hk
    rw [byteOf, BitVec.getLsbD_extractLsb', decide_eq_true hk, Bool.true_and]
  rw [← hbyte 0, ← hbyte 1, ← hbyte 2, ← hbyte 3]
  simp only [Nat.count_succ, Nat.count_zero]
  ring

/-- Without the builtin the bits are counted all the same. -/
theorem fallbackPopcount_eq (v : BitVec 32) : fallbackPopcount v = builtinPopcount v := by
  have hfours := fun i hi => byteOf_fours (fun j hj => byteOf_pairs (v := v) hj) (j := i) hi
  have hle : Nat.count (v.getLsbD ·) 32 ≤ 32 := Nat.count_le _
  apply BitVec.eq_of_toNat_eq
  rw [fallbackPopcount, builtinPopcount, BitVec.toNat_ofNat, Nat.mod_eq_of_lt (by omega),
    count_bits_eq]
  rw [sum_fields]
  · rw [hfours 0 (by decide), hfours 1 (by decide), hfours 2 (by decide), hfours 3 (by decide),
      (byte_steps _).2.2.2.2, (byte_steps _).2.2.2.2, (byte_steps _).2.2.2.2,
      (byte_steps _).2.2.2.2]
  · intro i hi
    rw [hfours i hi]
    exact ⟨(byte_steps _).2.2.1, (byte_steps _).2.2.2.1⟩

end Popcount

/-! ## The counts -/

section Counts
variable {mem : Mem} (realMapSize : BitVec 32)

theorem countBits_eq (builtin : Bool) : countBits builtin realMapSize mem =
    BitVec.ofNat 32 (naiveBits mem (4 * mapWords realMapSize)) := by
  have hsize : 8 * (4 * mapWords realMapSize) = 32 * mapWords realMapSize := by omega
  rw [naiveBits, hsize]
  apply countWords_eq
  intro ret k
  have hword : Nat.count (fun b => (mem ((32 * k + b) / 8)).getLsbD ((32 * k + b) % 8)) 32 =
      Nat.count ((loadWord 4 mem k).getLsbD ·) 32 := by
    apply count_congr
    intro b hb
    have hdiv : (32 * k + b) / 8 = 4 * k + b / 8 := by omega
    have hmod : (32 * k + b) % 8 = b % 8 := by omega
    rw [loadWord, getLsbD_ofBytes, decide_eq_true hb, Bool.true_and, hdiv, hmod]
  rw [hword]
  generalize loadWord 4 mem k = v
  split
  · next hones =>
    rw [hones]
    rfl
  · cases builtin with
    | true => rfl
    | false =>
      rw [if_neg Bool.false_ne_true, fallbackPopcount_eq]
      rfl

theorem countBytes_eq : countBytes realMapSize mem =
    BitVec.ofNat 32 (naiveBytes mem (4 * mapWords realMapSize)) := by
  apply countWords_eq
  intro ret k
  have hbyte : ∀ j < 4, mem (4 * k + j) = byteOf (loadWord 4 mem k) j := fun j hj =>
    (byteOf_loadWord mem k hj).symm
  rw [count_congr fun j hj => by rw [hbyte j hj], ← add_flags]
  generalize loadWord 4 mem k = v
  split
  · next hzero =>
    rw [hzero]
    simp
  · simp only [Ne, and_mask_eq_zero_iff (v := v) (m := 0x000000ff) (j := 0) (by decide) (by decide),
      and_mask_eq_zero_iff (v := v) (m := 0x0000ff00) (j := 1) (by decide) (by decide),
      and_mask_eq_zero_iff (v := v) (m := 0x00ff0000) (j := 2) (by decide) (by decide),
      and_mask_eq_zero_iff (v := v) (m := 0xff000000) (j := 3) (by decide) (by decide)]

theorem countNon255Bytes_eq : countNon255Bytes realMapSize mem =
    BitVec.ofNat 32 (naiveNon255Bytes mem (4 * mapWords realMapSize)) := by
  apply countWords_eq
  intro ret k
  have hbyte : ∀ j < 4, mem (4 * k + j) = byteOf (loadWord 4 mem k) j := fun j hj =>
    (byteOf_loadWord mem k hj).symm
  rw [count_congr fun j hj => by rw [hbyte j hj], ← add_flags]
  generalize loadWord 4 mem k = v
  split
  · next hones =>
    have hall : ∀ j < 4, byteOf (0xffffffff : BitVec 32) j = 0xff := by decide
    simp only [hones, hall 0 (by decide), hall 1 (by decide), hall 2 (by decide), hall 3 (by decide),
      ne_eq, not_true_eq_false, if_false]
  · simp only [Ne,
      and_mask_eq_self_iff (v := v) (m := 0x000000ff) (j := 0) (by decide) (by decide),
      and_mask_eq_self_iff (v := v) (m := 0x0000ff00) (j := 1) (by decide) (by decide),
      and_mask_eq_self_iff (v := v) (m := 0x00ff0000) (j := 2) (by decide) (by decide),
      and_mask_eq_self_iff (v := v) (m := 0xff000000) (j := 3) (by decide) (by decide)]

theorem mapWords_eq : mapWords realMapSize = (realMapSize.toNat + 3) % 2 ^ 32 / 4 := by
  rw [mapWords, BitVec.toNat_ushiftRight, BitVec.toNat_add, Nat.shiftRight_eq_div_pow]
  rfl

/-- The sizes and the counts have 32 bits: only the count of the bits may exceed them. -/
theorem counts_eq (realMapSize : BitVec 32) (mem : Mem) (mapSize : BitVec 32) (src : Mem) :
    (∀ builtin, (countBits builtin realMapSize mem).toNat =
      naiveBits mem (4 * ((realMapSize.toNat + 3) % 2 ^ 32 / 4)) % 2 ^ 32) ∧
    (countBytes realMapSize mem).toNat =
      naiveBytes mem (4 * ((realMapSize.toNat + 3) % 2 ^ 32 / 4)) ∧
    (countNon255Bytes realMapSize mem).toNat =
      naiveNon255Bytes mem (4 * ((realMapSize.toNat + 3) % 2 ^ 32 / 4)) ∧
    ∀ i, bitSet (minimizeBitsUpTo mapSize.toNat (fun _ => 0) src) i = true ↔
      i < mapSize.toNat ∧ src i ≠ 0 := by
  have hbytes : 4 * ((realMapSize.toNat + 3) % 2 ^ 32 / 4) < 2 ^ 32 := by omega
  have hnonzero : naiveBytes mem (4 * ((realMapSize.toNat + 3) % 2 ^ 32 / 4)) ≤ _ := Nat.count_le _
  have hnon255 : naiveNon255Bytes mem (4 * ((realMapSize.toNat + 3) % 2 ^ 32 / 4)) ≤ _ :=
    Nat.count_le _
  refine ⟨?_, ?_, ?_, bitSet_minimizeLoop src mapSize.toNat⟩
  · intro builtin
    rw [countBits_eq, mapWords_eq, BitVec.toNat_ofNat]
  · rw [countBytes_eq, mapWords_eq, BitVec.toNat_ofNat, Nat.mod_eq_of_lt (by omega)]
  · rw [countNon255Bytes_eq, mapWords_eq, BitVec.toNat_ofNat, Nat.mod_eq_of_lt (by omega)]

/-- The greatest size that `AFL_MAP_SIZE` may have, with every bit of the map set. -/
theorem countBits_wraps : ¬ ∀ builtin (realMapSize : BitVec 32) mem,
    (countBits builtin realMapSize mem).toNat =
      naiveBits mem (4 * ((realMapSize.toNat + 3) / 4)) := by
  intro h
  have hcount := h true 0x20000000 fun _ => 0xff
  have hall : ∀ bytes, naiveBits (fun _ => 0xff) bytes = 8 * bytes := by
    intro bytes
    apply Nat.count_of_forall
    intro b _
    have hones : ∀ t < 8, (0xff : Byte).getLsbD t = true := by decide
    exact hones (b % 8) (Nat.mod_lt b (by decide))
  rw [countBits_eq, hall, hall, mapWords_eq, BitVec.toNat_ofNat] at hcount
  exact absurd hcount (by decide)

end Counts

end AflPlusPlus.BitmapCounts
