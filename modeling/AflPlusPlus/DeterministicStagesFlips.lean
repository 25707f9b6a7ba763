import AflPlusPlus.DeterministicStagesEvents

/-!
# What `could_be_bitflip` accepts

The helper accepts runs of set bits. Inside a byte, or over whole bytes, such a run is what
one of the walking flips changes. A run of two or four bits that leaves the top of a byte
for the lowest bits of the next one is accepted too, but no walking flip makes it: the
walking bits go from the lowest bit of a byte to the top of the next one.
-/

namespace AflPlusPlus.DeterministicStages
open ByteWords ByteBuffers

/-! ## Runs of bits -/

section Runs

theorem shiftUntilSet_spec (fuel sh : ℕ) (x : Word 4) : ∃ d, (shiftUntilSet fuel sh x).1 = sh + d ∧
    x.toNat = (shiftUntilSet fuel sh x).2.toNat * 2 ^ d := by
  induction fuel generalizing sh x with
  | zero => exact ⟨0, rfl, by simp [shiftUntilSet]⟩
  | succ fuel ih =>
    rw [shiftUntilSet]
    split
    · next heven =>
      obtain ⟨d, hsh, hd⟩ := ih (sh + 1) (x >>> 1)
      refine ⟨d + 1, by omega, ?_⟩
      have hmod : x.toNat % 2 = 0 := by
        have := congrArg BitVec.toNat heven
        rwa [BitVec.toNat_and, show (1 : Word 4).toNat = 1 from rfl, Nat.and_one_is_mod] at this
      rw [BitVec.toNat_ushiftRight, Nat.shiftRight_eq_div_pow] at hd
      rw [Nat.pow_succ, ← Nat.mul_assoc, ← hd]
      omega
    · exact ⟨0, rfl, by simp⟩

/-- The words that `could_be_bitflip` accepts: zero, and runs of set bits of six lengths, the
longer ones at multiples of 8. -/
theorem couldBeBitflip_run {x : Word 4} (h : couldBeBitflip x = true) : x = 0 ∨
    ∃ k sh, (k = 1 ∨ k = 2 ∨ k = 4 ∨ (k = 8 ∨ k = 16 ∨ k = 32) ∧ sh % 8 = 0) ∧
      x.toNat = (2 ^ k - 1) * 2 ^ sh := by
  obtain ⟨d, hsh, hd⟩ := shiftUntilSet_spec 32 0 x
  rw [Nat.zero_add] at hsh
  by_cases hx : x = 0
  · exact .inl hx
  refine .inr ?_
  simp only [couldBeBitflip, hx, if_false, hsh] at h
  split at h
  · next hv =>
    rcases hv with hv | hv | hv
    · exact ⟨1, d, .inl rfl, by rw [hd, hv]; rfl⟩
    · exact ⟨2, d, .inr (.inl rfl), by rw [hd, hv]; rfl⟩
    · exact ⟨4, d, .inr (.inr (.inl rfl)), by rw [hd, hv]; rfl⟩
  · split at h
    · simp at h
    · next hmod =>
      have hmod : d % 8 = 0 := by omega
      rcases of_decide_eq_true h with hv | hv | hv
      · exact ⟨8, d, .inr (.inr (.inr ⟨.inl rfl, hmod⟩)), by rw [hd, hv]; rfl⟩
      · exact ⟨16, d, .inr (.inr (.inr ⟨.inr (.inl rfl), hmod⟩)), by rw [hd, hv]; rfl⟩
      · exact ⟨32, d, .inr (.inr (.inr ⟨.inr (.inr rfl), hmod⟩)), by rw [hd, hv]; rfl⟩

variable {w k sh : ℕ} {x : BitVec w}

theorem run_le (hk : 0 < k) (hx : x.toNat = (2 ^ k - 1) * 2 ^ sh) : sh + k ≤ w := by
  have hlt := x.isLt
  have hle : 2 ^ (k - 1) ≤ 2 ^ k - 1 := by
    have hpow : 2 ^ k = 2 ^ (k - 1) * 2 := by
      rw [← Nat.pow_succ, Nat.succ_eq_add_one, Nat.sub_add_cancel hk]
    have := Nat.two_pow_pos (k - 1)
    omega
  have hmul := Nat.mul_le_mul_right (2 ^ sh) hle
  rw [← Nat.pow_add, ← hx] at hmul
  have := (Nat.pow_lt_pow_iff_right (by omega)).mp (Nat.lt_of_le_of_lt hmul hlt)
  omega

theorem getLsbD_run (hx : x.toNat = (2 ^ k - 1) * 2 ^ sh) (t : ℕ) :
    x.getLsbD t = decide (sh ≤ t ∧ t < sh + k) := by
  rw [BitVec.getLsbD, hx, Nat.testBit_mul_two_pow, Nat.testBit_two_pow_sub_one]
  rw [Bool.eq_iff_iff]
  simp only [Bool.and_eq_true, decide_eq_true_eq]
  omega

theorem getLsbD_byteOf_run (hx : x.toNat = (2 ^ k - 1) * 2 ^ sh) (j : ℕ) {t : ℕ} (ht : t < 8) :
    (byteOf x j).getLsbD t = decide (sh ≤ 8 * j + t ∧ 8 * j + t < sh + k) := by
  simp [byteOf, ht, getLsbD_run hx]

theorem getLsbD_bitMask (k b p : ℕ) {t : ℕ} (ht : t < 8) : (bitMask k b p).getLsbD t =
    decide (b ≤ 8 * p + 7 - t ∧ 8 * p + 7 - t < b + k) := by
  have hbit : ∀ s < 8, ∀ t < 8, (128#8 >>> s).getLsbD t = decide (t = 7 - s) := by decide
  induction k with
  | zero =>
    simp [bitMask]
  | succ k ih =>
    rw [bitMask, BitVec.getLsbD_xor, ih]
    split
    · next hp =>
      rw [hbit _ (Nat.mod_lt _ (by omega)) t ht, Bool.eq_iff_iff]
      simp only [bne_iff_ne, ne_eq, decide_eq_decide, decide_eq_true_eq]
      omega
    · next hp =>
      simp only [BitVec.getLsbD_zero, Bool.bne_false, decide_eq_decide]
      omega

/-- A run inside a byte is a run of the walking bits. -/
theorem byteOf_run_bits (hx : x.toNat = (2 ^ k - 1) * 2 ^ sh) (hin : sh % 8 + k ≤ 8) (j : ℕ) :
    byteOf x j = bitMask k (8 * (sh / 8) + (8 - k - sh % 8)) j := by
  refine BitVec.eq_of_getLsbD_eq fun t ht => ?_
  rw [getLsbD_byteOf_run hx j ht, getLsbD_bitMask _ _ _ ht, decide_eq_decide]
  omega

/-- A run of whole bytes. -/
theorem byteOf_run_bytes {m q : ℕ} (hx : x.toNat = (2 ^ (8 * m) - 1) * 2 ^ (8 * q)) (j : ℕ) :
    byteOf x j = if q ≤ j ∧ j < q + m then BitVec.allOnes 8 else 0#8 := by
  refine BitVec.eq_of_getLsbD_eq fun t ht => ?_
  rw [getLsbD_byteOf_run hx j ht]
  split
  · rw [decide_eq_true (by omega), BitVec.getLsbD_allOnes, decide_eq_true ht]
  · rw [decide_eq_false (by omega), BitVec.getLsbD_zero]

end Runs

/-! ## Buffers that differ by a run of bits -/

section Flipped

variable {n m i : ℕ} {buf : Buffer}

/-- A change of a word that leaves the bytes outside a narrower word changes that word. -/
theorem storeAt_xor_narrow {q : ℕ} {x : Word n} {y : Word m} (hm : q + m ≤ n)
    (hout : ∀ j < n, j < q ∨ q + m ≤ j → byteOf x j = 0#8)
    (hin : ∀ j < m, byteOf x (q + j) = byteOf y j) :
    storeAt n buf i (loadAt n buf i ^^^ x) =
      storeAt m buf (i + q) (loadAt m buf (i + q) ^^^ y) := by
  refine storeAt_narrow hm (fun j hj hjq => ?_) fun j hj => ?_
  · simp [hj, hout j hj hjq]
  · rw [byteOf_xor, byteOf_xor, byteOf_loadAt (by omega), byteOf_loadAt hj, hin j hj, Nat.add_assoc]

theorem storeAt_xor_bits {k b : ℕ} {x : Word n} (hb : b + k ≤ 8 * n)
    (hx : ∀ j < n, byteOf x j = bitMask k b j) :
    storeAt n buf i (loadAt n buf i ^^^ x) = flipBits k buf (8 * i + b) := by
  refine buffer_ext (by simp) fun p hp => ?_
  rw [length_storeAt] at hp
  rw [byteAt_storeAt _ hp, byteAt_flipBits _ _ hp]
  split
  · next h =>
    have hip : i + (p - i) = p := by omega
    rw [byteOf_xor, byteOf_loadAt (by omega), hx _ (by omega), hip, ← bitMask_add k b i, hip]
  · next h => rw [bitMask_eq_zero (by omega), BitVec.xor_zero]

end Flipped

/-! ## What the earlier stages have run -/

/-- The buffers differ by a run of two or four bits that starts in byte `p` and ends in the
lowest bits of byte `p + 1`. -/
def CrossingRun (buf b : Buffer) : Prop :=
  ∃ p k s, p + 1 < buf.length ∧ (k = 2 ∨ k = 4) ∧ s < 8 ∧ 8 < s + k ∧
    b = storeAt 2 buf p (loadAt 2 buf p ^^^ BitVec.ofNat 16 ((2 ^ k - 1) * 2 ^ s))

/-- The buffer is the input, differs from it by a crossing run, or was executed in one of
the stages. -/
def Reached (buf : Buffer) (skipEffMap : ℕ → Bool) (sts : List Stage) (b : Buffer) : Prop :=
  b = buf ∨ CrossingRun buf b ∨
    ∃ st ∈ sts, ∃ i valType, Event.exec i valType b ∈ st.events buf skipEffMap

theorem Reached.mono {buf b : Buffer} {skipEffMap : ℕ → Bool} {sts sts' : List Stage}
    (h : Reached buf skipEffMap sts b) (hsub : sts ⊆ sts') : Reached buf skipEffMap sts' b := by
  rcases h with h | h | ⟨st, hst, h⟩
  · exact .inl h
  · exact .inr (.inl h)
  · exact .inr (.inr ⟨st, hsub hst, h⟩)

section Effective

variable {buf : Buffer} {skipEffMap : ℕ → Bool} (heff : ∀ i < buf.length, skipEffMap i = true)
  {n i : ℕ}

include heff

theorem mem_bitflipEvents {k b : ℕ} (hk : 0 < k) (hb : b + k ≤ 8 * buf.length) :
    .exec (b / 8) .none (flipBits k buf b) ∈ bitflipEvents buf skipEffMap k := by
  refine List.mem_flatMap.mpr ⟨b, List.mem_range.mpr (by omega), ?_⟩
  simp [heff (b / 8) (by omega)]

theorem mem_byteflipEvents (hn : 0 < n) (hi : i + n ≤ buf.length) :
    .exec i .none (storeAt n buf i (loadAt n buf i ^^^ BitVec.allOnes (8 * n))) ∈
      byteflipEvents buf skipEffMap n := by
  refine List.mem_flatMap.mpr ⟨i, List.mem_range.mpr (by omega), ?_⟩
  simp [heff i (by omega)]

theorem mem_wordEvents (hn : 0 < n) (hi : i + n ≤ buf.length)
    {attempts : Word n → List (Attempt n)} {a : Attempt n} (ha : a ∈ attempts (loadAt n buf i)) :
    a.event buf i ∈ wordEvents buf skipEffMap attempts := by
  refine List.mem_flatMap.mpr ⟨i, List.mem_range.mpr (by omega), ?_⟩
  rw [if_pos (heff i (by omega))]
  exact List.mem_map_of_mem ha

omit heff in
theorem skip_mem_wordEvents (hn : 0 < n) {attempts : Word n → List (Attempt n)} {b : Buffer}
    (h : .skip i b ∈ wordEvents buf skipEffMap attempts) : i + n ≤ buf.length ∧
      ∃ a ∈ attempts (loadAt n buf i), a.skipped = true ∧ b = storeAt n buf i a.value := by
  obtain ⟨i', hi', hmem⟩ := List.mem_flatMap.mp h
  have hlt := List.mem_range.mp hi'
  split at hmem
  · obtain ⟨a, ha, hevent⟩ := List.mem_map.mp hmem
    unfold Attempt.event at hevent
    split at hevent
    · next hskip =>
      obtain ⟨rfl, rfl⟩ := Event.skip.inj hevent
      exact ⟨by omega, a, ha, hskip, rfl⟩
    · cases hevent
  · cases hmem

/-- An attempt of a stage is executed by it, or it was skipped. -/
theorem reached_of_attempt {sts : List Stage} {st : Stage} {attempts : Word n → List (Attempt n)}
    (hst : st.events buf skipEffMap = wordEvents buf skipEffMap attempts) (hmem : st ∈ sts)
    (hn : 0 < n) (hi : i + n ≤ buf.length) {a : Attempt n} (ha : a ∈ attempts (loadAt n buf i))
    (hskip : a.skipped = true → Reached buf skipEffMap sts (storeAt n buf i a.value)) :
    Reached buf skipEffMap sts (storeAt n buf i a.value) := by
  cases hs : a.skipped with
  | true => exact hskip hs
  | false =>
    have hevent := mem_wordEvents heff hn hi ha
    rw [Attempt.event, hs, ← hst] at hevent
    exact .inr (.inr ⟨st, hmem, i, a.valType, hevent⟩)

def flips : List Stage := [.flip1, .flip2, .flip4, .flip8, .flip16, .flip32]

theorem reached_flipBits {k b : ℕ} (hk : k = 1 ∨ k = 2 ∨ k = 4) (hb : b + k ≤ 8 * buf.length) :
    Reached buf skipEffMap flips (flipBits k buf b) := by
  have hmem := mem_bitflipEvents heff (by omega) hb
  rcases hk with rfl | rfl | rfl
  · exact .inr (.inr ⟨.flip1, by simp [flips], _, _, List.mem_cons_of_mem _ hmem⟩)
  · exact .inr (.inr ⟨.flip2, by simp [flips], _, _, hmem⟩)
  · exact .inr (.inr ⟨.flip4, by simp [flips], _, _, hmem⟩)

theorem reached_byteflip (hn : n = 1 ∨ n = 2 ∨ n = 4) (hi : i + n ≤ buf.length) :
    Reached buf skipEffMap flips
      (storeAt n buf i (loadAt n buf i ^^^ BitVec.allOnes (8 * n))) := by
  have hmem := mem_byteflipEvents heff (by omega) hi
  rcases hn with rfl | rfl | rfl
  · exact .inr (.inr ⟨.flip8, by simp [flips], _, _, hmem⟩)
  · exact .inr (.inr ⟨.flip16, by simp [flips], _, _, hmem⟩)
  · exact .inr (.inr ⟨.flip32, by simp [flips], _, _, hmem⟩)

/-- Any change of a word by a run of bits of one of the lengths is reached by the flips. -/
theorem reached_of_run {x : Word n} {k sh : ℕ} (hi : i + n ≤ buf.length)
    (hk : k = 1 ∨ k = 2 ∨ k = 4 ∨ (k = 8 ∨ k = 16 ∨ k = 32) ∧ sh % 8 = 0)
    (hx : x.toNat = (2 ^ k - 1) * 2 ^ sh) :
    Reached buf skipEffMap flips (storeAt n buf i (loadAt n buf i ^^^ x)) := by
  have hle := run_le (by omega) hx
  by_cases hbits : k = 1 ∨ k = 2 ∨ k = 4
  · by_cases hin : sh % 8 + k ≤ 8
    · rw [storeAt_xor_bits (by omega) fun j _ => byteOf_run_bits hx hin j]
      exact reached_flipBits heff hbits (by omega)
    · refine .inr (.inl ⟨i + sh / 8, k, sh % 8, by omega, by omega, by omega, by omega, ?_⟩)
      have hy : (BitVec.ofNat 16 ((2 ^ k - 1) * 2 ^ (sh % 8))).toNat =
          (2 ^ k - 1) * 2 ^ (sh % 8) := by
        have hpow : 2 ^ k - 1 ≤ 15 := by
          rcases hbits with rfl | rfl | rfl <;> decide
        have hs : 2 ^ (sh % 8) ≤ 2 ^ 7 := Nat.pow_le_pow_right (by decide) (by omega)
        have := Nat.mul_le_mul hpow hs
        rw [BitVec.toNat_ofNat, Nat.mod_eq_of_lt (by omega)]
      refine storeAt_xor_narrow (by omega) (fun j hj hout => ?_) fun j hj => ?_
      · refine BitVec.eq_of_getLsbD_eq fun t ht => ?_
        rw [getLsbD_byteOf_run hx j ht, BitVec.getLsbD_zero, decide_eq_false (by omega)]
      · refine BitVec.eq_of_getLsbD_eq fun t ht => ?_
        rw [getLsbD_byteOf_run hx _ ht, getLsbD_byteOf_run hy _ ht, decide_eq_decide]
        omega
  · obtain ⟨m, hm, hkm⟩ : ∃ m, (m = 1 ∨ m = 2 ∨ m = 4) ∧ k = 8 * m := ⟨k / 8, by omega, by omega⟩
    obtain ⟨q, hq⟩ : ∃ q, sh = 8 * q := ⟨sh / 8, by omega⟩
    subst hkm hq
    have hbytes := byteOf_run_bytes hx
    rw [storeAt_xor_narrow (m := m) (q := q) (y := BitVec.allOnes (8 * m)) (by omega)]
    · exact reached_byteflip heff hm (by omega)
    · intro j hj hout
      rw [hbytes, if_neg (by omega)]
    · intro j hj
      rw [hbytes, if_pos (by omega), byteOf_allOnes hj]

/-- What a stage skips because of `could_be_bitflip` has been reached. -/
theorem reached_of_couldBeBitflip (hn : n ≤ 4) (hi : i + n ≤ buf.length) {v : Word n}
    (h : couldBeBitflip ((loadAt n buf i ^^^ v).setWidth 32) = true) :
    Reached buf skipEffMap flips (storeAt n buf i v) := by
  have hv : v = loadAt n buf i ^^^ (loadAt n buf i ^^^ v) := by
    rw [← BitVec.xor_assoc, BitVec.xor_self, BitVec.zero_xor]
  have hnat : ((loadAt n buf i ^^^ v).setWidth 32).toNat = (loadAt n buf i ^^^ v).toNat :=
    BitVec.toNat_setWidth_of_le (by omega)
  rw [hv]
  rcases couldBeBitflip_run h with h0 | ⟨k, sh, hk, hrun⟩
  · have hzero : loadAt n buf i ^^^ v = 0#(8 * n) := by
      apply BitVec.eq_of_toNat_eq
      rw [← hnat, h0]
      rfl
    rw [hzero, BitVec.xor_zero, storeAt_loadAt]
    exact .inl rfl
  · exact reached_of_run heff hi hk (hnat ▸ hrun)

end Effective

end AflPlusPlus.DeterministicStages
