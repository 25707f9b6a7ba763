import AflPlusPlus.DeterministicStagesDedup

/-!
# What the helpers accept exactly

`could_be_arith` accepts a word that is equal or differs by a step inside one aligned part of it,
and nothing else. `could_be_interest` accepts a word that is equal or has an interesting value
inserted, of the widths and in the byte orders that its last argument and the width of the word
leave in question.
-/

namespace AflPlusPlus.DeterministicStages
open ByteWords ByteBuffers

/-! ## Arithmetics -/

section Arith

theorem foldl_diffs_eq {abs : List (Word 4 × Word 4)} (d : Diffs)
    (h : ∀ ab ∈ abs, ab.1 = ab.2) : abs.foldl Diffs.step d = d := by
  induction abs with
  | nil => rfl
  | cons ab abs ih =>
    rw [List.forall_mem_cons] at h
    rw [List.foldl_cons, Diffs.step, if_neg (not_not.mpr h.1)]
    exact ih h.2

/-- When one part differs, the loop counts it and keeps it. -/
theorem foldl_diffs_of_one (abs : List (Word 4 × Word 4)) {k : ℕ} (d : Diffs)
    (hk : k < abs.length) (hne : abs[k].1 ≠ abs[k].2)
    (hall : ∀ k', ∀ hk' : k' < abs.length, k' ≠ k → abs[k'].1 = abs[k'].2) :
    abs.foldl Diffs.step d = ⟨d.diffs + 1, abs[k].1, abs[k].2⟩ := by
  induction abs generalizing k with
  | nil => exact absurd hk (Nat.not_lt_zero k)
  | cons ab abs ih =>
    rw [List.foldl_cons]
    cases k with
    | zero =>
      have hrest : ∀ ab' ∈ abs, ab'.1 = ab'.2 := by
        intro ab' hab'
        obtain ⟨k', hk', rfl⟩ := List.getElem_of_mem hab'
        exact hall (k' + 1) (Nat.succ_lt_succ hk') (Nat.succ_ne_zero k')
      have hstep : Diffs.step d ab = ⟨d.diffs + 1, ab.1, ab.2⟩ := if_pos hne
      rw [hstep, foldl_diffs_eq _ hrest]
      rfl
    | succ k =>
      have hfirst : ab.1 = ab.2 := hall 0 (Nat.zero_lt_succ _) (Nat.succ_ne_zero k).symm
      have hstep : Diffs.step d ab = d := if_neg (not_not.mpr hfirst)
      rw [hstep]
      apply ih (Nat.lt_of_succ_lt_succ hk) hne
      intro k' hk' hne'
      exact hall (k' + 1) (Nat.succ_lt_succ hk') fun heq => hne' (Nat.succ.inj heq)

variable {n m i count : ℕ} {x y : Word n}

/-- The parts beside the one that may differ are equal. -/
theorem subWord_eq_of_ne {i' : ℕ} (hi' : m * i' + m ≤ n) (hne : i' ≠ i)
    (hout : ∀ j < n, j < m * i ∨ m * i + m ≤ j → byteOf x j = byteOf y j) :
    subWord m x (m * i') = subWord m y (m * i') := by
  apply eq_of_byteOf_eq
  intro j hj
  rw [byteOf_subWord x hj, byteOf_subWord y hj]
  apply hout _ (by omega)
  rcases Nat.lt_or_gt_of_ne hne with hlt | hgt
  · have hmul : m * (i' + 1) ≤ m * i := Nat.mul_le_mul_left m hlt
    rw [Nat.mul_succ] at hmul
    exact Or.inl (by omega)
  · have hmul : m * (i + 1) ≤ m * i' := Nat.mul_le_mul_left m hgt
    rw [Nat.mul_succ] at hmul
    exact Or.inr (by omega)

theorem countDiffs_of_one (hn : n ≤ 4) (hcount : m * count = n) (hi : i < count)
    (hout : ∀ j < n, j < m * i ∨ m * i + m ≤ j → byteOf x j = byteOf y j)
    (hne : subWord m x (m * i) ≠ subWord m y (m * i)) (ov nv : Word 4) :
    countDiffs (8 * m) count (x.setWidth 32) (y.setWidth 32) ov nv =
      ⟨1, (subWord m x (m * i)).setWidth 32, (subWord m y (m * i)).setWidth 32⟩ := by
  have hle : ∀ i < count, m * i + m ≤ n := by
    intro i hi
    rw [← hcount, ← Nat.mul_succ]
    exact Nat.mul_le_mul_left m hi
  have hwide : 8 * m ≤ 32 := by
    have hlast := hle i hi
    omega
  rw [countDiffs_eq _ _ _ hn]
  have hone := foldl_diffs_of_one ((List.range count).map fun i =>
    ((subWord m x (m * i)).setWidth 32, (subWord m y (m * i)).setWidth 32)) (k := i) ⟨0, ov, nv⟩
    (by simpa using hi) (by simpa using fun heq => hne (setWidth_inj hwide heq)) (by
      intro k' hk' hne'
      simp only [List.length_map, List.length_range] at hk'
      simp only [List.getElem_map, List.getElem_range]
      rw [subWord_eq_of_ne (hle k' hk') hne' hout])
  simpa using hone

/-- A step of at most `ARITH_MAX` changes the word and is in range. -/
theorem inArithRange_stepBy {w : ℕ} (hw : w = 8 ∨ w = 16 ∨ w = 32) {a b : BitVec w} {plus : Bool}
    {j : ℕ} (hj : 1 ≤ j ∧ j ≤ arithMax) (h : b = stepBy plus a j) :
    a ≠ b ∧ inArithRange w (a.setWidth 32) (b.setWidth 32) = true := by
  obtain ⟨hmin, hmax⟩ := hj
  rw [arithMax] at hmax
  have hsmall : (BitVec.ofNat w j).toNat = j := by
    rw [BitVec.toNat_ofNat, Nat.mod_eq_of_lt]
    rcases hw with rfl | rfl | rfl <;> omega
  rw [inArithRange, decide_eq_true_eq, setWidth_sub_setWidth hw, setWidth_sub_setWidth hw]
  have hne : a - b = BitVec.ofNat w j ∨ b - a = BitVec.ofNat w j → a ≠ b := by
    rintro hdiff rfl
    rw [BitVec.sub_self, or_self] at hdiff
    rw [← hdiff, BitVec.toNat_zero] at hsmall
    omega
  cases plus with
  | true =>
    have hdiff : b - a = BitVec.ofNat w j := by
      rw [h, stepBy, if_pos rfl, add_sub_cancel_left]
    rw [hdiff, hsmall]
    exact ⟨hne (Or.inr hdiff), Or.inr hmax⟩
  | false =>
    have hdiff : a - b = BitVec.ofNat w j := by
      rw [h, stepBy, if_neg Bool.false_ne_true, sub_sub_cancel]
    rw [hdiff, hsmall]
    exact ⟨hne (Or.inl hdiff), Or.inl hmax⟩

theorem revWord_one (u : Word 1) : u = revWord u := by
  apply eq_of_byteOf_eq
  intro j hj
  rw [byteOf_revWord u hj]
  congr 1
  omega

/-- A part that has been stepped in one of the two orders is in range in that order. -/
theorem inArithRange_step_inOrder (hm : 8 * m = 8 ∨ 8 * m = 16 ∨ 8 * m = 32) {a b : Word m}
    {swap : Word m → Word m} (hswap : ∀ u, swap u = revWord u) {be plus : Bool} {j : ℕ}
    (hj : 1 ≤ j ∧ j ≤ arithMax) (h : b = inOrder be (stepBy plus (inOrder be a) j)) : a ≠ b ∧
      (inArithRange (8 * m) (a.setWidth 32) (b.setWidth 32) = true ∨
        inArithRange (8 * m) ((swap a).setWidth 32) ((swap b).setWidth 32) = true) := by
  have hstep : inOrder be b = stepBy plus (inOrder be a) j := by
    rw [h, inOrder_inOrder]
  obtain ⟨hne, hrange⟩ := inArithRange_stepBy hm hj hstep
  refine ⟨fun heq => hne (congrArg _ heq), ?_⟩
  cases be with
  | false => exact Or.inl hrange
  | true =>
    rw [hswap, hswap]
    exact Or.inr hrange

/-- Every step inside an aligned part is accepted. -/
theorem couldBeArith_of_stepped (hn : n = 1 ∨ n = 2 ∨ n = 4) (hm : m = 1 ∨ m = 2 ∨ m = 4)
    (h : Stepped x y m (m * i)) : couldBeArith (x.setWidth 32) (y.setWidth 32) n = true := by
  obtain ⟨hle, hout, be, plus, j, hj, hstep⟩ := h
  have hn4 : n ≤ 4 := by omega
  have hi : i < n / m := by
    rcases hm with rfl | rfl | rfl <;> omega
  have hcount : m * (n / m) = n := by
    rcases hm with rfl | rfl | rfl <;> omega
  rw [couldBeArith]
  split
  · rfl
  next hxy =>
  dsimp only
  rcases hm with rfl | rfl | rfl
  · -- a byte
    obtain ⟨hne, hrange⟩ := inArithRange_step_inOrder (Or.inl rfl) revWord_one hj hstep
    rw [or_self] at hrange
    rw [Nat.div_one] at hcount hi
    have hone : countDiffs 8 n (x.setWidth 32) (y.setWidth 32) 0 0 = _ :=
      countDiffs_of_one hn4 hcount hi hout hne 0 0
    rw [hone, if_pos ⟨rfl, hrange⟩]
  · -- a half, or the whole word of two bytes
    obtain ⟨hne, hrange⟩ := inArithRange_step_inOrder (Or.inr (Or.inl rfl)) swap16_eq hj hstep
    split
    · rfl
    rw [if_neg (by omega)]
    generalize countDiffs 8 n (x.setWidth 32) (y.setWidth 32) 0 0 = d
    have hone : countDiffs 16 (n / 2) (x.setWidth 32) (y.setWidth 32) d.ov d.nv = _ :=
      countDiffs_of_one hn4 hcount hi hout hne d.ov d.nv
    rw [hone, if_pos]
    refine ⟨rfl, ?_⟩
    rwa [BitVec.setWidth_setWidth_of_le _ (by decide), BitVec.setWidth_setWidth_of_le _ (by decide)]
  · -- the whole word of four bytes
    obtain rfl : n = 4 := by omega
    obtain rfl : i = 0 := by omega
    rw [subWord_self, subWord_self] at hstep
    obtain ⟨hne, hrange⟩ := inArithRange_step_inOrder (Or.inr (Or.inr rfl)) swap32_eq hj hstep
    split
    · rfl
    rw [if_neg (by decide)]
    split
    · rfl
    rw [decide_eq_true_eq]
    refine ⟨rfl, ?_⟩
    simpa only [BitVec.setWidth_eq] using hrange

/-- `could_be_arith` accepts exactly the equal words and the steps inside one aligned part. -/
theorem couldBeArith_iff (hn : n = 1 ∨ n = 2 ∨ n = 4) (x y : Word n) :
    couldBeArith (x.setWidth 32) (y.setWidth 32) n = true ↔
      x = y ∨ ∃ m i, (m = 1 ∨ m = 2 ∨ m = 4) ∧ Stepped x y m (m * i) := by
  constructor
  · exact couldBeArith_stepped hn
  · rintro (rfl | ⟨m, i, hm, h⟩)
    · rw [couldBeArith, if_pos rfl]
    · exact couldBeArith_of_stepped hn hm h

theorem couldBeArith_iff_carry : couldBeArith ((0x00ff : Word 2).setWidth 32)
    ((0x0100 : Word 2).setWidth 32) 2 = true ↔ (0x00ff : Word 2) = 0x0100 ∨
      ∃ m i, (m = 1 ∨ m = 2 ∨ m = 4) ∧ Stepped (0x00ff : Word 2) 0x0100 m (m * i) :=
  couldBeArith_iff (by decide) 0x00ff 0x0100

end Arith

/-! ## Interesting values -/

section Interest
variable {n m k : ℕ} {x y : Word n}

/-- A byte behind the end of a word is zero. -/
theorem byteOf_of_le {j : ℕ} (x : Word n) (hj : n ≤ j) : byteOf x j = 0 := by
  apply BitVec.eq_of_getLsbD_eq
  intro t ht
  rw [byteOf, BitVec.getLsbD_extractLsb', BitVec.getLsbD_of_ge _ _ (by omega)]
  simp

/-- The code inserts the value in 32 bits. -/
theorem insertVal_of_inserted {mask : Word 4} {v : Word m} (hn : n ≤ 4)
    (hmask : ∀ s, mask.getLsbD s = decide (s < 8 * m)) (h : Inserted x y m k v) :
    y.setWidth 32 = insertVal mask (x.setWidth 32) k (v.setWidth 32) := by
  obtain ⟨hle, hout, rfl⟩ := h
  apply eq_of_byteOf_eq (n := 4)
  intro j hj
  rw [byteOf_insertVal _ hmask (by
    intro s hs
    rw [BitVec.getLsbD_setWidth, BitVec.getLsbD_of_ge _ s hs, Bool.and_false]) hj,
    byteOf_setWidth y hj]
  split
  · next hin =>
    rw [byteOf_setWidth _ (by omega), byteOf_subWord _ (by omega), Nat.add_sub_cancel' hin.1]
  · next hin =>
    rw [byteOf_setWidth x hj]
    by_cases hjn : j < n
    · exact (hout j hjn (by omega)).symm
    · rw [byteOf_of_le x (Nat.not_lt.mp hjn), byteOf_of_le y (Nat.not_lt.mp hjn)]

/-- The first loop finds every byte that is inserted. -/
theorem couldBeInterest_of_byte {checkLe : Bool} {v : ℤ} (hn : n ≤ 4) (hv : v ∈ interesting8)
    (h : Inserted x y 1 k (u8 v)) :
    couldBeInterest (x.setWidth 32) (y.setWidth 32) n checkLe = true := by
  have hle := h.1
  rw [couldBeInterest]
  split
  · rfl
  rw [if_pos]
  rw [List.any_eq_true]
  refine ⟨k, List.mem_range.mpr (by omega), ?_⟩
  rw [List.any_eq_true]
  exact ⟨v, hv, decide_eq_true (insertVal_of_inserted hn mask8 h)⟩

/-- The second loop finds every pair of bytes that is inserted in an order that is asked for. -/
theorem couldBeInterest_of_half {checkLe : Bool} {v : ℤ} (hv : v ∈ interesting16)
    (h : n = 4 ∨ n = 2 ∧ checkLe = true)
    (hin : Inserted x y 2 k (u16 v) ∨ n = 4 ∧ Inserted x y 2 k (swap16 (u16 v))) :
    couldBeInterest (x.setWidth 32) (y.setWidth 32) n checkLe = true := by
  have hn4 : n ≤ 4 := by omega
  have hle : k + 2 ≤ n := by
    rcases hin with hin | ⟨-, hin⟩
    · exact hin.1
    · exact hin.1
  rw [couldBeInterest]
  split
  · rfl
  split
  · rfl
  split
  · next hskip =>
    obtain ⟨htwo, hbig⟩ := hskip
    rcases h with hfour | ⟨-, hlittle⟩
    · omega
    · rw [hlittle] at hbig
      exact absurd hbig (by decide)
  rw [if_pos]
  rw [List.any_eq_true]
  refine ⟨k, List.mem_range.mpr (by omega), ?_⟩
  rw [List.any_eq_true]
  refine ⟨v, hv, decide_eq_true ?_⟩
  rcases hin with hin | ⟨hfour, hin⟩
  · exact Or.inl (insertVal_of_inserted hn4 mask16 hin)
  · exact Or.inr ⟨by omega, insertVal_of_inserted hn4 mask16 hin⟩

/-- `could_be_interest` accepts exactly the equal words and the insertions of the widths and orders
that are asked for. -/
theorem couldBeInterest_iff (hn : n = 1 ∨ n = 2 ∨ n = 4) (x y : Word n) (checkLe : Bool) :
    couldBeInterest (x.setWidth 32) (y.setWidth 32) n checkLe = true ↔ x = y ∨
      (∃ k, ∃ v ∈ interesting8, Inserted x y 1 k (u8 v)) ∨
      ((n = 4 ∨ n = 2 ∧ checkLe = true) ∧
        ∃ k, ∃ v ∈ interesting16, Inserted x y 2 k (u16 v)) ∨
      (n = 4 ∧ ∃ k, ∃ v ∈ interesting16, Inserted x y 2 k (revWord (u16 v))) ∨
      (n = 4 ∧ checkLe = true ∧ ∃ v ∈ interesting32, y.setWidth 32 = u32 v) := by
  have hn4 : n ≤ 4 := by omega
  constructor
  · intro h
    rcases couldBeInterest_inserted hn h with heq | hbyte | ⟨htwo, k, v, hv, hin⟩ | hbig | hwhole
    · exact Or.inl heq
    · exact Or.inr (Or.inl hbyte)
    · refine Or.inr (Or.inr (Or.inl ⟨?_, k, v, hv, hin⟩))
      have hle := hin.1
      by_cases h2 : n = 2
      · exact Or.inr ⟨h2, htwo h2⟩
      · exact Or.inl (by omega)
    · obtain ⟨hfour, k, v, hv, hin⟩ := hbig
      rw [swap16_eq] at hin
      exact Or.inr (Or.inr (Or.inr (Or.inl ⟨hfour, k, v, hv, hin⟩)))
    · exact Or.inr (Or.inr (Or.inr (Or.inr hwhole)))
  · rintro (rfl | ⟨k, v, hv, hin⟩ | ⟨hasked, k, v, hv, hin⟩ | ⟨hfour, k, v, hv, hin⟩ | hwhole)
    · rw [couldBeInterest, if_pos rfl]
    · exact couldBeInterest_of_byte hn4 hv hin
    · exact couldBeInterest_of_half hv hasked (Or.inl hin)
    · rw [← swap16_eq] at hin
      exact couldBeInterest_of_half hv (Or.inl hfour) (Or.inr ⟨hfour, hin⟩)
    · obtain ⟨hfour, hlittle, v, hv, heq⟩ := hwhole
      rw [couldBeInterest]
      split
      · rfl
      split
      · rfl
      rw [if_neg (by omega)]
      split
      · rfl
      rw [decide_eq_true_eq, List.any_eq_true]
      exact ⟨hfour, hlittle, v, hv, decide_eq_true heq⟩

theorem couldBeInterest_iff_byte : couldBeInterest ((0x01020304 : Word 4).setWidth 32)
    ((0x0102037f : Word 4).setWidth 32) 4 false = true ↔ (0x01020304 : Word 4) = 0x0102037f ∨
      (∃ k, ∃ v ∈ interesting8, Inserted (0x01020304 : Word 4) 0x0102037f 1 k (u8 v)) ∨
      ((4 = 4 ∨ 4 = 2 ∧ false = true) ∧
        ∃ k, ∃ v ∈ interesting16, Inserted (0x01020304 : Word 4) 0x0102037f 2 k (u16 v)) ∨
      (4 = 4 ∧
        ∃ k, ∃ v ∈ interesting16, Inserted (0x01020304 : Word 4) 0x0102037f 2 k (revWord (u16 v))) ∨
      (4 = 4 ∧ false = true ∧
        ∃ v ∈ interesting32, (0x0102037f : Word 4).setWidth 32 = u32 v) :=
  couldBeInterest_iff (by decide) 0x01020304 0x0102037f false

end Interest

end AflPlusPlus.DeterministicStages
