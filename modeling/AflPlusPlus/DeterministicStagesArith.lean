import AflPlusPlus.DeterministicStagesFlips

/-!
# What `could_be_arith` accepts

The helper accepts a word that differs from the old one inside a byte, a half or the whole
word by a small step in one of the two byte orders. Such a step has been reached by the
arithmetics: a stage attempts the steps that leave the low half of its words, and the
others are steps of narrower words.
-/

namespace AflPlusPlus.DeterministicStages
open ByteWords ByteBuffers

/-! ## Swapped words -/

section Swap

theorem byteOf_toNat {w : ℕ} (x : BitVec w) (j : ℕ) :
    (byteOf x j).toNat = x.toNat / 2 ^ (8 * j) % 2 ^ 8 := by
  rw [byteOf, BitVec.extractLsb'_toNat, Nat.shiftRight_eq_div_pow]

theorem swap16_eq (x : Word 2) : swap16 x = revWord x := by
  refine eq_of_byteOf_eq fun j hj => BitVec.eq_of_getLsbD_eq fun t ht => ?_
  have hge : ∀ s, 16 ≤ s → BitVec.getLsbD x s = false := fun s hs => BitVec.getLsbD_of_ge x s hs
  rw [byteOf_revWord x hj]
  simp only [swap16, byteOf, BitVec.getLsbD_extractLsb', BitVec.getLsbD_or,
    BitVec.getLsbD_shiftLeft, BitVec.getLsbD_ushiftRight, ht, decide_true, Bool.true_and]
  obtain rfl | rfl : j = 0 ∨ j = 1 := by omega
  · simp [ht]
  · rw [hge (8 + (8 * 1 + t)) (by omega), decide_eq_true (by omega), decide_eq_false (by omega)]
    simp

theorem swap32_eq (x : Word 4) : swap32 x = revWord x := by
  refine eq_of_byteOf_eq fun j hj => BitVec.eq_of_getLsbD_eq fun t ht => ?_
  have hge : ∀ s, 32 ≤ s → BitVec.getLsbD x s = false := fun s hs => BitVec.getLsbD_of_ge x s hs
  have hhigh : ∀ s < 32, (0x00FF0000#32).getLsbD s = decide (16 ≤ s ∧ s < 24) := by decide
  have hlow : ∀ s < 32, (0x0000FF00#32).getLsbD s = decide (8 ≤ s ∧ s < 16) := by decide
  rw [byteOf_revWord x hj]
  simp only [swap32, byteOf, BitVec.getLsbD_extractLsb', BitVec.getLsbD_or, BitVec.getLsbD_and,
    BitVec.getLsbD_shiftLeft, BitVec.getLsbD_ushiftRight, ht, decide_true, Bool.true_and,
    hhigh _ (show 8 * j + t < 32 by omega), hlow _ (show 8 * j + t < 32 by omega)]
  have hsub : 8 * j + t - 24 = 8 * (4 - 1 - j) + t ∨ j < 3 := by omega
  obtain rfl | rfl | rfl | rfl : j = 0 ∨ j = 1 ∨ j = 2 ∨ j = 3 := by omega
  · have h1 : t < 24 := by omega
    have h2 : ¬8 ≤ t := by omega
    simp [h1, h2]
  · rw [hge (24 + (8 * 1 + t)) (by omega)]
    have h1 : 8 + t < 24 := by omega
    have h2 : 8 + t < 16 := by omega
    have h3 : 8 + (8 + t) = 16 + t := by omega
    have h4 : ¬16 ≤ 8 + t := by omega
    simp [h1, h2, h3, h4]
  · rw [hge (24 + (8 * 2 + t)) (by omega)]
    have h1 : 16 + t < 24 := by omega
    have h2 : 16 + t < 32 := by omega
    have h3 : 16 + t - 8 = 8 + t := by omega
    have h4 : ¬16 + t < 16 := by omega
    have h5 : ¬16 + t < 8 := by omega
    simp [h1, h2, h3, h4, h5]
  · rw [hge (24 + (8 * 3 + t)) (by omega)]
    have h1 : ¬24 + t < 24 := by omega
    have h2 : 24 + t < 32 := by omega
    have h3 : ¬24 + t < 16 := by omega
    simp [h1, h2, h3]

end Swap

section Arith

variable {buf : Buffer} {skipEffMap : ℕ → Bool} (heff : ∀ i < buf.length, skipEffMap i = true)
  {n m i j : ℕ}

include heff

/-- What a stage of arithmetics on words of `n` bytes reaches, when a step that leaves the
low half is attempted and the steps of words of half the size have been reached. -/
theorem reached_wide {sts : List Stage} {st : Stage} {attempts : Word n → List (Attempt n)}
    (hst : st.events buf skipEffMap = wordEvents buf skipEffMap attempts) (hmem : st ∈ sts)
    (hflips : flips ⊆ sts) (hm : m = 1 ∨ m = 2) (hn : n = 2 * m) {be plus : Bool}
    (hattempt : ∀ orig : Word n, Carries plus m ((inOrder be orig).toNat % 2 ^ (8 * m)) j →
      ∃ valType, ⟨valType, inOrder be (stepBy plus (inOrder be orig) j), couldBeBitflip
        ((orig ^^^ inOrder be (stepBy plus (inOrder be orig) j)).setWidth 32)⟩ ∈ attempts orig)
    (hnarrow : ∀ i, i + m ≤ buf.length → Reached buf skipEffMap sts
      (storeAt m buf i (inOrder be (stepBy plus (inOrder be (loadAt m buf i)) j))))
    (hi : i + n ≤ buf.length) : Reached buf skipEffMap sts
      (storeAt n buf i (inOrder be (stepBy plus (inOrder be (loadAt n buf i)) j))) := by
  by_cases hcarry : Carries plus m ((inOrder be (loadAt n buf i)).toNat % 2 ^ (8 * m)) j
  · obtain ⟨valType, ha⟩ := hattempt (loadAt n buf i) hcarry
    exact reached_of_attempt heff hst hmem (by omega) hi ha fun hskip =>
      (reached_of_couldBeBitflip heff (by omega) hi hskip).mono hflips
  · obtain ⟨hlow, hhigh⟩ := stepBy_inOrder_narrow hm hn hcarry
    have hle : (if be then m else 0) + m ≤ n := by split <;> omega
    rw [storeAt_subWord hle, hlow, subWord_loadAt hle]
    · exact hnarrow _ (by omega)
    · intro k hk hout
      have hbyte := congrArg (byteOf · (k - if be then 0 else m)) hhigh
      have hk' : (if be then 0 else m) + (k - if be then 0 else m) = k := by
        cases be with
        | false =>
          simp only [Bool.false_eq_true, if_false] at hout ⊢
          omega
        | true => simp
      have hkm : k - (if be then 0 else m) < m := by
        cases be <;> simp only [Bool.false_eq_true, if_false, if_true] at hout ⊢ <;> omega
      simp only [byteOf_subWord _ hkm, hk'] at hbyte
      exact hbyte.symm

def ariths : List Stage := flips ++ [.arith8, .arith16, .arith32]

variable (be plus : Bool) (hj : 1 ≤ j ∧ j ≤ arithMax)

include hj

theorem reached_arith8 (hi : i + 1 ≤ buf.length) : Reached buf skipEffMap ariths
    (storeAt 1 buf i (inOrder be (stepBy plus (inOrder be (loadAt 1 buf i)) j))) := by
  have hrev : ∀ x : Word 1, inOrder be x = x := by
    intro x
    refine eq_of_byteOf_eq fun k hk => ?_
    obtain rfl : k = 0 := by omega
    cases be <;> simp [inOrder]
  have ha : ⟨.le, stepBy plus (loadAt 1 buf i) j, couldBeBitflip
      ((loadAt 1 buf i ^^^ stepBy plus (loadAt 1 buf i) j).setWidth 32)⟩ ∈
      (List.range' 1 arithMax).flatMap (arith8Attempts (loadAt 1 buf i)) := by
    refine List.mem_flatMap.mpr ⟨j, List.mem_range'_1.mpr (by omega), ?_⟩
    cases plus <;> simp [arith8Attempts, stepBy]
  have hst : Stage.arith8 ∈ ariths := by simp [ariths]
  have hevents : Stage.arith8.events buf skipEffMap = wordEvents buf skipEffMap fun orig =>
    (List.range' 1 arithMax).flatMap (arith8Attempts orig) := rfl
  rw [hrev, hrev]
  refine reached_of_attempt heff hevents hst (by decide) hi ha fun hskip => ?_
  exact (reached_of_couldBeBitflip heff (by decide) hi hskip).mono (List.subset_append_left _ _)

omit heff in
theorem mem_arith16Attempts (orig : Word 2)
    (hcarry : Carries plus 1 ((inOrder be orig).toNat % 2 ^ (8 * 1)) j) :
    ∃ valType, ⟨valType, inOrder be (stepBy plus (inOrder be orig) j), couldBeBitflip
      ((orig ^^^ inOrder be (stepBy plus (inOrder be orig) j)).setWidth 32)⟩ ∈
        (List.range' 1 arithMax).flatMap (arith16Attempts orig) := by
  have hmem : j ∈ List.range' 1 arithMax := List.mem_range'_1.mpr (by omega)
  have hlow : (orig &&& 0xff#16).toNat = orig.toNat % 2 ^ 8 := by
    rw [BitVec.toNat_and]
    exact Nat.and_two_pow_sub_one_eq_mod _ 8
  have hhigh : (orig >>> 8).toNat = (revWord orig).toNat % 2 ^ 8 := by
    have hbyte := congrArg BitVec.toNat (byteOf_revWord (j := 0) orig (by decide))
    have hlt := orig.isLt
    simp only [byteOf_toNat] at hbyte
    rw [BitVec.toNat_ushiftRight, Nat.shiftRight_eq_div_pow]
    omega
  refine ⟨if be then .be else .le, List.mem_flatMap.mpr ⟨j, hmem, ?_⟩⟩
  cases be <;> cases plus <;>
    simp_all [arith16Attempts, Carries, stepBy, inOrder, swap16_eq]

omit heff in
theorem mem_arith32Attempts (orig : Word 4)
    (hcarry : Carries plus 2 ((inOrder be orig).toNat % 2 ^ (8 * 2)) j) :
    ∃ valType, ⟨valType, inOrder be (stepBy plus (inOrder be orig) j), couldBeBitflip
      ((orig ^^^ inOrder be (stepBy plus (inOrder be orig) j)).setWidth 32)⟩ ∈
        (List.range' 1 arithMax).flatMap (arith32Attempts orig) := by
  have hmem : j ∈ List.range' 1 arithMax := List.mem_range'_1.mpr (by omega)
  have hlow : ∀ x : Word 4, (x &&& 0xffff#32).toNat = x.toNat % 2 ^ 16 := by
    intro x
    rw [BitVec.toNat_and]
    exact Nat.and_two_pow_sub_one_eq_mod _ 16
  refine ⟨if be then .be else .le, List.mem_flatMap.mpr ⟨j, hmem, ?_⟩⟩
  cases be <;> cases plus <;>
    simp_all [arith32Attempts, Carries, stepBy, inOrder, swap32_eq]

theorem reached_arith16 (hi : i + 2 ≤ buf.length) : Reached buf skipEffMap ariths
    (storeAt 2 buf i (inOrder be (stepBy plus (inOrder be (loadAt 2 buf i)) j))) :=
  reached_wide heff rfl (show Stage.arith16 ∈ ariths by simp [ariths])
    (List.subset_append_left _ _) (.inl rfl) rfl (mem_arith16Attempts be plus hj)
    (fun _ hi => reached_arith8 heff be plus hj hi) hi

theorem reached_arith32 (hi : i + 4 ≤ buf.length) : Reached buf skipEffMap ariths
    (storeAt 4 buf i (inOrder be (stepBy plus (inOrder be (loadAt 4 buf i)) j))) :=
  reached_wide heff rfl (show Stage.arith32 ∈ ariths by simp [ariths])
    (List.subset_append_left _ _) (.inr rfl) rfl (mem_arith32Attempts be plus hj)
    (fun _ hi => reached_arith16 heff be plus hj hi) hi

end Arith
/-! ## What `could_be_arith` accepts -/

section CouldBeArith

theorem foldl_diffs {abs : List (Word 4 × Word 4)} {d d' : Diffs}
    (h : abs.foldl Diffs.step d = d') :
    d.diffs ≤ d'.diffs ∧ (d'.diffs = d.diffs → d' = d ∧ ∀ ab ∈ abs, ab.1 = ab.2) := by
  induction abs generalizing d with
  | nil =>
    subst h
    simp
  | cons ab abs ih =>
    rw [List.foldl_cons, Diffs.step] at h
    split at h
    · obtain ⟨hle, -⟩ := ih h
      have hle : d.diffs + 1 ≤ d'.diffs := hle
      exact ⟨by omega, fun heq => by omega⟩
    · next heq =>
      obtain ⟨hle, hall⟩ := ih h
      refine ⟨hle, fun hd => ?_⟩
      obtain ⟨hd', habs⟩ := hall hd
      exact ⟨hd', List.forall_mem_cons.mpr ⟨not_not.mp heq, habs⟩⟩

/-- When the loop counts one difference, `ov` and `nv` are the parts that differ. -/
theorem foldl_diffs_one {abs : List (Word 4 × Word 4)} {d d' : Diffs} (hd : d.diffs = 0)
    (h : abs.foldl Diffs.step d = d') (hone : d'.diffs = 1) : ∃ k, ∃ hk : k < abs.length,
      abs[k] = (d'.ov, d'.nv) ∧ d'.ov ≠ d'.nv ∧
      ∀ k', ∀ hk' : k' < abs.length, k' ≠ k → abs[k'].1 = abs[k'].2 := by
  induction abs generalizing d with
  | nil =>
    subst h
    simp [hd] at hone
  | cons ab abs ih =>
    rw [List.foldl_cons, Diffs.step] at h
    split at h
    · next hne =>
      obtain ⟨rfl, hall⟩ := (foldl_diffs h).2 (by simp [hone, hd])
      refine ⟨0, by simp, rfl, hne, fun k' hk' hne' => ?_⟩
      obtain ⟨k', rfl⟩ := Nat.exists_eq_succ_of_ne_zero hne'
      exact hall _ (List.getElem_mem (by simpa using hk'))
    · next heq =>
      obtain ⟨k, hk, hget, hne, hall⟩ := ih hd h
      refine ⟨k + 1, by simpa using hk, hget, hne, fun k' hk' hne' => ?_⟩
      cases k' with
      | zero => exact not_not.mp heq
      | succ k' => exact hall k' (by simpa using hk') (by omega)

variable {n m : ℕ} {x y : Word n}

/-- A part of the zero-extended word is a word inside it. -/
theorem part_eq_subWord (k : ℕ) (hn : n ≤ 4) :
    part (8 * m) (x.setWidth 32) k = subWord m x (m * k) := by
  have hmul : 8 * m * k = 8 * (m * k) := Nat.mul_assoc _ _ _
  have hlt := Nat.lt_of_lt_of_le x.isLt
    (Nat.pow_le_pow_right (by decide) (by omega) : 2 ^ (8 * n) ≤ 2 ^ 32)
  refine BitVec.eq_of_toNat_eq ?_
  rw [part, subWord_toNat, BitVec.toNat_setWidth, BitVec.toNat_ushiftRight, BitVec.toNat_setWidth,
    Nat.mod_eq_of_lt hlt, Nat.shiftRight_eq_div_pow, hmul]

/-- A difference is taken in 32 bits and cut. -/
theorem setWidth_sub_setWidth {w : ℕ} (hw : w = 8 ∨ w = 16 ∨ w = 32) (u v : BitVec w) :
    (u.setWidth 32 - v.setWidth 32).setWidth w = u - v := by
  have hu := u.isLt
  have hv := v.isLt
  refine BitVec.eq_of_toNat_eq ?_
  rcases hw with rfl | rfl | rfl <;> simp at hu hv ⊢ <;> omega

theorem stepBy_of_inArithRange {w : ℕ} (hw : w = 8 ∨ w = 16 ∨ w = 32) {a b : BitVec w}
    (hne : a ≠ b) (h : inArithRange w (a.setWidth 32) (b.setWidth 32) = true) :
    ∃ plus j, (1 ≤ j ∧ j ≤ arithMax) ∧ b = stepBy plus a j := by
  have hback : ∀ u v : BitVec w, u - (u - v) = v ∧ u + (v - u) = v := by
    intro u v
    rcases hw with rfl | rfl | rfl <;> constructor <;> bv_omega
  have hpos : ∀ u v : BitVec w, u ≠ v → 1 ≤ (u - v).toNat := by
    intro u v huv
    rcases hw with rfl | rfl | rfl <;> bv_omega
  simp only [inArithRange, setWidth_sub_setWidth hw, decide_eq_true_eq] at h
  rcases h with h | h
  · refine ⟨false, (a - b).toNat, ⟨hpos a b hne, h⟩, ?_⟩
    rw [stepBy, if_neg Bool.false_ne_true, BitVec.ofNat_toNat, BitVec.setWidth_eq, (hback a b).1]
  · refine ⟨true, (b - a).toNat, ⟨hpos b a hne.symm, h⟩, ?_⟩
    rw [stepBy, if_pos rfl, BitVec.ofNat_toNat, BitVec.setWidth_eq, (hback a b).2]

/-- The words differ inside a word of `m` bytes from byte `k` on, by a step in one of the
byte orders. -/
def Stepped (x y : Word n) (m k : ℕ) : Prop :=
  k + m ≤ n ∧ (∀ j < n, j < k ∨ k + m ≤ j → byteOf x j = byteOf y j) ∧
    ∃ be plus j, (1 ≤ j ∧ j ≤ arithMax) ∧
      subWord m y k = inOrder be (stepBy plus (inOrder be (subWord m x k)) j)

theorem countDiffs_eq (count : ℕ) (ov nv : Word 4) (hn : n ≤ 4) :
    countDiffs (8 * m) count (x.setWidth 32) (y.setWidth 32) ov nv =
      ((List.range count).map fun i => ((subWord m x (m * i)).setWidth 32,
        (subWord m y (m * i)).setWidth 32)).foldl Diffs.step ⟨0, ov, nv⟩ := by
  simp only [countDiffs, part_eq_subWord _ hn]

/-- A count of one difference is a difference inside one part. -/
theorem countDiffs_one {count : ℕ} (hn : n ≤ 4) (hm : 0 < m) (hcount : m * count = n)
    {ov nv : Word 4} {d : Diffs}
    (hd : countDiffs (8 * m) count (x.setWidth 32) (y.setWidth 32) ov nv = d) (hone : d.diffs = 1) :
    ∃ k, m * k + m ≤ n ∧ (∀ j < n, j < m * k ∨ m * k + m ≤ j → byteOf x j = byteOf y j) ∧
      subWord m x (m * k) ≠ subWord m y (m * k) ∧
      d.ov = (subWord m x (m * k)).setWidth 32 ∧ d.nv = (subWord m y (m * k)).setWidth 32 := by
  rw [countDiffs_eq _ _ _ hn] at hd
  obtain ⟨k, hk, hget, hne, hall⟩ := foldl_diffs_one rfl hd hone
  simp only [List.getElem_map, List.getElem_range, List.length_map, List.length_range]
    at hk hget hall
  obtain ⟨hov, hnv⟩ := Prod.mk.inj hget
  have hle : ∀ k < count, m * k + m ≤ n := by
    intro k hk
    rw [← hcount, ← Nat.mul_succ]
    exact Nat.mul_le_mul_left m hk
  have h32 : 8 * m ≤ 32 := by
    have := hle k hk
    omega
  refine ⟨k, hle k hk, fun j hj hout => ?_, fun heq => ?_, hov.symm, hnv.symm⟩
  · have hlt : j / m < count := Nat.div_lt_of_lt_mul (by omega)
    have hne' : j / m ≠ k := by
      rintro rfl
      have h₁ := Nat.div_mul_le_self j m
      have h₂ := Nat.lt_mul_div_succ j hm
      rw [Nat.mul_comm] at h₁
      rw [Nat.mul_succ] at h₂
      omega
    have hbyte := congrArg (byteOf · (j % m)) (setWidth_inj h32 (hall (j / m) hlt hne'))
    simpa [Nat.mod_lt j hm, Nat.div_add_mod] using hbyte
  · rw [← hov, ← hnv, heq] at hne
    exact hne rfl

theorem step_inOrder (hm : 8 * m = 8 ∨ 8 * m = 16 ∨ 8 * m = 32) {a b : Word m} (hne : a ≠ b)
    {swap : Word m → Word m} (hswap : ∀ u, swap u = revWord u)
    (h : inArithRange (8 * m) (a.setWidth 32) (b.setWidth 32) = true ∨
      inArithRange (8 * m) ((swap a).setWidth 32) ((swap b).setWidth 32) = true) :
    ∃ be plus j, (1 ≤ j ∧ j ≤ arithMax) ∧ b = inOrder be (stepBy plus (inOrder be a) j) := by
  rcases h with h | h
  · obtain ⟨plus, j, hj, hstep⟩ := stepBy_of_inArithRange hm hne h
    exact ⟨false, plus, j, hj, hstep⟩
  · rw [hswap, hswap] at h
    have hne' : revWord a ≠ revWord b := by
      intro heq
      rw [← revWord_revWord a, heq, revWord_revWord] at hne
      exact hne rfl
    obtain ⟨plus, j, hj, hstep⟩ := stepBy_of_inArithRange hm hne' h
    refine ⟨true, plus, j, hj, ?_⟩
    rw [inOrder, if_pos rfl, inOrder, if_pos rfl, ← hstep, revWord_revWord]

/-- The words that `could_be_arith` accepts are equal or differ by a step of an aligned part. -/
theorem couldBeArith_stepped (hn : n = 1 ∨ n = 2 ∨ n = 4)
    (h : couldBeArith (x.setWidth 32) (y.setWidth 32) n = true) :
    x = y ∨ ∃ m i, (m = 1 ∨ m = 2 ∨ m = 4) ∧ Stepped x y m (m * i) := by
  have hn4 : n ≤ 4 := by omega
  by_cases hxy : x = y
  · exact .inl hxy
  refine .inr ?_
  have hne : x.setWidth 32 ≠ y.setWidth 32 := fun heq => hxy (setWidth_inj (by omega) heq)
  simp only [couldBeArith, hne, if_false] at h
  generalize hd : countDiffs 8 n (x.setWidth 32) (y.setWidth 32) 0 0 = d at h
  split at h
  · next hone =>
    obtain ⟨k, hle, hout, hdiff, hov, hnv⟩ := countDiffs_one (m := 1) hn4 (by decide)
      (Nat.one_mul n) hd hone.1
    rw [hov, hnv] at hone
    obtain ⟨plus, j, hj, hstep⟩ := stepBy_of_inArithRange (.inl rfl) hdiff hone.2
    exact ⟨1, k, .inl rfl, hle, hout, false, plus, j, hj, hstep⟩
  split at h
  · simp at h
  next hn1 =>
  generalize hd' : countDiffs 16 (n / 2) (x.setWidth 32) (y.setWidth 32) d.ov d.nv = d' at h
  split at h
  · next hone =>
    obtain ⟨k, hle, hout, hdiff, hov, hnv⟩ := countDiffs_one (m := 2) hn4 (by decide)
      (by omega) hd' hone.1
    rw [hov, hnv, BitVec.setWidth_setWidth_of_le _ (by decide),
      BitVec.setWidth_setWidth_of_le _ (by decide)] at hone
    obtain ⟨be, plus, j, hj, hstep⟩ := step_inOrder (.inr (.inl rfl)) hdiff swap16_eq hone.2
    exact ⟨2, k, .inr (.inl rfl), hle, hout, be, plus, j, hj, hstep⟩
  · simp only [decide_eq_true_eq] at h
    obtain ⟨rfl, h⟩ := h
    obtain ⟨be, plus, j, hj, hstep⟩ := step_inOrder (.inr (.inr rfl)) hxy swap32_eq
      (by simpa only [BitVec.setWidth_eq] using h)
    refine ⟨4, 0, .inr (.inr rfl), by decide, fun j hj hout => by omega, be, plus, j, hj, ?_⟩
    rw [subWord_self, subWord_self]
    exact hstep

/-- What a stage skips because of `could_be_arith` has been reached. -/
theorem reached_of_couldBeArith {buf : Buffer} {skipEffMap : ℕ → Bool}
    (heff : ∀ i < buf.length, skipEffMap i = true) {i : ℕ} (hn : n = 1 ∨ n = 2 ∨ n = 4)
    (hi : i + n ≤ buf.length)
    (h : couldBeArith ((loadAt n buf i).setWidth 32) (y.setWidth 32) n = true) :
    Reached buf skipEffMap ariths (storeAt n buf i y) := by
  rcases couldBeArith_stepped hn h with heq | ⟨m, k, hm, hle, hout, be, plus, j, hj, hstep⟩
  · rw [← heq, storeAt_loadAt]
    exact .inl rfl
  · rw [storeAt_subWord hle hout, hstep, subWord_loadAt hle]
    rcases hm with rfl | rfl | rfl
    · exact reached_arith8 heff be plus hj (by omega)
    · exact reached_arith16 heff be plus hj (by omega)
    · exact reached_arith32 heff be plus hj (by omega)

end CouldBeArith

end AflPlusPlus.DeterministicStages
