import AflPlusPlus.DeterministicStagesArith

/-!
# Skipped attempts of the deterministic stages

What a stage skips has been executed before, with two exceptions. A big-endian insertion is
skipped when the stage itself makes it as a little-endian insertion at the same offset,
before or after. A change by a run of bits that crosses from the top of a byte to the lowest
bits of the next one is skipped although no stage makes it.
-/

namespace AflPlusPlus.DeterministicStages
open ByteWords ByteBuffers

/-! ## What `could_be_interest` accepts -/

section CouldBeInterest

variable {n m k : ℕ} {x y : Word n}

theorem byteOf_insertVal {mask val : Word 4} (oldVal : Word 4)
    (hmask : ∀ s, mask.getLsbD s = decide (s < 8 * m))
    (hval : ∀ s, 8 * m ≤ s → val.getLsbD s = false) {j : ℕ} (hj : j < 4) :
    byteOf (insertVal mask oldVal k val) j =
      if k ≤ j ∧ j < k + m then byteOf val (j - k) else byteOf oldVal j := by
  refine BitVec.eq_of_getLsbD_eq fun t ht => ?_
  have hlt : 8 * j + t < 8 * 4 := by omega
  simp only [insertVal, byteOf, BitVec.getLsbD_extractLsb', BitVec.getLsbD_or, BitVec.getLsbD_and,
    BitVec.getLsbD_not, BitVec.getLsbD_shiftLeft, hmask, ht, hlt, decide_true, Bool.true_and]
  split
  · next h =>
    have h₁ : ¬8 * j + t < k * 8 := by omega
    have h₂ : 8 * j + t - k * 8 < 8 * m := by omega
    have h₃ : 8 * j + t - k * 8 = 8 * (j - k) + t := by omega
    simp only [h₁, h₂, decide_true, decide_false]
    simp [h₃, ht]
  · next h =>
    by_cases hk : 8 * j + t < k * 8
    · simp [hk, ht]
    · have h₂ : ¬8 * j + t - k * 8 < 8 * m := by omega
      simp [hk, h₂, ht, hval _ (Nat.le_of_not_lt h₂)]

theorem byteOf_setWidth (x : Word n) {j : ℕ} (hj : j < 4) :
    byteOf (x.setWidth 32 : Word 4) j = byteOf x j := by
  refine BitVec.eq_of_getLsbD_eq fun t ht => ?_
  have hlt : 8 * j + t < 32 := by omega
  simp [byteOf, ht, hlt]

/-- The second word is the first one with `v` in place of its bytes from the `k`-th on. -/
def Inserted (x y : Word n) (m k : ℕ) (v : Word m) : Prop :=
  k + m ≤ n ∧ (∀ j < n, j < k ∨ k + m ≤ j → byteOf x j = byteOf y j) ∧ subWord m y k = v

theorem inserted_of_insertVal {mask : Word 4} {v : Word m} (hn : n ≤ 4) (hle : k + m ≤ n)
    (hmask : ∀ s, mask.getLsbD s = decide (s < 8 * m))
    (h : y.setWidth 32 = insertVal mask (x.setWidth 32) k (v.setWidth 32)) :
    Inserted x y m k v := by
  have hval : ∀ s, 8 * m ≤ s → (v.setWidth 32 : Word 4).getLsbD s = false := by
    intro s hs
    simp [BitVec.getLsbD_of_ge v s hs]
  have hbyte : ∀ j < n, byteOf y j =
      if k ≤ j ∧ j < k + m then byteOf v (j - k) else byteOf x j := by
    intro j hj
    rw [← byteOf_setWidth y (by omega), ← byteOf_setWidth x (by omega), h,
      byteOf_insertVal _ hmask hval (by omega)]
    split
    · rw [byteOf_setWidth v (by omega)]
    · rfl
  refine ⟨hle, fun j hj hout => ?_, eq_of_byteOf_eq fun j hj => ?_⟩
  · rw [hbyte j hj, if_neg (by omega)]
  · rw [byteOf_subWord _ hj, hbyte _ (by omega), if_pos (by omega), Nat.add_sub_cancel_left]

theorem mask8 (s : ℕ) : (0xff : Word 4).getLsbD s = decide (s < 8 * 1) := by
  rw [getLsbD_run (show (0xff : Word 4).toNat = (2 ^ 8 - 1) * 2 ^ 0 from rfl)]
  simp

theorem mask16 (s : ℕ) : (0xffff : Word 4).getLsbD s = decide (s < 8 * 2) := by
  rw [getLsbD_run (show (0xffff : Word 4).toNat = (2 ^ 16 - 1) * 2 ^ 0 from rfl)]
  simp

/-- The words that `could_be_interest` accepts. -/
theorem couldBeInterest_inserted (hn : n = 1 ∨ n = 2 ∨ n = 4) {checkLe : Bool}
    (h : couldBeInterest (x.setWidth 32) (y.setWidth 32) n checkLe = true) : x = y ∨
      (∃ k, ∃ v ∈ interesting8, Inserted x y 1 k (u8 v)) ∨
      ((n = 2 → checkLe = true) ∧
        ∃ k, ∃ v ∈ interesting16, Inserted x y 2 k (u16 v)) ∨
      (n = 4 ∧ ∃ k, ∃ v ∈ interesting16, Inserted x y 2 k (swap16 (u16 v))) ∨
      (n = 4 ∧ checkLe = true ∧ ∃ v ∈ interesting32, y.setWidth 32 = u32 v) := by
  have hn4 : n ≤ 4 := by omega
  rw [couldBeInterest] at h
  split at h
  · next heq => exact .inl (setWidth_inj (by omega) heq)
  split at h
  · next hany =>
    obtain ⟨k, hk, hany⟩ := List.any_eq_true.mp hany
    obtain ⟨v, hv, heq⟩ := List.any_eq_true.mp hany
    exact .inr (.inl ⟨k, v, hv, inserted_of_insertVal hn4
      (by have := List.mem_range.mp hk; omega) mask8 (of_decide_eq_true heq)⟩)
  split at h
  · simp at h
  next hle =>
  split at h
  · next hany =>
    obtain ⟨k, hk, hany⟩ := List.any_eq_true.mp hany
    obtain ⟨v, hv, heq⟩ := List.any_eq_true.mp hany
    have hk' : k + 2 ≤ n := by
      have := List.mem_range.mp hk
      omega
    rcases of_decide_eq_true heq with heq | ⟨hgt, heq⟩
    · exact .inr (.inr (.inl ⟨fun h2 => by simpa [h2] using hle, k, v, hv,
        inserted_of_insertVal hn4 hk' mask16 heq⟩))
    · exact .inr (.inr (.inr (.inl ⟨by omega, k, v, hv,
        inserted_of_insertVal hn4 hk' mask16 heq⟩)))
  · simp only [decide_eq_true_eq] at h
    obtain ⟨h4, hcheck, hany⟩ := h
    obtain ⟨v, hv, heq⟩ := List.any_eq_true.mp hany
    exact .inr (.inr (.inr (.inr ⟨h4, hcheck, v, hv, of_decide_eq_true heq⟩)))

end CouldBeInterest
/-! ## What the insertions reach -/

section Interest

variable {buf : Buffer} {skipEffMap : ℕ → Bool} (heff : ∀ i < buf.length, skipEffMap i = true)
  {n m i k : ℕ}

theorem storeAt_inserted {y : Word n} {v : Word m} (h : Inserted (loadAt n buf i) y m k v) :
    storeAt n buf i y = storeAt m buf (i + k) v := by
  rw [storeAt_subWord h.1 h.2.1, h.2.2]

include heff

theorem interest8_skipped {v : ℤ} (hi : i + 1 ≤ buf.length)
    (h : (interest8Attempt (loadAt 1 buf i) v).skipped = true) :
    Reached buf skipEffMap ariths (storeAt 1 buf i (u8 v)) := by
  rcases Bool.or_eq_true_iff.mp h with h | h
  · exact (reached_of_couldBeBitflip heff (by decide) hi h).mono (List.subset_append_left _ _)
  · exact reached_of_couldBeArith heff (.inl rfl) hi h

theorem reached_interest8 {v : ℤ} (hv : v ∈ interesting8) (hi : i + 1 ≤ buf.length) :
    Reached buf skipEffMap (ariths ++ [.interest8]) (storeAt 1 buf i (u8 v)) := by
  have hevents : Stage.interest8.events buf skipEffMap = wordEvents buf skipEffMap fun orig =>
    interesting8.map (interest8Attempt orig) := rfl
  have ha : interest8Attempt (loadAt 1 buf i) v ∈
      interesting8.map (interest8Attempt (loadAt 1 buf i)) := List.mem_map_of_mem hv
  refine reached_of_attempt heff hevents (by simp) (by decide) hi ha fun hskip => ?_
  exact (interest8_skipped heff hi hskip).mono (List.subset_append_left _ _)

/-- The buffer was reached before the stage, or the stage inserts it at the same offset in
the byte order of the machine. -/
def ReachedLe (buf : Buffer) (skipEffMap : ℕ → Bool) (sts : List Stage) (st : Stage) (i : ℕ)
    (b : Buffer) : Prop :=
  Reached buf skipEffMap sts b ∨ .exec i .le b ∈ st.events buf skipEffMap

omit heff in
theorem ReachedLe.reached {sts : List Stage} {st : Stage} {b : Buffer}
    (h : ReachedLe buf skipEffMap sts st i b) : Reached buf skipEffMap (sts ++ [st]) b := by
  rcases h with h | h
  · exact h.mono (List.subset_append_left _ _)
  · exact .inr (.inr ⟨st, by simp, i, _, h⟩)

/-- The condition under which the stages for wider words skip a value. -/
def interestSkips (orig y : Word n) (checkLe : Bool) : Bool :=
  couldBeBitflip ((orig ^^^ y).setWidth 32) ||
    couldBeArith (orig.setWidth 32) (y.setWidth 32) n ||
    couldBeInterest (orig.setWidth 32) (y.setWidth 32) n checkLe

/-- A skipped value has been reached by an insertion of one byte or before, or it is an
insertion of a wider value. -/
theorem reached_of_interestSkips (hn : n = 2 ∨ n = 4) {y : Word n} {checkLe : Bool}
    (hi : i + n ≤ buf.length) (h : interestSkips (loadAt n buf i) y checkLe = true) :
    Reached buf skipEffMap (ariths ++ [.interest8]) (storeAt n buf i y) ∨
      ((n = 2 → checkLe = true) ∧
        ∃ k, ∃ v ∈ interesting16, Inserted (loadAt n buf i) y 2 k (u16 v)) ∨
      (n = 4 ∧ ∃ k, ∃ v ∈ interesting16, Inserted (loadAt n buf i) y 2 k (swap16 (u16 v))) ∨
      (n = 4 ∧ checkLe = true ∧ ∃ v ∈ interesting32, y.setWidth 32 = u32 v) := by
  simp only [interestSkips, Bool.or_eq_true] at h
  rcases h with (h | h) | h
  · exact .inl ((reached_of_couldBeBitflip heff (by omega) hi h).mono (by simp [ariths]))
  · exact .inl ((reached_of_couldBeArith heff (by omega) hi h).mono (List.subset_append_left _ _))
  · rcases couldBeInterest_inserted (.inr hn) h with heq | ⟨k, v, hv, hins⟩ | h
    · rw [← heq, storeAt_loadAt]
      exact .inl (.inl rfl)
    · have := hins.1
      rw [storeAt_inserted hins]
      exact .inl (reached_interest8 heff hv (by omega))
    · exact .inr h

omit heff in
theorem interest16Attempts_eq (orig : Word 2) (v : ℤ) : interest16Attempts orig v =
    ⟨.le, u16 v, interestSkips orig (u16 v) false⟩ ::
      if u16 v ≠ swap16 (u16 v) then
        [⟨.be, swap16 (u16 v), interestSkips orig (swap16 (u16 v)) true⟩] else [] := rfl

omit heff in
theorem interest32Attempts_eq (orig : Word 4) (v : ℤ) : interest32Attempts orig v =
    ⟨.le, u32 v, interestSkips orig (u32 v) false⟩ ::
      if u32 v ≠ swap32 (u32 v) then
        [⟨.be, swap32 (u32 v), interestSkips orig (swap32 (u32 v)) true⟩] else [] := by
  simp only [interest32Attempts, interestSkips, BitVec.setWidth_eq]

theorem interest16_skipped_le {v : ℤ} (hi : i + 2 ≤ buf.length)
    (h : interestSkips (loadAt 2 buf i) (u16 v) false = true) :
    Reached buf skipEffMap (ariths ++ [.interest8]) (storeAt 2 buf i (u16 v)) := by
  rcases reached_of_interestSkips heff (.inl rfl) hi h with h | ⟨hle, -⟩ | ⟨h4, -⟩ | ⟨h4, -⟩
  · exact h
  · simp at hle
  · omega
  · omega

theorem reached_interest16_le {v : ℤ} (hv : v ∈ interesting16) (hi : i + 2 ≤ buf.length) :
    ReachedLe buf skipEffMap (ariths ++ [.interest8]) .interest16 i (storeAt 2 buf i (u16 v)) := by
  have ha : ⟨.le, u16 v, interestSkips (loadAt 2 buf i) (u16 v) false⟩ ∈
      interesting16.flatMap (interest16Attempts (loadAt 2 buf i)) :=
    List.mem_flatMap.mpr ⟨v, hv, List.mem_cons_self⟩
  cases hskip : interestSkips (loadAt 2 buf i) (u16 v) false with
  | true => exact .inl (interest16_skipped_le heff hi hskip)
  | false =>
    rw [hskip] at ha
    have hevent : Attempt.event buf i ⟨.le, u16 v, false⟩ ∈ wordEvents buf skipEffMap fun orig =>
      interesting16.flatMap (interest16Attempts orig) := mem_wordEvents heff (by decide) hi ha
    exact .inr hevent

theorem interest16_skipped_be {v : ℤ} (hi : i + 2 ≤ buf.length)
    (h : interestSkips (loadAt 2 buf i) (swap16 (u16 v)) true = true) :
    ReachedLe buf skipEffMap (ariths ++ [.interest8]) .interest16 i
      (storeAt 2 buf i (swap16 (u16 v))) := by
  rcases reached_of_interestSkips heff (.inl rfl) hi h with h | ⟨-, k, v', hv', hins⟩ | ⟨h4, -⟩ |
    ⟨h4, -⟩
  · exact .inl h
  · obtain rfl : k = 0 := by
      have := hins.1
      omega
    rw [storeAt_inserted hins]
    exact reached_interest16_le heff hv' hi
  · omega
  · omega

theorem reached_interest16_be {v : ℤ} (hv : v ∈ interesting16) (hi : i + 2 ≤ buf.length) :
    Reached buf skipEffMap (ariths ++ [.interest8] ++ [.interest16])
      (storeAt 2 buf i (swap16 (u16 v))) := by
  by_cases hne : u16 v = swap16 (u16 v)
  · rw [← hne]
    exact (reached_interest16_le heff hv hi).reached
  · have hevents : Stage.interest16.events buf skipEffMap = wordEvents buf skipEffMap fun orig =>
      interesting16.flatMap (interest16Attempts orig) := rfl
    have ha : ⟨.be, swap16 (u16 v), interestSkips (loadAt 2 buf i) (swap16 (u16 v)) true⟩ ∈
        interesting16.flatMap (interest16Attempts (loadAt 2 buf i)) :=
      List.mem_flatMap.mpr ⟨v, hv, by simp [interest16Attempts_eq, hne]⟩
    exact reached_of_attempt heff hevents (by simp) (by decide) hi ha fun hskip =>
      (interest16_skipped_be heff hi hskip).reached

theorem interest32_skipped {y : Word 4} {checkLe : Bool} (hi : i + 4 ≤ buf.length)
    (h : interestSkips (loadAt 4 buf i) y checkLe = true) :
    Reached buf skipEffMap (ariths ++ [.interest8] ++ [.interest16]) (storeAt 4 buf i y) ∨
      (checkLe = true ∧ ∃ v ∈ interesting32, y = u32 v) := by
  rcases reached_of_interestSkips heff (.inr rfl) hi h with h | ⟨-, k, v, hv, hins⟩ |
    ⟨-, k, v, hv, hins⟩ | ⟨-, hle, hv⟩
  · exact .inl (h.mono (List.subset_append_left _ _))
  · have := hins.1
    rw [storeAt_inserted hins]
    exact .inl (reached_interest16_le heff hv (by omega)).reached
  · have := hins.1
    rw [storeAt_inserted hins]
    exact .inl (reached_interest16_be heff hv (by omega))
  · exact .inr ⟨hle, by simpa only [BitVec.setWidth_eq] using hv⟩

theorem reached_interest32_le {v : ℤ} (hv : v ∈ interesting32) (hi : i + 4 ≤ buf.length) :
    ReachedLe buf skipEffMap (ariths ++ [.interest8] ++ [.interest16]) .interest32 i
      (storeAt 4 buf i (u32 v)) := by
  have ha : ⟨.le, u32 v, interestSkips (loadAt 4 buf i) (u32 v) false⟩ ∈
      interesting32.flatMap (interest32Attempts (loadAt 4 buf i)) :=
    List.mem_flatMap.mpr ⟨v, hv, by simp [interest32Attempts_eq]⟩
  cases hskip : interestSkips (loadAt 4 buf i) (u32 v) false with
  | true => exact .inl ((interest32_skipped heff hi hskip).resolve_right (by simp))
  | false =>
    rw [hskip] at ha
    have hevent : Attempt.event buf i ⟨.le, u32 v, false⟩ ∈ wordEvents buf skipEffMap fun orig =>
      interesting32.flatMap (interest32Attempts orig) := mem_wordEvents heff (by decide) hi ha
    exact .inr hevent

end Interest

/-! ## Skipped attempts -/

section Skips

variable {buf : Buffer} {skipEffMap : ℕ → Bool} (heff : ∀ i < buf.length, skipEffMap i = true)

/-- The stages that come before a stage. -/
def Stage.earlier (noArith : Bool) (st : Stage) : List Stage :=
  (stages noArith).takeWhile (· ≠ st)

theorem skip_not_mem_flatMap {α : Type*} {xs : List α} {p : α → Bool} {f : α → Event} {i : ℕ}
    {b : Buffer} (hf : ∀ x b', f x ≠ .skip i b') :
    .skip i b ∉ xs.flatMap fun x => if p x then [f x] else [] := by
  intro h
  obtain ⟨x, -, hx⟩ := List.mem_flatMap.mp h
  split at hx
  · exact hf x b (List.mem_singleton.mp hx).symm
  · cases hx

theorem arith8Attempts_skipped {orig : Word 1} {j : ℕ} {a : Attempt 1}
    (ha : a ∈ arith8Attempts orig j) :
    a.skipped = couldBeBitflip ((orig ^^^ a.value).setWidth 32) := by
  simp only [arith8Attempts, List.mem_cons, List.not_mem_nil, or_false] at ha
  rcases ha with rfl | rfl <;> rfl

theorem arith16Attempts_skipped {orig : Word 2} {j : ℕ} {a : Attempt 2}
    (ha : a ∈ arith16Attempts orig j) :
    a.skipped = couldBeBitflip ((orig ^^^ a.value).setWidth 32) := by
  simp only [arith16Attempts, List.mem_append, List.mem_ite_nil_right, List.mem_singleton] at ha
  rcases ha with ((⟨-, rfl⟩ | ⟨-, rfl⟩) | ⟨-, rfl⟩) | ⟨-, rfl⟩ <;> rfl

theorem arith32Attempts_skipped {orig : Word 4} {j : ℕ} {a : Attempt 4}
    (ha : a ∈ arith32Attempts orig j) :
    a.skipped = couldBeBitflip ((orig ^^^ a.value).setWidth 32) := by
  simp only [arith32Attempts, List.mem_append, List.mem_ite_nil_right, List.mem_singleton] at ha
  rcases ha with ((⟨-, rfl⟩ | ⟨-, rfl⟩) | ⟨-, rfl⟩) | ⟨-, rfl⟩ <;> simp only [BitVec.setWidth_eq]

include heff

/-- The arithmetics skip only what the flips have reached. -/
theorem arith_skip_reached {n : ℕ} (hn : 0 < n ∧ n ≤ 4) (attempts : Word n → ℕ → List (Attempt n))
    (hattempts : ∀ {orig j a}, a ∈ attempts orig j →
      a.skipped = couldBeBitflip ((orig ^^^ a.value).setWidth 32))
    {i : ℕ} {b : Buffer} (h : .skip i b ∈ wordEvents buf skipEffMap
      fun orig => (List.range' 1 arithMax).flatMap (attempts orig)) :
    Reached buf skipEffMap flips b := by
  obtain ⟨hi, a, ha, hskip, rfl⟩ := skip_mem_wordEvents hn.1 h
  obtain ⟨j, -, ha⟩ := List.mem_flatMap.mp ha
  rw [hattempts ha] at hskip
  exact reached_of_couldBeBitflip heff hn.2 hi hskip

/-- Every skipped attempt of a stage was reached by the stages before it, or is inserted by
the stage at the same offset in the byte order of the machine. -/
theorem skip_reached {st : Stage} {i : ℕ} {b : Buffer} (h : .skip i b ∈ st.events buf skipEffMap) :
    Reached buf skipEffMap (st.earlier false) b ∨
      (st = .interest16 ∨ st = .interest32) ∧ .exec i .le b ∈ st.events buf skipEffMap := by
  cases st with
  | flip1 =>
    rcases List.mem_cons.mp h with h | h
    · cases h
    · exact absurd h (skip_not_mem_flatMap (by simp))
  | flip2 | flip4 | flip8 | flip16 | flip32 => exact absurd h (skip_not_mem_flatMap (by simp))
  | arith8 =>
    have hreached := arith_skip_reached heff (by decide) arith8Attempts arith8Attempts_skipped h
    exact .inl (hreached.mono (by decide))
  | arith16 =>
    have hreached := arith_skip_reached heff (by decide) arith16Attempts arith16Attempts_skipped h
    exact .inl (hreached.mono (by decide))
  | arith32 =>
    have hreached := arith_skip_reached heff (by decide) arith32Attempts arith32Attempts_skipped h
    exact .inl (hreached.mono (by decide))
  | interest8 =>
    rw [Stage.events] at h
    obtain ⟨hi, a, ha, hskip, rfl⟩ := skip_mem_wordEvents (by decide) h
    obtain ⟨v, -, rfl⟩ := List.mem_map.mp ha
    exact .inl (interest8_skipped heff hi hskip)
  | interest16 =>
    rw [Stage.events] at h
    obtain ⟨hi, a, ha, hskip, rfl⟩ := skip_mem_wordEvents (by decide) h
    obtain ⟨v, -, ha⟩ := List.mem_flatMap.mp ha
    rw [interest16Attempts_eq, List.mem_cons, List.mem_ite_nil_right, List.mem_singleton] at ha
    rcases ha with rfl | ⟨-, rfl⟩
    · exact .inl (interest16_skipped_le heff hi hskip)
    · exact (interest16_skipped_be heff hi hskip).imp_right fun h => ⟨.inl rfl, h⟩
  | interest32 =>
    rw [Stage.events] at h
    obtain ⟨hi, a, ha, hskip, rfl⟩ := skip_mem_wordEvents (by decide) h
    obtain ⟨v, -, ha⟩ := List.mem_flatMap.mp ha
    rw [interest32Attempts_eq, List.mem_cons, List.mem_ite_nil_right, List.mem_singleton] at ha
    rcases ha with rfl | ⟨-, rfl⟩
    · exact .inl ((interest32_skipped heff hi hskip).resolve_right (by simp))
    · rcases interest32_skipped heff hi hskip with hreached | ⟨-, v', hv', heq⟩
      · exact .inl hreached
      · have hle := reached_interest32_le heff hv' hi
        rw [← heq] at hle
        exact hle.imp_right fun h => ⟨.inr rfl, h⟩

/-- Without the arithmetics, the insertions of one byte still skip their values. -/
theorem skip_reached_noArith {st : Stage} (hst : st ∈ stages true) {i : ℕ} {b : Buffer}
    (h : .skip i b ∈ st.events buf skipEffMap) : Reached buf skipEffMap (st.earlier true) b ∨
      st = .interest8 ∧
        couldBeArith ((loadAt 1 buf i).setWidth 32) ((loadAt 1 b i).setWidth 32) 1 = true := by
  cases st with
  | flip1 | flip2 | flip4 | flip8 | flip16 | flip32 =>
    rcases skip_reached heff h with h | ⟨h, -⟩
    · exact .inl h
    · simp at h
  | arith8 | arith16 | arith32 | interest16 | interest32 => simp [stages] at hst
  | interest8 =>
    rw [Stage.events] at h
    obtain ⟨hi, a, ha, hskip, rfl⟩ := skip_mem_wordEvents (by decide) h
    obtain ⟨v, -, rfl⟩ := List.mem_map.mp ha
    rw [loadAt_storeAt _ hi]
    rcases Bool.or_eq_true_iff.mp hskip with h | h
    · exact .inl (reached_of_couldBeBitflip heff (by decide) hi h)
    · exact .inr ⟨rfl, h⟩

omit heff in
/-- The events of the stages before a stage come before its own. -/
theorem mem_take_of_earlier {ev : Stage → List Event} {sts : List Stage} {k : ℕ} {st st' : Stage}
    {e e' : Event} (hk : (sts.flatMap fun st => (ev st).map (st, ·))[k]? = some (st, e))
    (hst' : st' ∈ sts.takeWhile (· ≠ st)) (he' : e' ∈ ev st') :
    (st', e') ∈ (sts.flatMap fun st => (ev st).map (st, ·)).take k := by
  induction sts generalizing k with
  | nil => simp at hst'
  | cons s sts ih =>
    rw [List.takeWhile_cons] at hst'
    split at hst'
    · next hne =>
      have hne : s ≠ st := by simpa using hne
      have hlen : ((ev s).map (s, ·)).length ≤ k := by
        by_contra hlt
        rw [List.flatMap_cons, List.getElem?_append_left (by omega), List.getElem?_map] at hk
        obtain ⟨x, -, hx⟩ := Option.map_eq_some_iff.mp hk
        exact hne (Prod.mk.inj hx).1
      rw [List.flatMap_cons, List.getElem?_append_right hlen] at hk
      rw [List.flatMap_cons, List.take_append, List.take_of_length_le hlen, List.mem_append]
      rcases List.mem_cons.mp hst' with rfl | hst'
      · exact .inl (List.mem_map_of_mem he')
      · exact .inr (ih hk hst')
    · cases hst'

/-- Another stage than `st` executes the buffer among the events. -/
def ExecutedByOther (es : List (Stage × Event)) (st : Stage) (b : Buffer) : Prop :=
  ∃ st' i valType, st' ≠ st ∧ (st', .exec i valType b) ∈ es

/-- In a run with every byte effective, a skipped buffer is the input, or differs from it by
a crossing run, or was executed by an earlier stage, or is executed by the same stage for
wider insertions at the same offset in the byte order of the machine. When the arithmetics
are off, the insertions of one byte also skip what the arithmetics would have made. -/
theorem fuzzOneDeterministic_skip_reached {noArith : Bool} {k i : ℕ} {st : Stage} {b : Buffer}
    (h : (fuzzOneDeterministic skipEffMap noArith buf)[k]? = some (st, .skip i b)) :
    b = buf ∨ CrossingRun buf b ∨
      ExecutedByOther ((fuzzOneDeterministic skipEffMap noArith buf).take k) st b ∨
      ((st = .interest16 ∨ st = .interest32) ∧
        (st, .exec i .le b) ∈ fuzzOneDeterministic skipEffMap noArith buf) ∨
      (noArith = true ∧ st = .interest8 ∧
        couldBeArith ((loadAt 1 buf i).setWidth 32) ((loadAt 1 b i).setWidth 32) 1 = true) := by
  unfold fuzzOneDeterministic at h ⊢
  rw [runStages_eq] at h ⊢
  obtain ⟨st₁, hst₁, hmem⟩ := List.mem_flatMap.mp (List.mem_of_getElem? h)
  obtain ⟨e, he, heq⟩ := List.mem_map.mp hmem
  obtain ⟨rfl, rfl⟩ := Prod.mk.inj heq
  have hreached : Reached buf skipEffMap (st₁.earlier noArith) b → b = buf ∨ CrossingRun buf b ∨
      ExecutedByOther (((stages noArith).flatMap fun st =>
        (st.events buf skipEffMap).map (st, ·)).take k) st₁ b := by
    rintro (hbuf | hrun | ⟨st', hst', i', valType, hexec⟩)
    · exact .inl hbuf
    · exact .inr (.inl hrun)
    · have hne := List.all_eq_true.mp List.all_takeWhile st' hst'
      exact .inr (.inr ⟨st', i', valType, by simpa using hne, mem_take_of_earlier h hst' hexec⟩)
  cases noArith with
  | false =>
    rcases skip_reached heff he with hr | ⟨hst, hexec⟩
    · exact (hreached hr).imp_right fun h => h.imp_right .inl
    · exact .inr (.inr (.inr (.inl
        ⟨hst, List.mem_flatMap.mpr ⟨st₁, hst₁, List.mem_map_of_mem hexec⟩⟩)))
  | true =>
    rcases skip_reached_noArith heff hst₁ he with hr | hskip
    · exact (hreached hr).imp_right fun h => h.imp_right .inl
    · exact .inr (.inr (.inr (.inr ⟨rfl, hskip⟩)))

end Skips

theorem fuzzOneDeterministic_skip_arith8 :
    (fuzzOneDeterministic (fun _ => true) false [0x33#8])[23]? =
        some (.arith8, .skip 0 [0x32#8]) ∧
      ExecutedByOther ((fuzzOneDeterministic (fun _ => true) false [0x33#8]).take 23) .arith8
        [0x32#8] := by
  have h : (fuzzOneDeterministic (fun _ => true) false [0x33#8])[23]? =
      some (.arith8, .skip 0 [0x32#8]) := by decide +kernel
  refine ⟨h, ?_⟩
  rcases fuzzOneDeterministic_skip_reached (fun _ _ => rfl) h with
    hbuf | ⟨p, -, -, hp, -⟩ | hexec | ⟨hst, -⟩ | ⟨hoff, -⟩
  · simp at hbuf
  · simp at hp
  · exact hexec
  · simp at hst
  · cases hoff

section Unexecuted

def Event.executed : Event → Option Buffer
  | exec _ _ b => some b
  | skip _ _ => none

theorem not_executedByOther {es : List (Stage × Event)} {b : Buffer}
    (h : b ∉ es.filterMap fun e => e.2.executed) (st : Stage) : ¬ExecutedByOther es st b := by
  rintro ⟨st', i, valType, -, hmem⟩
  exact h (List.mem_filterMap.mpr ⟨_, hmem, rfl⟩)

/-- A big-endian insertion that the stage makes later as a little-endian one, a run of bits
that crosses a byte boundary, and an insertion that only the arithmetics, which are off,
would have made. -/
theorem skipped_not_executed :
    ((fuzzOneDeterministic (fun _ => true) false [0x33#8, 0x44#8])[211]? =
        some (.interest16, .skip 0 [0x00#8, 0x01#8]) ∧
      ¬ExecutedByOther ((fuzzOneDeterministic (fun _ => true) false [0x33#8, 0x44#8]).take 211)
        .interest16 [0x00#8, 0x01#8]) ∧
    ((fuzzOneDeterministic (fun _ => true) false [0xe0#8, 0x00#8])[219]? =
        some (.arith16, .skip 0 [0x00#8, 0x01#8]) ∧
      ¬ExecutedByOther (fuzzOneDeterministic (fun _ => true) false [0xe0#8, 0x00#8])
        .arith16 [0x00#8, 0x01#8]) ∧
    ((fuzzOneDeterministic (fun _ => true) true [110#8])[30]? =
        some (.interest8, .skip 0 [127#8]) ∧
      ¬ExecutedByOther (fuzzOneDeterministic (fun _ => true) true [110#8])
        .interest8 [127#8]) := by
  refine ⟨⟨?_, not_executedByOther ?_ _⟩, ⟨?_, not_executedByOther ?_ _⟩,
    ?_, not_executedByOther ?_ _⟩ <;> decide +kernel

end Unexecuted

end AflPlusPlus.DeterministicStages
