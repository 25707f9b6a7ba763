import Mathlib

/-!
# The random numbers of the fuzzer

`rand_next` steps through a permutation of its states, so a generator that is seeded never gets
stuck in the state of zeros. `rand_below` rejects the words that would make some numbers more
likely than others, which works out only with words of 64 bits.
-/

namespace AflPlusPlus.RandomNumbers

/-- `afl->rand_seed`. -/
@[ext] structure RandSeed (w : ℕ) where
  s0 : BitVec w
  s1 : BitVec w
  s2 : BitVec w

/-- The hash of the eight bytes of the seed is a parameter. -/
def randSetSeed (w : ℕ) (hash64 : BitVec 64 → BitVec 64) (initSeed : BitVec 64) : RandSeed w :=
  let s0 := (hash64 initSeed).setWidth w
  let s1 := (s0.setWidth 64 ^^^ 0x1234567890abcdef).setWidth w
  let s2 := ((s0.setWidth 64 &&& 0x1234567890abcdef) ^^^
    (s1.setWidth 64 ||| 0xfedcba9876543210)).setWidth w
  ⟨s0, s1, s2⟩

def rotl {w : ℕ} (d : BitVec w) (lrot : ℕ) : BitVec w := (d <<< lrot) ||| (d >>> (w - lrot))

/-- `rand_next` with `WORD_SIZE_64`: the word, and the seeds after it. -/
def randNext64 (s : RandSeed 64) : BitVec 64 × RandSeed 64 :=
  (s.s0, ⟨15241094284759029579 * s.s1, rotl (s.s1 - s.s0) 27, s.s2⟩)

/-- `rand_next` without it. -/
def randNext32 (s : RandSeed 32) : BitVec 32 × RandSeed 32 :=
  (s.s0, ⟨3323815723 * s.s2, rotl (s.s1 - s.s0) 6, rotl (s.s2 - s.s1) 22⟩)

/-- The seeds after a number of calls. -/
def after {w : ℕ} (randNext : RandSeed w → BitVec w × RandSeed w) (n : ℕ) (s : RandSeed w) :
    RandSeed w := (fun s => (randNext s).2)^[n] s

/-! ## The states of the generator -/

section States
variable {w : ℕ}

theorem finite_word (w : ℕ) : Finite (BitVec w) :=
  Finite.of_equiv _ BitVec.equivFin.symm.toEquiv

theorem finite_randSeed (w : ℕ) : Finite (RandSeed w) := by
  have hword := finite_word w
  refine Finite.of_injective (fun s : RandSeed w => (s.s0, s.s1, s.s2)) fun s t h => ?_
  rw [Prod.mk.injEq, Prod.mk.injEq] at h
  exact RandSeed.ext h.1 h.2.1 h.2.2

/-- A rotation moves each bit to a place of its own. -/
theorem getLsbD_rotl (d : BitVec w) {r i : ℕ} (hr : r < w) (hi : i < w) :
    (rotl d r).getLsbD ((i + r) % w) = d.getLsbD i := by
  rw [rotl, BitVec.getLsbD_or, BitVec.getLsbD_shiftLeft, BitVec.getLsbD_ushiftRight]
  rcases lt_or_ge (i + r) w with h | h
  · rw [Nat.mod_eq_of_lt h, BitVec.getLsbD_of_ge d (w - r + (i + r)) (by omega)]
    simp [h]
  · have hmod : (i + r) % w = i + r - w := by
      rw [Nat.mod_eq_sub_mod h, Nat.mod_eq_of_lt (by omega)]
    have hlt : i + r - w < r := by omega
    rw [hmod, show w - r + (i + r - w) = i by omega]
    simp [hlt]

theorem rotl_injective {r : ℕ} (hr : r < w) : Function.Injective fun d : BitVec w => rotl d r := by
  intro d e h
  apply BitVec.eq_of_getLsbD_eq
  intro i hi
  have hbit := congrArg (fun x : BitVec w => x.getLsbD ((i + r) % w)) h
  dsimp only at hbit
  rwa [getLsbD_rotl d hr hi, getLsbD_rotl e hr hi] at hbit

theorem sub_rotl_eq {r : ℕ} (hr : r < w) {x y y' : BitVec w}
    (h : rotl (x - y) r = rotl (x - y') r) : y = y' := by
  have hsub : x - y = x - y' := rotl_injective hr h
  exact sub_right_injective hsub

theorem mul_left_cancel_of_inv {c inv x y : BitVec w} (hinv : inv * c = 1#w)
    (h : c * x = c * y) : x = y := by
  have hmul := congrArg (inv * ·) h
  rwa [← BitVec.mul_assoc, ← BitVec.mul_assoc, hinv, BitVec.one_mul, BitVec.one_mul] at hmul

theorem randNext64_injective : Function.Injective fun s => (randNext64 s).2 := by
  intro s t h
  dsimp only [randNext64] at h
  rw [RandSeed.mk.injEq] at h
  obtain ⟨h0, h1, h2⟩ := h
  have hinv : 4888251478366616163#64 * 15241094284759029579 = 1#64 := by decide
  have hs1 : s.s1 = t.s1 := mul_left_cancel_of_inv hinv h0
  rw [hs1] at h1
  exact RandSeed.ext (sub_rotl_eq (by decide) h1) hs1 h2

theorem randNext32_injective : Function.Injective fun s => (randNext32 s).2 := by
  intro s t h
  dsimp only [randNext32] at h
  rw [RandSeed.mk.injEq] at h
  obtain ⟨h0, h1, h2⟩ := h
  have hinv : 862068611#32 * 3323815723 = 1#32 := by decide
  have hs2 : s.s2 = t.s2 := mul_left_cancel_of_inv hinv h0
  rw [hs2] at h2
  have hs1 : s.s1 = t.s1 := sub_rotl_eq (by decide) h2
  rw [hs1] at h1
  exact RandSeed.ext (sub_rotl_eq (by decide) h1) hs1 hs2

/-- The seeds come back after some calls. -/
theorem returns {randNext : RandSeed w → BitVec w × RandSeed w}
    (h : Function.Injective fun s => (randNext s).2) (s : RandSeed w) :
    ∃ n > 0, after randNext n s = s := by
  have hfinite := finite_randSeed w
  obtain ⟨n, hn, hperiod⟩ := Function.mem_periodicPts.mp (h.mem_periodicPts s)
  exact ⟨n, hn, hperiod⟩

/-- A state that stays is not reached from another one. -/
theorem after_ne {randNext : RandSeed w → BitVec w × RandSeed w}
    (h : Function.Injective fun s => (randNext s).2) {s z : RandSeed w}
    (hz : (randNext z).2 = z) (hs : s ≠ z) (n : ℕ) : after randNext n s ≠ z := by
  intro heq
  have hfix : after randNext n z = z := Function.iterate_fixed hz n
  exact hs (h.iterate n (heq.trans hfix.symm))

theorem after64_s2 (n : ℕ) (s : RandSeed 64) : (after randNext64 n s).s2 = s.s2 := by
  induction n generalizing s with
  | zero => rfl
  | succ n ih =>
    rw [after, Function.iterate_succ_apply]
    exact ih _

theorem randSetSeed_ne (hw : 0 < w) (hash64 : BitVec 64 → BitVec 64) (initSeed : BitVec 64) :
    (randSetSeed w hash64 initSeed).s1 ≠ (randSetSeed w hash64 initSeed).s0 := by
  intro h
  have hbit := congrArg (fun x : BitVec w => x.getLsbD 0) h
  simp [randSetSeed, hw] at hbit

theorem zeros_stay64 (s2 : BitVec 64) : (randNext64 ⟨0, 0, s2⟩).2 = ⟨0, 0, s2⟩ := by
  simp [randNext64, rotl]

theorem zeros_stay32 : (randNext32 ⟨0, 0, 0⟩).2 = ⟨0, 0, 0⟩ := by
  simp [randNext32, rotl]

/-- Whatever the seed is, the seeds of the generator come back, and they are never all zero, where
they would stay. -/
theorem randNext_seeded (hash64 : BitVec 64 → BitVec 64) (initSeed : BitVec 64) :
    (∃ n > 0, after randNext64 n (randSetSeed 64 hash64 initSeed) =
      randSetSeed 64 hash64 initSeed) ∧
    (∀ n, ¬((after randNext64 n (randSetSeed 64 hash64 initSeed)).s0 = 0 ∧
      (after randNext64 n (randSetSeed 64 hash64 initSeed)).s1 = 0)) ∧
    (∃ n > 0, after randNext32 n (randSetSeed 32 hash64 initSeed) =
      randSetSeed 32 hash64 initSeed) ∧
    ∀ n, after randNext32 n (randSetSeed 32 hash64 initSeed) ≠ ⟨0, 0, 0⟩ := by
  refine ⟨returns randNext64_injective _, fun n hzero => ?_, returns randNext32_injective _, ?_⟩
  · refine after_ne randNext64_injective (zeros_stay64 (randSetSeed 64 hash64 initSeed).s2)
      (fun heq => ?_) n (RandSeed.ext hzero.1 hzero.2 (after64_s2 n _))
    refine randSetSeed_ne (w := 64) (by decide) hash64 initSeed ?_
    rw [heq]
  · refine after_ne randNext32_injective zeros_stay32 fun heq => ?_
    refine randSetSeed_ne (w := 32) (by decide) hash64 initSeed ?_
    rw [heq]

end States

/-! ## Numbers below a limit -/

/-- `UINT64_MAX - (UINT64_MAX % limit)`. -/
def unbiasedBound (limit : ℕ) : ℕ := (2 ^ 64 - 1) - (2 ^ 64 - 1) % limit

/-- One pass of the loop of `rand_below`: a word is rejected, or the number is there. -/
def draw {w : ℕ} (limit : ℕ) (word : BitVec w) : Option ℕ :=
  if unbiasedBound limit ≤ word.toNat then none else some (word.toNat % limit)

/-- The loop, on the words that `rand_next` gives. -/
def drawLoop {w : ℕ} (limit : ℕ) : List (BitVec w) → Option ℕ
  | [] => none
  | word :: words => match draw limit word with
    | some r => some r
    | none => drawLoop limit words

/-- How many words give the number. -/
noncomputable def givers (w limit r : ℕ) : ℕ := {word : BitVec w | draw limit word = some r}.ncard

/-- How many sequences of `n` words lead the loop to the number. -/
noncomputable def loopOutcomes (w limit n r : ℕ) : ℕ :=
  {words : List (BitVec w) | words.length = n ∧ drawLoop limit words = some r}.ncard

def randBelow {w : ℕ} (limit : ℕ) (words : List (BitVec w)) : Option ℕ :=
  if limit ≤ 1 then some 0 else drawLoop limit words

/-- How many sequences of `n` words lead `rand_below` to the number. -/
noncomputable def outcomes (w limit n r : ℕ) : ℕ :=
  {words : List (BitVec w) | words.length = n ∧ randBelow limit words = some r}.ncard

section Below
variable {w limit n r : ℕ}

theorem ncard_words (P : ℕ → Prop) [DecidablePred P] :
    {word : BitVec w | P word.toNat}.ncard = Nat.count P (2 ^ w) := by
  have himage : BitVec.toNat '' {word : BitVec w | P word.toNat} =
      ((Finset.range (2 ^ w)).filter P : Finset ℕ) := by
    ext n
    rw [Set.mem_image, Finset.coe_filter, Set.mem_ofPred_eq, Finset.mem_range]
    constructor
    · rintro ⟨word, hword, rfl⟩
      exact ⟨word.isLt, hword⟩
    · rintro ⟨hlt, hn⟩
      have hword : (BitVec.ofNat w n).toNat = n := by
        rw [BitVec.toNat_ofNat, Nat.mod_eq_of_lt hlt]
      refine ⟨BitVec.ofNat w n, ?_, hword⟩
      rw [Set.mem_ofPred_eq, hword]
      exact hn
  rw [← Set.ncard_image_of_injective _ fun x y h => BitVec.eq_of_toNat_eq h, himage,
    Set.ncard_coe_finset, Nat.count_eq_card_filter_range]

theorem count_below (Q : ℕ → Prop) [DecidablePred Q] (a b : ℕ) :
    Nat.count (fun n => n < b ∧ Q n) a = Nat.count Q (min a b) := by
  rw [Nat.count_eq_card_filter_range, Nat.count_eq_card_filter_range]
  congr 1
  ext n
  simp only [Finset.mem_filter, Finset.mem_range, lt_min_iff]
  exact and_assoc.symm

/-- The words that are kept run through the numbers below the limit, and may break off. -/
theorem givers_eq (hr : r < limit) : givers w limit r =
    min (2 ^ w) (unbiasedBound limit) / limit +
      if r < min (2 ^ w) (unbiasedBound limit) % limit then 1 else 0 := by
  have hdraw : {word : BitVec w | draw limit word = some r} =
      {word : BitVec w | word.toNat < unbiasedBound limit ∧ word.toNat ≡ r [MOD limit]} := by
    ext word
    rw [Set.mem_ofPred_eq, Set.mem_ofPred_eq, draw, Nat.ModEq, Nat.mod_eq_of_lt hr]
    split
    · next hle => exact iff_of_false (by simp) fun h => absurd h.1 (not_lt.mpr hle)
    · next hlt => rw [Option.some_inj, and_iff_right (not_le.mp hlt)]
  rw [givers, hdraw, ncard_words fun n => n < unbiasedBound limit ∧ n ≡ r [MOD limit], count_below,
    Nat.count_modEq_card _ (Nat.zero_lt_of_lt hr), Nat.mod_eq_of_lt hr]

theorem unbiasedBound_eq (limit : ℕ) : unbiasedBound limit = limit * ((2 ^ 64 - 1) / limit) := by
  have hdiv := Nat.div_add_mod (2 ^ 64 - 1) limit
  rw [unbiasedBound]
  omega

theorem givers_64 (hr : r < limit) : givers 64 limit r = (2 ^ 64 - 1) / limit := by
  have hle : unbiasedBound limit ≤ 2 ^ 64 := (Nat.sub_le _ _).trans (by decide)
  rw [givers_eq hr, min_eq_right hle, unbiasedBound_eq, Nat.mul_div_cancel_left _
    (Nat.zero_lt_of_lt hr), Nat.mul_mod_right, if_neg (Nat.not_lt_zero r), Nat.add_zero]

/-- No word of 32 bits is rejected, and they are enough for all numbers in the same way when the
limit divides the number of words. -/
theorem givers_32_iff (hlimit : 1 < limit) (hlt : limit < 2 ^ 32) :
    (∀ r < limit, ∀ r' < limit, givers 32 limit r = givers 32 limit r') ↔ limit ∣ 2 ^ 32 := by
  have hmod := Nat.mod_lt (2 ^ 64 - 1) (Nat.zero_lt_of_lt hlimit)
  have hle : 2 ^ 32 ≤ unbiasedBound limit := by
    rw [unbiasedBound]
    omega
  have hgivers : ∀ r < limit, givers 32 limit r =
      2 ^ 32 / limit + if r < 2 ^ 32 % limit then 1 else 0 := fun r hr => by
    rw [givers_eq hr, min_eq_left hle]
  rw [Nat.dvd_iff_mod_eq_zero]
  constructor
  · intro h
    have heq := h 0 (by omega) (limit - 1) (by omega)
    rw [hgivers 0 (by omega), hgivers (limit - 1) (by omega)] at heq
    have hlast : ¬limit - 1 < 2 ^ 32 % limit := by
      have hrest := Nat.mod_lt (2 ^ 32) (Nat.zero_lt_of_lt hlimit)
      omega
    rw [if_neg hlast] at heq
    by_contra hne
    rw [if_pos (Nat.pos_of_ne_zero hne)] at heq
    omega
  · intro hzero r hr r' hr'
    rw [hgivers r hr, hgivers r' hr', hzero, if_neg (Nat.not_lt_zero r),
      if_neg (Nat.not_lt_zero r')]

/-! ## Sequences of words -/

theorem loopOutcomes_zero : loopOutcomes w limit 0 r = 0 := by
  have hempty : {words : List (BitVec w) | words.length = 0 ∧ drawLoop limit words = some r} =
      ∅ := by
    ext words
    rw [Set.mem_ofPred_eq, List.length_eq_zero_iff]
    refine iff_of_false ?_ (Set.notMem_empty words)
    rintro ⟨rfl, hnone⟩
    cases hnone
  rw [loopOutcomes, hempty, Set.ncard_empty]

/-- The first word gives the number, or it is rejected and the others lead to it. -/
theorem drawLoop_words_succ :
    {words : List (BitVec w) | words.length = n + 1 ∧ drawLoop limit words = some r} =
      (fun e : BitVec w × List (BitVec w) => e.1 :: e.2) ''
        ({word : BitVec w | draw limit word = some r} ×ˢ {words | words.length = n} ∪
          {word : BitVec w | draw limit word = none} ×ˢ
            {words | words.length = n ∧ drawLoop limit words = some r}) := by
  ext words
  rw [Set.mem_ofPred_eq, Set.mem_image]
  constructor
  · rintro ⟨hlen, hbelow⟩
    cases words with
    | nil => cases hbelow
    | cons word words =>
      rw [List.length_cons, Nat.add_right_cancel_iff] at hlen
      refine ⟨(word, words), ?_, rfl⟩
      rw [drawLoop] at hbelow
      cases hdraw : draw limit word with
      | none =>
        rw [hdraw] at hbelow
        exact Or.inr ⟨hdraw, hlen, hbelow⟩
      | some r' =>
        rw [hdraw] at hbelow
        exact Or.inl ⟨hdraw.trans hbelow, hlen⟩
  · rintro ⟨⟨word, words⟩, ⟨hdraw, hlen⟩ | ⟨hdraw, hlen, hbelow⟩, rfl⟩
    · refine ⟨congrArg (· + 1) hlen, ?_⟩
      rw [drawLoop, show draw limit word = some r from hdraw]
    · refine ⟨congrArg (· + 1) hlen, ?_⟩
      rw [drawLoop, show draw limit word = none from hdraw]
      exact hbelow

theorem cons_pair_injective {α : Type*} :
    Function.Injective fun e : α × List α => e.1 :: e.2 := by
  rintro ⟨x, xs⟩ ⟨y, ys⟩ h
  exact Prod.ext (List.cons.inj h).1 (List.cons.inj h).2

theorem loopOutcomes_succ : loopOutcomes w limit (n + 1) r =
    givers w limit r * {words : List (BitVec w) | words.length = n}.ncard +
      {word : BitVec w | draw limit word = none}.ncard * loopOutcomes w limit n r := by
  have hword := finite_word w
  have hfinite := List.finite_length_eq (BitVec w) n
  have hdisjoint : Disjoint ({word : BitVec w | draw limit word = some r} ×ˢ
      {words : List (BitVec w) | words.length = n}) ({word : BitVec w | draw limit word = none} ×ˢ
        {words : List (BitVec w) | words.length = n ∧ drawLoop limit words = some r}) := by
    rw [Set.disjoint_left]
    rintro ⟨word, words⟩ ⟨hsome, -⟩ ⟨hnone, -⟩
    exact Option.some_ne_none r (hsome.symm.trans hnone)
  have hsub : {words : List (BitVec w) | words.length = n ∧ drawLoop limit words = some r} ⊆
      {words | words.length = n} := fun words hwords => hwords.1
  rw [loopOutcomes, drawLoop_words_succ, Set.ncard_image_of_injective _ cons_pair_injective,
    Set.ncard_union_eq hdisjoint ((Set.toFinite _).prod hfinite)
      ((Set.toFinite _).prod (hfinite.subset hsub)), Set.ncard_prod, Set.ncard_prod, givers,
    loopOutcomes]

theorem loopOutcomes_eq {r' : ℕ} (h : givers w limit r = givers w limit r') (n : ℕ) :
    loopOutcomes w limit n r = loopOutcomes w limit n r' := by
  induction n with
  | zero => rw [loopOutcomes_zero, loopOutcomes_zero]
  | succ n ih => rw [loopOutcomes_succ, loopOutcomes_succ, h, ih]

theorem outcomes_eq_loop (h : 1 < limit) : outcomes w limit n r = loopOutcomes w limit n r := by
  rw [outcomes, loopOutcomes]
  simp only [randBelow, if_neg (not_le.mpr h)]

/-- With words of 64 bits all numbers below the limit are equally likely, whatever number of words
it takes. -/
theorem outcomes_64 {r' : ℕ} (hr : r < limit) (hr' : r' < limit) (n : ℕ) :
    outcomes 64 limit n r = outcomes 64 limit n r' := by
  rcases le_or_gt limit 1 with hlimit | hlimit
  · rw [show r = r' by omega]
  · rw [outcomes_eq_loop hlimit, outcomes_eq_loop hlimit]
    exact loopOutcomes_eq ((givers_64 hr).trans (givers_64 hr').symm) n

/-- With words of 32 bits they are when the limit divides the number of words only. -/
theorem outcomes_32_iff (hlimit : 1 < limit) (hlt : limit < 2 ^ 32) :
    (∀ n, ∀ r < limit, ∀ r' < limit, outcomes 32 limit n r = outcomes 32 limit n r') ↔
      limit ∣ 2 ^ 32 := by
  rw [← givers_32_iff hlimit hlt]
  constructor
  · intro h r hr r' hr'
    have hone : ∀ r, outcomes 32 limit 1 r = givers 32 limit r := fun r => by
      have hnil : {words : List (BitVec 32) | words.length = 0} = {[]} := by
        ext words
        rw [Set.mem_ofPred_eq, List.length_eq_zero_iff, Set.mem_singleton_iff]
      rw [outcomes_eq_loop hlimit, loopOutcomes_succ, loopOutcomes_zero, hnil, Set.ncard_singleton,
        Nat.mul_one, Nat.mul_zero, Nat.add_zero]
    rw [← hone, ← hone]
    exact h 1 r hr r' hr'
  · intro h n r hr r' hr'
    rw [outcomes_eq_loop hlimit, outcomes_eq_loop hlimit]
    exact loopOutcomes_eq (h r hr r' hr') n

end Below

theorem outcomes_64_six : outcomes 64 6 3 1 = outcomes 64 6 3 5 :=
  outcomes_64 (by decide) (by decide) 3

theorem outcomes_32_iff_three :
    (∀ n, ∀ r < 3, ∀ r' < 3, outcomes 32 3 n r = outcomes 32 3 n r') ↔ 3 ∣ 2 ^ 32 :=
  outcomes_32_iff (by decide) (by decide)

end AflPlusPlus.RandomNumbers
