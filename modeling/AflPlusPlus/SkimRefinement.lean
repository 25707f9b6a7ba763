import AflPlusPlus.CoverageMap

/-!
# The skimming fast path refines bucketing followed by the full scan

Each vector body is reduced to one statement about its pack of words: it reports a
hit exactly when some word of the pack, once bucketed, shares a bit with the virgin
map. The loop lemma then covers the whole map, and the scan of
`AflPlusPlus.CoverageMap` gives the rest.
-/

namespace AflPlusPlus.CoverageMap
open ByteWords

section Packs
variable (virgin current : Mem)

theorem newBitsAt_iff (k : ℕ) : newBitsAt virgin current k = true ↔
    ∃ j < 8, countClassLookup8 (current (8 * k + j)) &&& virgin (8 * k + j) ≠ 0#8 := by
  rw [newBitsAt, bne_iff_ne, ne_zero_iff]
  refine exists_congr (fun j => and_congr_right (fun hj => ?_))
  rw [byteOf_and, byteOf_classifyWord _ hj, byteOf_loadWord _ k hj, byteOf_loadWord _ k hj]

theorem loadWord_ne_zero_of_newBitsAt {k : ℕ} (h : newBitsAt virgin current k = true) :
    loadWord 8 current k ≠ 0 := by
  intro hz
  rw [newBitsAt, hz, classifyWord_zero, bne_iff_ne] at h
  exact h BitVec.zero_and

theorem scalarHit_iff (p : ℕ) :
    scalarHit virgin current p = true ↔ ∃ x < 4, newBitsAt virgin current (p + x) = true := by
  simp only [scalarHit, List.any_eq_true, List.mem_range, Bool.and_eq_true, bne_iff_ne]
  refine exists_congr (fun x => and_congr_right (fun _ => and_iff_right_of_imp ?_))
  exact loadWord_ne_zero_of_newBitsAt virgin current

private theorem getLsbD_movemask_cmpeq (value : ℕ → Word) {b : ℕ} (hb : b < 32) :
    (movemaskEpi8 (cmpeqEpi64 value (fun _ => 0))).getLsbD b = (value (b / 8) == 0) := by
  have hin : 8 * (b % 8) + 7 < 64 := by omega
  simp only [movemaskEpi8, getLsbD_ofBits, hb, decide_true, Bool.true_and, cmpeqEpi64]
  by_cases hv : value (b / 8) = 0
  · rw [if_pos hv, BitVec.getLsbD_allOnes, hv]
    simpa using hin
  · rw [if_neg hv, BitVec.getLsbD_zero, eq_comm]
    exact beq_eq_false_iff_ne.2 hv

/-- The byte of the mask that belongs to lane `x` is clear exactly when the lane
holds a non-zero word. -/
private theorem movemask_lane_iff (value : ℕ → Word) {x : ℕ} (hx : x < 4) :
    (movemaskEpi8 (cmpeqEpi64 value (fun _ => 0)) &&& (0xff#32 <<< (8 * x)) == 0) = true ↔
      value x ≠ 0 := by
  rw [beq_iff_eq]
  have hlane : ∀ b, 8 * x ≤ b → b < 8 * x + 8 → b / 8 = x := by omega
  constructor
  · intro h hz
    have hbit := congrArg (fun m => BitVec.getLsbD m (8 * x)) h
    have hset : (0xff#32 <<< (8 * x)).getLsbD (8 * x) = true := by
      interval_cases x <;> decide
    simp only [BitVec.getLsbD_and, getLsbD_movemask_cmpeq value (show 8 * x < 32 by omega),
      hlane (8 * x) le_rfl (by omega), hz, hset] at hbit
    simp at hbit
  · intro hne
    apply BitVec.eq_of_getLsbD_eq
    intro b hb
    rw [BitVec.getLsbD_and, getLsbD_movemask_cmpeq value hb]
    by_cases hin : 8 * x ≤ b ∧ b < 8 * x + 8
    · rw [hlane b hin.1 hin.2, beq_eq_false_iff_ne.2 hne]
      simp
    · have hclear : (0xff#32 <<< (8 * x)).getLsbD b = false := by
        interval_cases x <;> interval_cases b <;> first | rfl | (exfalso; omega)
      rw [hclear]
      simp

theorem avx2Hit_iff (p : ℕ) :
    avx2Hit virgin current p = true ↔ ∃ x < 4, newBitsAt virgin current (p + x) = true := by
  set value := fun x => loadWord 8 current (p + x) with hvalue
  set mask := movemaskEpi8 (cmpeqEpi64 value (fun _ => 0)) with hmask
  have hunfold : avx2Hit virgin current p = if mask = BitVec.allOnes 32 then false
      else (List.range 4).any (fun x =>
        mask &&& (0xff#32 <<< (8 * x)) == 0 && newBitsAt virgin current (p + x)) := rfl
  rw [hunfold]
  by_cases hall : mask = BitVec.allOnes 32
  · rw [if_pos hall]
    refine iff_of_false (by decide) ?_
    rintro ⟨x, hx, hnew⟩
    have hbit := congrArg (fun m => BitVec.getLsbD m (8 * x)) hall
    simp only [hmask, getLsbD_movemask_cmpeq value (show 8 * x < 32 by omega),
      show 8 * x / 8 = x by omega, BitVec.getLsbD_allOnes, show 8 * x < 32 by omega] at hbit
    exact loadWord_ne_zero_of_newBitsAt virgin current hnew (by simpa using hbit)
  · rw [if_neg hall]
    simp only [List.any_eq_true, List.mem_range, Bool.and_eq_true]
    refine exists_congr (fun x => and_congr_right (fun hx => ?_))
    rw [hmask, movemask_lane_iff value hx]
    exact and_iff_right_of_imp (loadWord_ne_zero_of_newBitsAt virgin current)

private theorem getLsbD_testn (value : ℕ → Word) {x : ℕ} (hx : x < 8) :
    (testnEpi64Mask value value).getLsbD x = (value x == 0) := by
  simp only [testnEpi64Mask, getLsbD_ofBits, hx, decide_true, Bool.true_and, BitVec.and_self]

private theorem testn_lane_iff (value : ℕ → Word) {x : ℕ} (hx : x < 8) :
    (testnEpi64Mask value value &&& (1#8 <<< x) == 0) = true ↔ value x ≠ 0 := by
  rw [beq_iff_eq]
  constructor
  · intro h hz
    have hbit := congrArg (fun m => BitVec.getLsbD m x) h
    have hset : (1#8 <<< x).getLsbD x = true := by interval_cases x <;> decide
    simp only [BitVec.getLsbD_and, getLsbD_testn value hx, hz, hset] at hbit
    simp at hbit
  · intro hne
    apply BitVec.eq_of_getLsbD_eq
    intro b hb
    rw [BitVec.getLsbD_and, getLsbD_testn value hb]
    by_cases hbx : b = x
    · rw [hbx, beq_eq_false_iff_ne.2 hne]
      simp
    · have hclear : (1#8 <<< x).getLsbD b = false := by
        interval_cases x <;> interval_cases b <;> first | rfl | exact absurd rfl hbx
      rw [hclear]
      simp

theorem avx512Hit_iff (p : ℕ) :
    avx512Hit virgin current p = true ↔ ∃ x < 8, newBitsAt virgin current (p + x) = true := by
  set value := fun x => loadWord 8 current (p + x) with hvalue
  set mask := testnEpi64Mask value value with hmask
  have hunfold : avx512Hit virgin current p = if mask = 0xff then false
      else (List.range 8).any (fun x =>
        mask &&& (1#8 <<< x) == 0 && newBitsAt virgin current (p + x)) := rfl
  rw [hunfold]
  by_cases hall : mask = 0xff
  · rw [if_pos hall]
    refine iff_of_false (by decide) ?_
    rintro ⟨x, hx, hnew⟩
    have hbit := congrArg (fun m => BitVec.getLsbD m x) hall
    have hset : (0xff : BitVec 8).getLsbD x = true := by interval_cases x <;> decide
    simp only [hmask, getLsbD_testn value hx, hset] at hbit
    exact loadWord_ne_zero_of_newBitsAt virgin current hnew (by simpa using hbit)
  · rw [if_neg hall]
    simp only [List.any_eq_true, List.mem_range, Bool.and_eq_true]
    refine exists_congr (fun x => and_congr_right (fun hx => ?_))
    rw [hmask, testn_lane_iff value hx]
    exact and_iff_right_of_imp (loadWord_ne_zero_of_newBitsAt virgin current)

/-- All three bodies inspect a pack in the same way. -/
theorem SkimImpl.hit_iff (impl : SkimImpl) (p : ℕ) :
    impl.hit virgin current p = true ↔
      ∃ x < impl.pack, newBitsAt virgin current (p + x) = true := by
  cases impl with
  | scalar => exact scalarHit_iff virgin current p
  | avx2 => exact avx2Hit_iff virgin current p
  | avx512 => exact avx512Hit_iff virgin current p

end Packs

/-- On a whole number of packs the loop ends, and reports whether some pack hit. -/
theorem packLoop_spec (impl : SkimImpl) (hit : ℕ → Bool) (blocks : ℕ) (p fuel : ℕ)
    (hfuel : blocks < fuel) :
    ∃ r, packLoop impl.more impl.pack hit (p + impl.pack * blocks) fuel p = some r ∧
      (r = true ↔ ∃ i < blocks, hit (p + impl.pack * i) = true) := by
  induction blocks generalizing p fuel with
  | zero =>
    obtain ⟨fuel, rfl⟩ : ∃ f, fuel = f + 1 := ⟨fuel - 1, by omega⟩
    have hstop : impl.more p (p + impl.pack * 0) = false := by cases impl <;> simp [SkimImpl.more]
    exact ⟨false, by rw [packLoop, hstop]; rfl, by simp⟩
  | succ blocks ih =>
    obtain ⟨fuel, rfl⟩ : ∃ f, fuel = f + 1 := ⟨fuel - 1, by omega⟩
    have hmore : impl.more p (p + impl.pack * (blocks + 1)) = true := by
      cases impl <;> simp [SkimImpl.more, SkimImpl.pack]
    by_cases hp : hit p = true
    · refine ⟨true, by rw [packLoop, if_pos hmore, if_pos hp], ?_⟩
      exact iff_of_true rfl ⟨0, by omega, by simpa using hp⟩
    · have hend : p + impl.pack * (blocks + 1) = p + impl.pack + impl.pack * blocks := by ring
      obtain ⟨r, hr, hiff⟩ := ih (p + impl.pack) fuel (by omega)
      refine ⟨r, by rw [packLoop, if_pos hmore, if_neg hp, hend, hr], hiff.trans ?_⟩
      constructor
      · rintro ⟨i, hi, hh⟩
        exact ⟨i + 1, by omega, by rwa [show p + impl.pack * (i + 1) =
          p + impl.pack + impl.pack * i by ring]⟩
      · rintro ⟨i, hi, hh⟩
        cases i with
        | zero => exact absurd (by simpa using hh) hp
        | succ i => exact ⟨i, by omega, by rwa [show p + impl.pack * (i + 1) =
            p + impl.pack + impl.pack * i by ring] at hh⟩

/-- `skim` always ends on an aligned map, and finds exactly the words that hold a
new bucketed bit. -/
theorem skim_spec (impl : SkimImpl) (g : MapGeometry) (virgin current : Mem) :
    ∃ r, skim virgin current impl (g.mapSize / 8) = some r ∧
      (r = true ↔ ∃ i < g.mapSize, countClassLookup8 (current i) &&& virgin i ≠ 0#8) := by
  obtain ⟨c, hc⟩ := g.aligned
  have hwords : ∃ blocks, g.mapSize / 8 = 0 + impl.pack * blocks := by
    cases impl with
    | scalar => exact ⟨2 * c, by simp only [SkimImpl.pack]; omega⟩
    | avx2 => exact ⟨2 * c, by simp only [SkimImpl.pack]; omega⟩
    | avx512 => exact ⟨c, by simp only [SkimImpl.pack]; omega⟩
  obtain ⟨blocks, hblocks⟩ := hwords
  have hpos : 0 < impl.pack := by cases impl <;> decide
  have hle : blocks ≤ impl.pack * blocks := Nat.le_mul_of_pos_left blocks hpos
  obtain ⟨r, hr, hiff⟩ := packLoop_spec impl (impl.hit virgin current) blocks 0
    (g.mapSize / 8 + 1) (by omega)
  refine ⟨r, by rw [skim]; rw [← hblocks] at hr; exact hr, hiff.trans ?_⟩
  simp only [SkimImpl.hit_iff, newBitsAt_iff, Nat.zero_add]
  constructor
  · rintro ⟨i, hi, x, hx, j, hj, hne⟩
    have hk : impl.pack * i + x < impl.pack * blocks := by nlinarith
    exact ⟨8 * (impl.pack * i + x) + j, by omega, hne⟩
  · rintro ⟨i, hi, hne⟩
    have hk : i / 8 < impl.pack * blocks := by omega
    have hdecomp : impl.pack * (i / 8 / impl.pack) + i / 8 % impl.pack = i / 8 :=
      Nat.div_add_mod _ _
    refine ⟨i / 8 / impl.pack, Nat.div_lt_of_lt_mul hk, i / 8 % impl.pack,
      Nat.mod_lt _ hpos, i % 8, Nat.mod_lt i (by decide), ?_⟩
    rwa [hdecomp, Nat.div_add_mod]

section Refinement
variable (impl : SkimImpl) (g : MapGeometry) (traceBits virgin : Mem)

/-- Without a new bucketed bit the full scan finds nothing and changes nothing. -/
theorem hasNewBits_classified_of_disjoint
    (h : ∀ i < g.mapSize, countClassLookup8 (traceBits i) &&& virgin i = 0#8) :
    hasNewBits g (classifyCounts g traceBits) virgin = (0, virgin) := by
  refine hasNewBits_of_disjoint g _ virgin fun i hi => ?_
  rw [classifyCounts_apply, if_pos hi]
  exact h i hi

/-- A new bucketed bit inside the map makes the full scan answer non-zero, because
bytes past `real_map_size` are never set. -/
theorem hasNewBits_classified_pos
    (hzero : ∀ i, g.realMapSize ≤ i → i < g.mapSize → traceBits i = 0#8)
    (h : ∃ i < g.mapSize, countClassLookup8 (traceBits i) &&& virgin i ≠ 0#8) :
    0 < (hasNewBits g (classifyCounts g traceBits) virgin).1 := by
  obtain ⟨i, hi, hne⟩ := h
  rw [(hasNewBits_scanned g (classifyCounts g traceBits) virgin).pos_iff]
  have hreal : i < g.realMapSize := by
    by_contra hge
    rw [hzero i (by omega) hi, countClassLookup8_zero, BitVec.zero_and] at hne
    exact hne rfl
  refine ⟨i, ?_, by rwa [classifyCounts_apply, if_pos hi]⟩
  rw [Nat.shiftRight_eq_div_pow]
  omega

/-- The combined routine answers and updates the virgin map as `classify_counts`
followed by `has_new_bits` would; the trace stays raw on a zero answer and is fully
bucketed otherwise. -/
theorem hasNewBitsUnclassified_refines
    (hzero : ∀ i, g.realMapSize ≤ i → i < g.mapSize → traceBits i = 0#8) :
    ∃ ret traceBits' virgin',
      hasNewBitsUnclassified impl g traceBits virgin = some (ret, traceBits', virgin') ∧
      (ret, virgin') = hasNewBits g (classifyCounts g traceBits) virgin ∧
      (ret = 0 → traceBits' = traceBits) ∧
      (ret ≠ 0 → traceBits' = classifyCounts g traceBits) := by
  obtain ⟨r, hr, hiff⟩ := skim_spec impl g virgin traceBits
  cases r with
  | false =>
    have hdisj : ∀ i < g.mapSize, countClassLookup8 (traceBits i) &&& virgin i = 0#8 := by
      intro i hi
      by_contra hne
      exact absurd (hiff.2 ⟨i, hi, hne⟩) (by decide)
    refine ⟨0, traceBits, virgin, by rw [hasNewBitsUnclassified, hr], ?_, fun _ => rfl, ?_⟩
    · exact (hasNewBits_classified_of_disjoint g traceBits virgin hdisj).symm
    · exact fun h => absurd rfl h
  | true =>
    have hpos := hasNewBits_classified_pos g traceBits virgin hzero (hiff.1 rfl)
    refine ⟨(hasNewBits g (classifyCounts g traceBits) virgin).1, classifyCounts g traceBits,
      (hasNewBits g (classifyCounts g traceBits) virgin).2,
      by rw [hasNewBitsUnclassified, hr], rfl, ?_, fun _ => rfl⟩
    intro h0
    omega

/-- The answer alone does not depend on the bytes past `real_map_size`. -/
theorem hasNewBitsUnclassified_ret :
    ∃ traceBits' virgin', hasNewBitsUnclassified impl g traceBits virgin =
      some ((hasNewBits g (classifyCounts g traceBits) virgin).1, traceBits', virgin') := by
  obtain ⟨r, hr, hiff⟩ := skim_spec impl g virgin traceBits
  unfold hasNewBitsUnclassified
  rw [hr]
  cases r with
  | true => exact ⟨_, _, rfl⟩
  | false =>
    refine ⟨traceBits, virgin, ?_⟩
    rw [hasNewBits_classified_of_disjoint]
    intro i hi
    by_contra hne
    exact absurd (hiff.2 ⟨i, hi, hne⟩) (by decide)

end Refinement

/-- A map of one block whose last 54 bytes are padding, with byte 5 hit three times. -/
theorem hasNewBitsUnclassified_refines_padded :
    ∃ ret traceBits' virgin',
      hasNewBitsUnclassified .avx2 ⟨64, 10, by decide, by decide, by decide⟩
        (fun i => if i = 5 then 3#8 else 0#8) (fun _ => 0xff#8) = some (ret, traceBits', virgin') ∧
      (ret, virgin') = hasNewBits ⟨64, 10, by decide, by decide, by decide⟩
        (classifyCounts ⟨64, 10, by decide, by decide, by decide⟩
          (fun i => if i = 5 then 3#8 else 0#8)) (fun _ => 0xff#8) ∧
      (ret = 0 → traceBits' = fun i => if i = 5 then 3#8 else 0#8) ∧
      (ret ≠ 0 → traceBits' = classifyCounts ⟨64, 10, by decide, by decide, by decide⟩
        (fun i => if i = 5 then 3#8 else 0#8)) := by
  refine hasNewBitsUnclassified_refines .avx2 _ _ _ ?_
  intro i hreal _
  exact if_neg (by rintro rfl; exact absurd hreal (by decide))

end AflPlusPlus.CoverageMap
