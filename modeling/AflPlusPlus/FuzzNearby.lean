import AflPlusPlus.SkipDeterministic

/-!
# Bytes near those worth fuzzing

The sweep goes from byte to byte, and from a marked byte to the third one behind it. It starts at
byte 3, and what it fills at the end of the input is one byte short.
-/

namespace AflPlusPlus.SkipDeterministic
open ByteWords MemoryPatches

/-! ## Bitmaps -/

section Bitmaps
variable {map : Mem} {i j : ℕ}

theorem bitmapRead_bitmapSet :
    bitmapRead (bitmapSet map i) j = (decide (j = i) || bitmapRead map j) := by
  have hone : ∀ k < 8, ((1 : Byte) <<< (i % 8)).getLsbD k = decide (k = i % 8) := by
    intro k hk
    have hi : i % 8 < 8 := Nat.mod_lt i (by omega)
    generalize i % 8 = r at hi
    revert k r
    decide
  rw [bitmapRead, bitmapSet, bitmapRead]
  split
  · next hbyte =>
    have hbit : (j % 8 = i % 8) = (j = i) := by
      apply propext
      omega
    rw [BitVec.getLsbD_or, hone _ (Nat.mod_lt j (by omega)), Bool.or_comm]
    simp only [hbit]
  · next hbyte =>
    have hne : j ≠ i := fun heq => hbyte (congrArg (· / 8) heq)
    rw [decide_eq_false hne, Bool.false_or]

/-- Bits are set one after the other. -/
theorem bitmapRead_foldl (p : ℕ → Prop) [DecidablePred p] (n : ℕ) :
    bitmapRead ((List.range n).foldl (fun map i => if p i then bitmapSet map i else map) map) j =
      (decide (j < n ∧ p j) || bitmapRead map j) := by
  induction n with
  | zero => simp
  | succ n ih =>
    rw [List.range_succ, List.foldl_append, List.foldl_cons, List.foldl_nil]
    split
    · next hp =>
      have hsplit : (j < n + 1 ∧ p j) ↔ j = n ∨ (j < n ∧ p j) := by
        constructor
        · rintro ⟨hj, hpj⟩
          obtain hj | rfl := Nat.lt_succ_iff_lt_or_eq.mp hj
          · exact .inr ⟨hj, hpj⟩
          · exact .inl rfl
        · rintro (rfl | ⟨hj, hpj⟩)
          · exact ⟨Nat.lt_succ_self j, hp⟩
          · exact ⟨Nat.lt_succ_of_lt hj, hpj⟩
      rw [bitmapRead_bitmapSet, ih, decide_eq_decide.mpr hsplit, Bool.decide_or, Bool.or_assoc]
    · next hp =>
      have hsame : (j < n + 1 ∧ p j) ↔ (j < n ∧ p j) := by
        constructor
        · rintro ⟨hj, hpj⟩
          obtain hj | rfl := Nat.lt_succ_iff_lt_or_eq.mp hj
          · exact ⟨hj, hpj⟩
          · exact absurd hpj hp
        · exact fun ⟨hj, hpj⟩ => ⟨Nat.lt_succ_of_lt hj, hpj⟩
      rw [ih, decide_eq_decide.mpr hsame]

end Bitmaps

/-! ## The sweep -/

/-- The sweep comes to byte `i` and it is marked: it is not one of the two behind another such
byte. -/
def swept (map : Mem) : ℕ → Bool
  | 0 | 1 | 2 => false
  | i + 3 => bitmapRead map (i + 3) && !swept map (i + 2) && !swept map (i + 1)

theorem three_le_of_swept {map : Mem} {i : ℕ} (h : swept map i = true) : 3 ≤ i := by
  match i, h with
  | i + 3, _ => omega

theorem marked_of_swept {map : Mem} {i : ℕ} (h : swept map i = true) :
    bitmapRead map i = true := by
  match i, h with
  | i + 3, h =>
    rw [swept, Bool.and_eq_true, Bool.and_eq_true] at h
    exact h.1.1

/-- The positions are at most three bytes apart. -/
def Near (i k : ℕ) : Prop := i ≤ k + 3 ∧ k ≤ i + 3

instance (i k : ℕ) : Decidable (Near i k) := inferInstanceAs (Decidable (_ ∧ _))

section Sweep
variable {len : ℕ} {map nearby : Mem} {n i k : ℕ}

/-- What is filled around a byte leaves out the last byte of the input. -/
theorem mem_fill (hi : i + 3 < len) : (i ≤ k ∧ k < i + fillLength len (i + 3)) ↔
    Near (i + 3) k ∧ (i + 3 + 3 < len ∨ k + 1 < len) := by
  rw [fillLength, Near]
  split <;> omega

/-- Some byte from `i` on that the sweep comes to fills byte `k`. -/
def FilledFrom (len : ℕ) (map : Mem) (i k : ℕ) : Prop :=
  ∃ j, i ≤ j ∧ j < len ∧ swept map j ∧ Near j k ∧ (j + 3 < len ∨ k + 1 < len)

theorem not_filledFrom (hi : len ≤ i) : ¬FilledFrom len map i k := by
  rintro ⟨j, hij, hj, -⟩
  omega

/-- A byte fills those near it, or the next byte goes on. -/
theorem filledFrom_iff : FilledFrom len map i k ↔
    (i < len ∧ swept map i ∧ Near i k ∧ (i + 3 < len ∨ k + 1 < len)) ∨
      FilledFrom len map (i + 1) k := by
  constructor
  · rintro ⟨j, hij, hj⟩
    obtain rfl | hlt := Nat.eq_or_lt_of_le hij
    · exact .inl hj
    · exact .inr ⟨j, hlt, hj⟩
  · rintro (h | ⟨j, hij, hj⟩)
    · exact ⟨i, le_rfl, h⟩
    · exact ⟨j, Nat.le_of_succ_le hij, hj⟩

theorem filledFrom_succ (hi : swept map i = false) :
    FilledFrom len map i k ↔ FilledFrom len map (i + 1) k := by
  rw [filledFrom_iff]
  constructor
  · rintro (⟨-, hswept, -⟩ | h)
    · exact absurd (hi.symm.trans hswept) Bool.false_ne_true
    · exact h
  · exact .inr

/-- The sweep fills the bytes near those that it comes to. -/
theorem sweep_ne_zero (hfuel : len ≤ i + 3 + n) (hlast : swept map (i + 2) = false)
    (hlast' : swept map (i + 1) = false) :
    sweep len map n (i + 3) nearby k ≠ 0 ↔ nearby k ≠ 0 ∨ FilledFrom len map (i + 3) k := by
  induction n generalizing i nearby with
  | zero => exact (or_iff_left (not_filledFrom hfuel)).symm
  | succ n ih =>
    rw [sweep]
    split
    · next hlen =>
      split
      · next hmarked =>
        have hswept : swept map (i + 3) = true := by
          rw [swept, hmarked, hlast, hlast']
          rfl
        have hnext : swept map (i + 1 + 3) = false := by
          rw [swept, show swept map (i + 1 + 2) = true from hswept, Bool.not_true, Bool.and_false,
            Bool.false_and]
        have hnext' : swept map (i + 2 + 3) = false := by
          rw [swept, show swept map (i + 2 + 1) = true from hswept, Bool.not_true, Bool.and_false]
        rw [ih (by omega) hnext' hnext, filledFrom_iff (i := i + 3), filledFrom_succ hnext,
          filledFrom_succ hnext', Nat.add_sub_cancel, ← or_assoc]
        apply or_congr_left
        have hfill := mem_fill (k := k) hlen
        by_cases hin : i ≤ k ∧ k < i + fillLength len (i + 3)
        · rw [patch_of_mem hin]
          exact iff_of_true (by decide) (.inr ⟨hlen, hswept, hfill.mp hin⟩)
        · rw [patch_of_not_mem hin]
          exact (or_iff_left fun h => hin (hfill.mpr h.2.2)).symm
      · next hmarked =>
        have hswept : swept map (i + 3) = false := by simp [swept, hmarked]
        rw [ih (i := i + 1) (by omega) hswept hlast, filledFrom_succ hswept]
    · next hlen => exact (or_iff_left (not_filledFrom (by omega))).symm

/-- What is marked after the step: near bytes that the sweep comes to. -/
theorem bitmapRead_fuzzNearby {nonEff : Mem} (hk : k < len) :
    bitmapRead (fuzzNearby len nonEff map) k ↔
      bitmapRead map k ∨ FilledFrom len map 3 k ∧ nonEff k = 0 := by
  have hsweep : sweep len map len 3 (fun _ => 0) k ≠ 0 ↔ (0 : Byte) ≠ 0 ∨ FilledFrom len map 3 k :=
    sweep_ne_zero (i := 0) (by omega) rfl rfl
  rw [fuzzNearby, bitmapRead_foldl (fun i => sweep len map len 3 (fun _ => 0) i ≠ 0 ∧ nonEff i = 0),
    Bool.or_eq_true, decide_eq_true_eq, or_comm]
  apply or_congr_right
  rw [and_iff_right hk]
  apply and_congr_left
  intro _
  exact hsweep.trans (or_iff_right fun h => h rfl)

end Sweep

/-- The step marks exactly the bytes at most three from a marked one that are not recorded as not
effective, and leaves the others as they are, when each of these is near a byte that the sweep comes
to, and that is not one of the last three if it is the last byte itself. -/
theorem fuzzNearby_marks_iff (len : ℕ) (nonEff map : Mem) :
    (∀ k < len, bitmapRead (fuzzNearby len nonEff map) k ↔
      bitmapRead map k ∨ (∃ i < len, bitmapRead map i ∧ Near i k) ∧ nonEff k = 0) ↔
    ∀ k < len, bitmapRead map k = false → nonEff k = 0 →
      ∀ i < len, bitmapRead map i → Near i k →
        ∃ j < len, swept map j ∧ Near j k ∧ (j + 3 < len ∨ k + 1 < len) := by
  have hfilled : ∀ k, FilledFrom len map 3 k ↔
      ∃ j < len, swept map j ∧ Near j k ∧ (j + 3 < len ∨ k + 1 < len) := by
    intro k
    constructor
    · exact fun ⟨j, _, hj⟩ => ⟨j, hj⟩
    · exact fun ⟨j, hj⟩ => ⟨j, three_le_of_swept hj.2.1, hj⟩
  constructor
  · intro h k hk hmarked heff i hi hi' hnear
    have hmarks := (h k hk).mpr (.inr ⟨⟨i, hi, hi', hnear⟩, heff⟩)
    rw [bitmapRead_fuzzNearby hk] at hmarks
    obtain hbefore | ⟨hfill, -⟩ := hmarks
    · exact absurd (hmarked.symm.trans hbefore) Bool.false_ne_true
    · exact (hfilled k).mp hfill
  · intro h k hk
    rw [bitmapRead_fuzzNearby hk]
    constructor
    · rintro (hbefore | ⟨hfill, heff⟩)
      · exact .inl hbefore
      · obtain ⟨j, hj, hswept, hnear, -⟩ := (hfilled k).mp hfill
        exact .inr ⟨⟨j, hj, marked_of_swept hswept, hnear⟩, heff⟩
    · rintro (hbefore | ⟨⟨i, hi, hmarked, hnear⟩, heff⟩)
      · exact .inl hbefore
      · cases hk' : bitmapRead map k with
        | true => exact .inl rfl
        | false => exact .inr ⟨(hfilled k).mpr (h k hk hk' heff i hi hmarked hnear), heff⟩

/-- Byte 2 is marked, and the bytes near it are not. -/
theorem second_byte_not_swept : ¬∀ k < 8,
    (bitmapRead (fuzzNearby 8 (fun _ => 0) (bitmapSet (fun _ => 0) 2)) k ↔
      bitmapRead (bitmapSet (fun _ => 0) 2) k ∨
        (∃ i < 8, bitmapRead (bitmapSet (fun _ => 0) 2) i ∧ Near i k) ∧
          (fun _ => 0 : Mem) k = 0) := by
  decide

end AflPlusPlus.SkipDeterministic
