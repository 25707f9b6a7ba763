import AflPlusPlus.ByteWords

/-!
# Scans of two byte maps by words

A scan looks at two maps one word after another and clears in the second map the bits that it
finds in both. Whatever the size of the words, what it answers and leaves behind is a matter of
the single bytes.
-/

namespace AflPlusPlus.WordScans
open ByteWords

/-- Clears the bits of `current` in `other`; `ret` grows to 1 when there are any, and to 2 when
some byte that is hit in `current` has all of its bits in `other`. -/
def discover (n : ℕ) (ret : ℕ) (current other : BitVec (8 * n)) : ℕ × BitVec (8 * n) :=
  if current &&& other ≠ 0 then
    (if ret < 2 then
      if (List.range n).any (fun j => byteOf current j != 0 && byteOf other j == 0xff)
      then 2 else 1
    else ret, other &&& ~~~current)
  else (ret, other)

/-- One word; a word of zeros is skipped. -/
def scanStep (n : ℕ) (bytes : Mem) (s : ℕ × Mem) (k : ℕ) : ℕ × Mem :=
  if loadWord n bytes k ≠ 0 then
    let found := discover n s.1 (loadWord n bytes k) (loadWord n s.2 k)
    (found.1, storeWord n s.2 k found.2)
  else s

def scan (n count : ℕ) (bytes other : Mem) : ℕ × Mem :=
  (List.range count).foldl (scanStep n bytes) (0, other)

/-- State of the scan after `k` words. -/
structure Scanned (n : ℕ) (bytes other : Mem) (k : ℕ) (s : ℕ × Mem) : Prop where
  virgin_eq : ∀ i, s.2 i = if i / n < k then other i &&& ~~~bytes i else other i
  le_two : s.1 ≤ 2
  pos_iff : 0 < s.1 ↔ ∃ i, i / n < k ∧ bytes i &&& other i ≠ 0#8
  two_iff : s.1 = 2 ↔ ∃ i, i / n < k ∧ bytes i ≠ 0#8 ∧ other i = 0xff#8

section Scan
variable {n k : ℕ} {bytes other : Mem} {s : ℕ × Mem}

theorem Scanned.init : Scanned n bytes other 0 (0, other) := by
  constructor <;> simp

theorem exists_below_succ (hn : 0 < n) (P : ℕ → Prop) :
    (∃ i, i / n < k + 1 ∧ P i) ↔ (∃ i, i / n < k ∧ P i) ∨ ∃ j < n, P (n * k + j) := by
  constructor
  · rintro ⟨i, hi, hP⟩
    rcases Nat.lt_succ_iff_lt_or_eq.mp hi with hlt | heq
    · exact .inl ⟨i, hlt, hP⟩
    · refine .inr ⟨i % n, Nat.mod_lt i hn, ?_⟩
      rwa [← heq, Nat.div_add_mod]
  · rintro (⟨i, hi, hP⟩ | ⟨j, hj, hP⟩)
    · exact ⟨i, hi.trans k.lt_succ_self, hP⟩
    · refine ⟨n * k + j, ?_, hP⟩
      rw [Nat.mul_add_div hn, Nat.div_eq_of_lt hj]
      exact k.lt_succ_self

theorem Scanned.loadWord_eq (h : Scanned n bytes other k s) :
    loadWord n s.2 k = loadWord n other k := by
  refine eq_of_byteOf_eq fun j hj => ?_
  have hdiv : (n * k + j) / n = k := by
    rw [Nat.mul_add_div (Nat.zero_lt_of_lt hj), Nat.div_eq_of_lt hj, Nat.add_zero]
  rw [byteOf_loadWord _ k hj, byteOf_loadWord _ k hj, h.virgin_eq, hdiv, if_neg (lt_irrefl k)]

theorem full_shares {a b : Byte} (ha : a ≠ 0#8) (hb : b = 0xff#8) : a &&& b ≠ 0#8 := by
  rw [hb, show (0xff#8 : Byte) = BitVec.allOnes 8 from rfl, BitVec.and_allOnes]
  exact ha

/-- A word without common bits leaves the scan as it was. -/
theorem Scanned.skip (h : Scanned n bytes other k s) (hn : 0 < n)
    (hno : ∀ j < n, bytes (n * k + j) &&& other (n * k + j) = 0#8) :
    Scanned n bytes other (k + 1) s where
  virgin_eq i := by
    rw [h.virgin_eq]
    by_cases hi : i / n = k
    · have hz := hno (i % n) (Nat.mod_lt i hn)
      rw [← hi, Nat.div_add_mod] at hz
      rw [if_neg (by omega), if_pos (by omega), and_not_eq_self hz]
    · have hiff : i / n < k + 1 ↔ i / n < k := by omega
      simp only [hiff]
  le_two := h.le_two
  pos_iff := by
    rw [h.pos_iff, exists_below_succ hn]
    refine (or_iff_left ?_).symm
    rintro ⟨j, hj, hne⟩
    exact hne (hno j hj)
  two_iff := by
    rw [h.two_iff, exists_below_succ hn]
    refine (or_iff_left ?_).symm
    rintro ⟨j, hj, hne, hff⟩
    exact full_shares hne hff (hno j hj)

theorem scanStep_of_disjoint (h : Scanned n bytes other k s) (hn : 0 < n)
    (hno : ∀ j < n, bytes (n * k + j) &&& other (n * k + j) = 0#8) :
    scanStep n bytes s k = s := by
  have hand : loadWord n bytes k &&& loadWord n s.2 k = 0 := by
    rw [h.loadWord_eq]
    by_contra hne
    obtain ⟨j, hj, hj'⟩ := (loadWord_and_ne_zero_iff bytes other k).mp hne
    exact hj' (hno j hj)
  by_cases hz : loadWord n bytes k = 0
  · rw [scanStep, if_neg (not_not.mpr hz)]
  · have hd : discover n s.1 (loadWord n bytes k) (loadWord n s.2 k) =
        (s.1, loadWord n s.2 k) := by
      rw [discover, if_neg (not_not.mpr hand)]
    rw [scanStep, if_pos hz, hd]
    simp only [storeWord_loadWord hn]

/-- Whether the word holds a hit byte over one with all of its bits. -/
theorem any_full_iff (h : Scanned n bytes other k s) :
    ((List.range n).any fun j => byteOf (loadWord n bytes k) j != 0 &&
      byteOf (loadWord n s.2 k) j == 0xff) = true ↔
      ∃ j < n, bytes (n * k + j) ≠ 0#8 ∧ other (n * k + j) = 0xff#8 := by
  rw [h.loadWord_eq, List.any_eq_true]
  refine exists_congr fun j => ?_
  rw [List.mem_range]
  refine and_congr_right fun hj => ?_
  rw [byteOf_loadWord _ k hj, byteOf_loadWord _ k hj]
  simp

theorem Scanned.found (h : Scanned n bytes other k s) (hn : 0 < n)
    (hsome : ∃ j < n, bytes (n * k + j) &&& other (n * k + j) ≠ 0#8) :
    Scanned n bytes other (k + 1) (scanStep n bytes s k) := by
  have hand : loadWord n bytes k &&& loadWord n s.2 k ≠ 0 := by
    rw [h.loadWord_eq]
    exact (loadWord_and_ne_zero_iff bytes other k).mpr hsome
  have hz : loadWord n bytes k ≠ 0 := by
    intro h0
    rw [h0] at hand
    exact hand BitVec.zero_and
  have hfull := any_full_iff h
  set full := (List.range n).any fun j => byteOf (loadWord n bytes k) j != 0 &&
    byteOf (loadWord n s.2 k) j == 0xff with hdef
  have hstep : scanStep n bytes s k = (if s.1 < 2 then if full then 2 else 1 else s.1,
      storeWord n s.2 k (loadWord n s.2 k &&& ~~~loadWord n bytes k)) := by
    rw [scanStep, if_pos hz, discover, if_pos hand]
  rw [hstep]
  have hle := h.le_two
  refine ⟨fun i => ?_, ?_, ?_, ?_⟩
  · by_cases hi : i / n = k
    · have hmod : i % n < n := Nat.mod_lt i hn
      have hdecomp : n * k + i % n = i := by
        rw [← hi]
        exact Nat.div_add_mod i n
      have hget := storeWord_apply s.2 k (loadWord n s.2 k &&& ~~~loadWord n bytes k) hmod
      rw [byteOf_and, byteOf_not _ hmod, byteOf_loadWord _ k hmod, byteOf_loadWord _ k hmod,
        hdecomp, h.virgin_eq, if_neg (by omega)] at hget
      exact hget.trans (if_pos (show i / n < k + 1 by omega)).symm
    · have hiff : i / n < k + 1 ↔ i / n < k := by omega
      simp only [storeWord_of_ne _ _ _ hi, h.virgin_eq, hiff]
  · dsimp only
    split_ifs <;> omega
  · rw [exists_below_succ hn]
    refine iff_of_true ?_ (.inr hsome)
    dsimp only
    split_ifs <;> omega
  · rw [exists_below_succ hn, ← h.two_iff, ← hfull]
    dsimp only
    split_ifs <;> simp_all <;> omega

theorem Scanned.step (h : Scanned n bytes other k s) (hn : 0 < n) :
    Scanned n bytes other (k + 1) (scanStep n bytes s k) := by
  by_cases hsome : ∃ j < n, bytes (n * k + j) &&& other (n * k + j) ≠ 0#8
  · exact h.found hn hsome
  · have hno : ∀ j < n, bytes (n * k + j) &&& other (n * k + j) = 0#8 := by
      simpa using hsome
    rw [scanStep_of_disjoint h hn hno]
    exact h.skip hn hno

/-- What the scan of `count` words answers and leaves behind. -/
theorem scan_scanned (hn : 0 < n) (count : ℕ) (bytes other : Mem) :
    Scanned n bytes other count (scan n count bytes other) := by
  unfold scan
  induction count with
  | zero => exact .init
  | succ count ih =>
    rw [List.range_succ, List.foldl_append, List.foldl_cons, List.foldl_nil]
    exact ih.step hn

end Scan

/-! ## Scans that cover the bytes that are hit -/

/-- What a scan says about the first `len` bytes. -/
structure Exact (len : ℕ) (bytes other : Mem) (r : ℕ × Mem) : Prop where
  two_iff : r.1 = 2 ↔ ∃ i < len, bytes i ≠ 0 ∧ other i = 0xff
  one_iff : r.1 = 1 ↔ (¬∃ i < len, bytes i ≠ 0 ∧ other i = 0xff) ∧
    ∃ i < len, bytes i &&& other i ≠ 0
  zero_iff : r.1 = 0 ↔ ¬∃ i < len, bytes i &&& other i ≠ 0
  cleared : ∀ i, r.2 i = if i < len then other i &&& ~~~bytes i else other i

section Exact
variable {n count len : ℕ} {bytes other : Mem} {r r' : ℕ × Mem}

/-- The words reach all bytes that are hit, and no further than `len`. -/
theorem scan_exact (hn : 0 < n) (hin : n * count ≤ len)
    (hzero : ∀ i, n * count ≤ i → i < len → bytes i = 0) :
    Exact len bytes other (scan n count bytes other) := by
  have h := scan_scanned hn count bytes other
  have hlt : ∀ i, i / n < count ↔ i < n * count := fun i => by
    rw [Nat.div_lt_iff_lt_mul hn, Nat.mul_comm]
  have hreach : ∀ {P : ℕ → Prop}, (∀ i, P i → bytes i ≠ 0) →
      ((∃ i, i / n < count ∧ P i) ↔ ∃ i < len, P i) := by
    intro P hP
    refine exists_congr fun i => and_congr_left fun hi => ?_
    rw [hlt]
    refine ⟨fun h => h.trans_le hin, fun hi' => ?_⟩
    by_contra hge
    exact hP i hi (hzero i (not_lt.mp hge) hi')
  have hpos : 0 < (scan n count bytes other).1 ↔ ∃ i < len, bytes i &&& other i ≠ 0 := by
    refine h.pos_iff.trans (hreach fun i hi h0 => hi ?_)
    rw [h0]
    exact BitVec.zero_and
  have htwo : (scan n count bytes other).1 = 2 ↔ ∃ i < len, bytes i ≠ 0 ∧ other i = 0xff :=
    h.two_iff.trans (hreach fun i hi => hi.1)
  have hle := h.le_two
  refine ⟨htwo, ?_, ?_, fun i => ?_⟩
  · rw [← htwo, ← hpos]
    omega
  · rw [← hpos]
    omega
  · rw [h.virgin_eq]
    simp only [hlt]
    by_cases hi : i < n * count
    · rw [if_pos hi, if_pos (hi.trans_le hin)]
    · rw [if_neg hi]
      split_ifs with hi'
      · rw [hzero i (not_lt.mp hi) hi']
        exact (BitVec.and_allOnes ..).symm
      · rfl

theorem Exact.unique (h : Exact len bytes other r) (h' : Exact len bytes other r') : r = r' := by
  have hle : ∀ {r : ℕ × Mem}, Exact len bytes other r → r.1 = 0 ∨ r.1 = 1 ∨ r.1 = 2 := by
    intro r h
    rw [h.zero_iff, h.one_iff, h.two_iff]
    by_cases hany : ∃ i < len, bytes i &&& other i ≠ 0
    · by_cases hfull : ∃ i < len, bytes i ≠ 0 ∧ other i = 0xff
      · exact .inr (.inr hfull)
      · exact .inr (.inl ⟨hfull, hany⟩)
    · exact .inl hany
  refine Prod.ext ?_ (funext fun i => (h.cleared i).trans (h'.cleared i).symm)
  rcases hle h with h0 | h1 | h2
  · rw [h0, h'.zero_iff.mpr (h.zero_iff.mp h0)]
  · rw [h1, h'.one_iff.mpr (h.one_iff.mp h1)]
  · rw [h2, h'.two_iff.mpr (h.two_iff.mp h2)]

/-- The bits that were found are gone, so the same bytes find nothing again. -/
theorem Exact.again (h : Exact len bytes other r) (h' : Exact len bytes r.2 r') :
    r' = (0, r.2) := by
  have hdisjoint : ∀ i < len, bytes i &&& r.2 i = 0 := by
    intro i hi
    rw [h.cleared, if_pos hi]
    exact and_and_not _ _
  refine Prod.ext (h'.zero_iff.mpr fun ⟨i, hi, hne⟩ => hne (hdisjoint i hi)) (funext fun i => ?_)
  rw [h'.cleared]
  split_ifs with hi
  · exact and_not_eq_self (hdisjoint i hi)
  · rfl

end Exact

end AflPlusPlus.WordScans
