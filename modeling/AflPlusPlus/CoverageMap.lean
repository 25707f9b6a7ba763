import AflPlusPlus.WordScans

/-!
# Coverage map processing

The routines of `coverage-64.h` and `afl-fuzz-bitmap.c` that bucket the raw hit
counts of a trace, look for bits that are still set in a virgin map, and clear
them. The three `skim` bodies (scalar, AVX2, AVX512) differ in the number of words
they load at once and in how they detect zero words.
-/

namespace AflPlusPlus.CoverageMap
open ByteWords

abbrev Word := BitVec (8 * 8)

/-- The two sizes a fork server keeps for its map. Both start-up paths round
`map_size` up from `real_map_size` to a multiple of 64. -/
structure MapGeometry where
  mapSize : ℕ
  realMapSize : ℕ
  real_le : realMapSize ≤ mapSize
  aligned : 64 ∣ mapSize
  lt_u32 : mapSize < 2 ^ 32

/-- `simplify_lookup[256]`. -/
def simplifyLookup (b : Byte) : Byte := if b = 0 then 1 else 128

/-- `count_class_lookup8[256]`. -/
def countClassLookup8 (b : Byte) : Byte :=
  if b = 0 then 0 else if b = 1 then 1 else if b = 2 then 2 else if b = 3 then 4
  else if b ≤ 7 then 8 else if b ≤ 15 then 16 else if b ≤ 31 then 32
  else if b ≤ 127 then 64 else 128

@[simp] theorem countClassLookup8_zero : countClassLookup8 0#8 = 0#8 := rfl

/-- The entry that `init_count_class16` computes for a pair of bytes. -/
def countClassPair (b1 b2 : ℕ) : BitVec 16 :=
  ((countClassLookup8 (BitVec.ofNat 8 b1)).setWidth 16 <<< 8) |||
    (countClassLookup8 (BitVec.ofNat 8 b2)).setWidth 16

/-- The inner loop of `init_count_class16`, for a fixed high byte. -/
def initCountClassRow (b1 count : ℕ) (table : ℕ → BitVec 16) : ℕ → BitVec 16 :=
  (List.range count).foldl (fun table b2 =>
    Function.update table ((b1 <<< 8) + b2) (countClassPair b1 b2)) table

def initCountClass16 (table : ℕ → BitVec 16) : ℕ → BitVec 16 :=
  (List.range 256).foldl (fun table b1 => initCountClassRow b1 256 table) table

/-- The global table after start-up. -/
def countClassLookup16 (x : BitVec 16) : BitVec 16 := initCountClass16 (fun _ => 0) x.toNat

def classifyWord (word : Word) : Word :=
  let mem16 := fun i => countClassLookup16 (word.extractLsb' (16 * i) 16)
  mem16 3 ++ mem16 2 ++ mem16 1 ++ mem16 0

/-- The body of `simplify_trace` for one word. -/
def simplifyWord (word : Word) : Word :=
  if word ≠ 0 then ofBytes 8 (fun j => simplifyLookup (byteOf word j)) else 0x0101010101010101

def simplifyTrace (g : MapGeometry) (bytes : Mem) : Mem :=
  mapWords 8 simplifyWord (g.mapSize >>> 3) bytes

def classifyCounts (g : MapGeometry) (traceBits : Mem) : Mem :=
  mapWords 8 (fun word => if word ≠ 0 then classifyWord word else word) (g.mapSize >>> 3) traceBits

/-- Clears the bits of `current` in `virgin`; `ret` records whether a new count
(1) or a new tuple (2) was seen. -/
def discoverWord (ret : ℕ) (current virgin : Word) : ℕ × Word :=
  if current &&& virgin ≠ 0 then
    (if ret < 2 then
      if (List.range 8).any (fun j => byteOf current j != 0 && byteOf virgin j == 0xff)
      then 2 else 1
    else ret, virgin &&& ~~~current)
  else (ret, virgin)

/-- One iteration of the `has_new_bits` loop. -/
def hasNewBitsStep (traceBits : Mem) (s : ℕ × Mem) (k : ℕ) : ℕ × Mem :=
  if loadWord 8 traceBits k ≠ 0 then
    let found := discoverWord s.1 (loadWord 8 traceBits k) (loadWord 8 s.2 k)
    (found.1, storeWord 8 s.2 k found.2)
  else s

def hasNewBits (g : MapGeometry) (traceBits virgin : Mem) : ℕ × Mem :=
  (List.range ((g.realMapSize + 7) >>> 3)).foldl (hasNewBitsStep traceBits) (0, virgin)

/-- The loop shared by the `skim` bodies: `hit` inspects one pack of words, and
`more` is the loop test, which the AVX512 body writes with `!=`. -/
def packLoop (more : ℕ → ℕ → Bool) (pack : ℕ) (hit : ℕ → Bool) (currentEnd : ℕ) :
    ℕ → ℕ → Option Bool
  | 0, _ => none
  | fuel + 1, current =>
    if more current currentEnd then
      if hit current then some true
      else packLoop more pack hit currentEnd fuel (current + pack)
    else some false

/-- `_mm256_cmpeq_epi64` on four lanes. -/
def cmpeqEpi64 (a b : ℕ → Word) : ℕ → Word := fun x => if a x = b x then BitVec.allOnes _ else 0#_

/-- `_mm256_movemask_epi8`: the top bit of each of the 32 bytes. -/
def movemaskEpi8 (a : ℕ → Word) : BitVec 32 :=
  ofBits 32 (fun b => (a (b / 8)).getLsbD (8 * (b % 8) + 7))

/-- `_mm512_testn_epi64_mask`: the lanes whose conjunction is zero. -/
def testnEpi64Mask (a b : ℕ → Word) : BitVec 8 :=
  ofBits 8 (fun x => a x &&& b x == 0)

section Skim
variable (virgin current : Mem)

/-- `classify_word(current[x]) & virgin[x]` is non-zero. -/
def newBitsAt (k : ℕ) : Bool := classifyWord (loadWord 8 current k) &&& loadWord 8 virgin k != 0

def scalarHit (p : ℕ) : Bool :=
  (List.range 4).any (fun x => loadWord 8 current (p + x) != 0 && newBitsAt virgin current (p + x))

def avx2Hit (p : ℕ) : Bool :=
  let value := fun x => loadWord 8 current (p + x)
  let mask := movemaskEpi8 (cmpeqEpi64 value (fun _ => 0))
  if mask = BitVec.allOnes 32 then false
  else (List.range 4).any (fun x =>
    mask &&& (0xff#32 <<< (8 * x)) == 0 && newBitsAt virgin current (p + x))

def avx512Hit (p : ℕ) : Bool :=
  let value := fun x => loadWord 8 current (p + x)
  let mask := testnEpi64Mask value value
  if mask = 0xff then false
  else (List.range 8).any (fun x =>
    mask &&& (1#8 <<< x) == 0 && newBitsAt virgin current (p + x))

inductive SkimImpl
  | scalar | avx2 | avx512
  deriving DecidableEq, Repr

def SkimImpl.pack : SkimImpl → ℕ
  | .scalar | .avx2 => 4
  | .avx512 => 8

def SkimImpl.more : SkimImpl → ℕ → ℕ → Bool
  | .scalar | .avx2 => fun p e => p < e
  | .avx512 => fun p e => p != e

def SkimImpl.hit : SkimImpl → ℕ → Bool
  | .scalar => scalarHit virgin current
  | .avx2 => avx2Hit virgin current
  | .avx512 => avx512Hit virgin current

/-- `skim`, with pointers counted in words from the start of the map. Each
iteration advances the pointer, so the bound on iterations is never met when the
loop test can fail. -/
def skim (impl : SkimImpl) (currentEnd : ℕ) : Option Bool :=
  packLoop impl.more impl.pack (impl.hit virgin current) currentEnd (currentEnd + 1) 0

end Skim

/-- The verdict, the trace map and the virgin map that the call leaves behind. -/
def hasNewBitsUnclassified (impl : SkimImpl) (g : MapGeometry) (traceBits virgin : Mem) :
    Option (ℕ × Mem × Mem) :=
  match skim virgin traceBits impl (g.mapSize / 8) with
  | none => none
  | some false => some (0, traceBits, virgin)
  | some true =>
    let traceBits := classifyCounts g traceBits
    let found := hasNewBits g traceBits virgin
    some (found.1, traceBits, found.2)

/-- Sets bit `i` of `dst` for every non-zero byte `i` of `src`. -/
def minimizeBits (g : MapGeometry) (dst src : Mem) : Mem :=
  (List.range g.mapSize).foldl (fun dst i =>
    if src i ≠ 0 then Function.update dst (i >>> 3) (dst (i >>> 3) ||| (1#8 <<< (i &&& 7)))
    else dst) dst

/-- Bit `i` of a bitmap. -/
def bitSet (m : Mem) (i : ℕ) : Bool := m (i >>> 3) &&& (1#8 <<< (i &&& 7)) != 0

/-! ## Bucketing acts on each byte -/

private theorem initCountClassRow_apply (b1 n : ℕ) (hn : n ≤ 256) (table : ℕ → BitVec 16)
    (i : ℕ) : initCountClassRow b1 n table i =
      if i / 256 = b1 ∧ i % 256 < n then countClassPair b1 (i % 256) else table i := by
  induction n with
  | zero => simp [initCountClassRow]
  | succ n ih =>
    have hshift : b1 <<< 8 = b1 * 256 := Nat.shiftLeft_eq b1 8
    have hstep : initCountClassRow b1 (n + 1) table = Function.update
        (initCountClassRow b1 n table) (b1 * 256 + n) (countClassPair b1 n) := by
      simp [initCountClassRow, List.range_succ, hshift]
    rw [hstep, Function.update_apply, ih (by omega)]
    by_cases hi : i = b1 * 256 + n
    · have h0 : (b1 * 256 + n) / 256 = b1 := by omega
      have h1 : (b1 * 256 + n) % 256 = n := by omega
      simp [hi, h0, h1]
    · have hiff : (i / 256 = b1 ∧ i % 256 < n + 1) ↔ (i / 256 = b1 ∧ i % 256 < n) := by omega
      simp only [hi, ↓reduceIte, hiff]

private theorem initCountClassRows_apply (table : ℕ → BitVec 16) (n i : ℕ) :
    (List.range n).foldl (fun table b1 => initCountClassRow b1 256 table) table i =
      if i / 256 < n then countClassPair (i / 256) (i % 256) else table i := by
  induction n with
  | zero => simp
  | succ n ih =>
    have hmod : i % 256 < 256 := Nat.mod_lt i (by decide)
    rw [List.range_succ, List.foldl_append, List.foldl_cons, List.foldl_nil,
      initCountClassRow_apply n 256 le_rfl, ih]
    by_cases hi : i / 256 = n
    · simp [hi, hmod]
    · have hiff : i / 256 < n + 1 ↔ i / 256 < n := by omega
      simp only [hi, hiff, false_and, ↓reduceIte]

/-- Every entry of the 16-bit table buckets its two bytes separately. -/
theorem countClassLookup16_eq (x : BitVec 16) :
    countClassLookup16 x = countClassLookup8 (byteOf x 1) ++ countClassLookup8 (byteOf x 0) := by
  have hx : x.toNat / 256 < 256 := by omega
  have h1 : BitVec.ofNat 8 (x.toNat / 256) = byteOf x 1 := by
    apply BitVec.eq_of_toNat_eq
    simp [byteOf, BitVec.extractLsb', Nat.shiftRight_eq_div_pow]
  have h0 : BitVec.ofNat 8 (x.toNat % 256) = byteOf x 0 := by
    apply BitVec.eq_of_toNat_eq
    simp [byteOf, BitVec.extractLsb']
  rw [countClassLookup16, initCountClass16, initCountClassRows_apply, if_pos hx, countClassPair,
    h0, h1, ← BitVec.setWidth_append_eq_shiftLeft_setWidth_or, BitVec.setWidth_eq]

/-- Bytes of a word assembled from four 16-bit halves, as `memcpy` lays them out. -/
private theorem byteOf_halves (h : ℕ → BitVec 16) {j : ℕ} (hj : j < 8) :
    byteOf (h 3 ++ h 2 ++ h 1 ++ h 0) j = byteOf (h (j / 2)) (j % 2) := by
  interval_cases j <;> simp only [byteOf]
  · rw [BitVec.extractLsb'_append_eq_of_add_le (by decide)]
  · rw [BitVec.extractLsb'_append_eq_of_add_le (by decide)]
  · rw [BitVec.extractLsb'_append_eq_of_le (by decide),
      BitVec.extractLsb'_append_eq_of_add_le (by decide)]
  · rw [BitVec.extractLsb'_append_eq_of_le (by decide),
      BitVec.extractLsb'_append_eq_of_add_le (by decide)]
  · rw [BitVec.extractLsb'_append_eq_of_le (by decide),
      BitVec.extractLsb'_append_eq_of_le (by decide),
      BitVec.extractLsb'_append_eq_of_add_le (by decide)]
  · rw [BitVec.extractLsb'_append_eq_of_le (by decide),
      BitVec.extractLsb'_append_eq_of_le (by decide),
      BitVec.extractLsb'_append_eq_of_add_le (by decide)]
  · rw [BitVec.extractLsb'_append_eq_of_le (by decide),
      BitVec.extractLsb'_append_eq_of_le (by decide),
      BitVec.extractLsb'_append_eq_of_le (by decide)]
  · rw [BitVec.extractLsb'_append_eq_of_le (by decide),
      BitVec.extractLsb'_append_eq_of_le (by decide),
      BitVec.extractLsb'_append_eq_of_le (by decide)]

theorem byteOf_countClassLookup16 (x : BitVec 16) {i : ℕ} (hi : i < 2) :
    byteOf (countClassLookup16 x) i = countClassLookup8 (byteOf x i) := by
  rw [countClassLookup16_eq]
  interval_cases i
  · exact BitVec.extractLsb'_append_eq_right
  · exact BitVec.extractLsb'_append_eq_left

/-- Byte `j` of a word is in its half `j / 2`. -/
theorem byteOf_half {w : ℕ} (word : BitVec w) (j : ℕ) :
    byteOf (word.extractLsb' (16 * (j / 2)) 16) (j % 2) = byteOf word j := by
  apply BitVec.eq_of_getLsbD_eq
  intro b hb
  have h0 : 8 * (j % 2) + b < 16 := by omega
  have h1 : 16 * (j / 2) + (8 * (j % 2) + b) = 8 * j + b := by omega
  simp [byteOf, hb, h0, h1]

theorem byteOf_classifyWord (word : Word) {j : ℕ} (hj : j < 8) :
    byteOf (classifyWord word) j = countClassLookup8 (byteOf word j) := by
  calc byteOf (classifyWord word) j
      = byteOf (countClassLookup16 (word.extractLsb' (16 * (j / 2)) 16)) (j % 2) :=
        byteOf_halves (fun i => countClassLookup16 (word.extractLsb' (16 * i) 16)) hj
    _ = countClassLookup8 (byteOf word j) := by
        rw [byteOf_countClassLookup16 _ (Nat.mod_lt j (by decide)), byteOf_half]

@[simp] theorem classifyWord_zero : classifyWord 0 = 0 :=
  (eq_zero_iff _).2 (fun j hj => by rw [byteOf_classifyWord 0 hj]; exact congrArg _ (byteOf_zero j))

/-- The word loops over the whole map end at its last byte. -/
theorem div_lt_words_iff (g : MapGeometry) (i : ℕ) : i / 8 < g.mapSize >>> 3 ↔ i < g.mapSize := by
  have h8 : 8 ∣ g.mapSize := Dvd.dvd.trans (by decide) g.aligned
  rw [Nat.shiftRight_eq_div_pow]
  omega

theorem classifyCounts_apply (g : MapGeometry) (traceBits : Mem) (i : ℕ) :
    classifyCounts g traceBits i =
      if i < g.mapSize then countClassLookup8 (traceBits i) else traceBits i := by
  have hword : ∀ (word : Word) (j : ℕ), j < 8 →
      byteOf (if word ≠ 0 then classifyWord word else word) j =
        countClassLookup8 (byteOf word j) := by
    intro word j hj
    rw [← byteOf_classifyWord word hj]
    split
    · rfl
    · next hzero => rw [not_not.mp hzero, classifyWord_zero]
  rw [classifyCounts, mapWords_bytes (by decide) hword]
  simp only [div_lt_words_iff]

theorem byteOf_simplifyWord (word : Word) {j : ℕ} (hj : j < 8) :
    byteOf (simplifyWord word) j = simplifyLookup (byteOf word j) := by
  unfold simplifyWord
  split
  · rw [byteOf_ofBytes _ hj]
  · rename_i hzero
    rw [not_not] at hzero
    subst hzero
    interval_cases j <;> rfl

theorem simplifyTrace_apply (g : MapGeometry) (bytes : Mem) (i : ℕ) :
    simplifyTrace g bytes i = if i < g.mapSize then simplifyLookup (bytes i) else bytes i := by
  rw [simplifyTrace, mapWords_bytes (by decide) fun word j hj => byteOf_simplifyWord word hj]
  simp only [div_lt_words_iff]

/-! ## What `has_new_bits` computes -/

theorem hasNewBits_eq_scan (g : MapGeometry) (traceBits virgin : Mem) :
    hasNewBits g traceBits virgin =
      WordScans.scan 8 ((g.realMapSize + 7) >>> 3) traceBits virgin :=
  rfl

/-- The whole scan covers the words that contain a byte below `real_map_size`. -/
theorem hasNewBits_scanned (g : MapGeometry) (traceBits virgin : Mem) :
    WordScans.Scanned 8 traceBits virgin ((g.realMapSize + 7) >>> 3)
      (hasNewBits g traceBits virgin) :=
  WordScans.scan_scanned (by decide) _ traceBits virgin

theorem scan_word_lt (g : MapGeometry) {i : ℕ} (h : i / 8 < (g.realMapSize + 7) >>> 3) :
    i < g.mapSize := by
  have h8 : 8 ∣ g.mapSize := Dvd.dvd.trans (by decide) g.aligned
  have := g.real_le
  rw [Nat.shiftRight_eq_div_pow] at h
  omega

/-- A trace that shares no bit with the virgin map leaves it as it is. -/
theorem hasNewBits_of_disjoint (g : MapGeometry) (traceBits virgin : Mem)
    (h : ∀ i < g.mapSize, traceBits i &&& virgin i = 0#8) :
    hasNewBits g traceBits virgin = (0, virgin) := by
  have hs := hasNewBits_scanned g traceBits virgin
  apply Prod.ext
  · have hzero : ¬ 0 < (hasNewBits g traceBits virgin).1 := by
      rw [hs.pos_iff]
      rintro ⟨i, hi, hne⟩
      exact hne (h i (scan_word_lt g hi))
    dsimp only
    omega
  · funext i
    rw [hs.virgin_eq]
    split_ifs with hi
    · exact and_not_eq_self (h i (scan_word_lt g hi))
    · rfl

/-! ## Bitmaps -/

theorem bitSet_eq (m : Mem) (i : ℕ) : bitSet m i = (m (i / 8)).getLsbD (i % 8) := by
  have hand : i &&& 7 = i % 8 := Nat.and_two_pow_sub_one_eq_mod i 3
  have hlt : i % 8 < 8 := Nat.mod_lt i (by decide)
  rw [bitSet, hand, Nat.shiftRight_eq_div_pow, show 2 ^ 3 = 8 from rfl, ← BitVec.twoPow_eq,
    BitVec.and_twoPow]
  by_cases hb : (m (i / 8)).getLsbD (i % 8) = true
  · rw [if_pos hb, hb, bne_iff_ne]
    intro h0
    have hbit := congrArg (fun x => BitVec.getLsbD x (i % 8)) h0
    simp [hlt] at hbit
  · rw [if_neg hb]
    simpa using hb

theorem bitSet_update_or (m : Mem) (k i : ℕ) :
    bitSet (Function.update m (k >>> 3) (m (k >>> 3) ||| (1#8 <<< (k &&& 7)))) i =
      (bitSet m i || decide (i = k)) := by
  have hand : k &&& 7 = k % 8 := Nat.and_two_pow_sub_one_eq_mod k 3
  have hk : k % 8 < 8 := Nat.mod_lt k (by decide)
  rw [bitSet_eq, bitSet_eq, Function.update_apply, hand, Nat.shiftRight_eq_div_pow,
    show 2 ^ 3 = 8 from rfl]
  by_cases hdiv : i / 8 = k / 8
  · have hiff : k % 8 = i % 8 ↔ i = k := by omega
    rw [if_pos hdiv, ← BitVec.twoPow_eq, BitVec.getLsbD_or, BitVec.getLsbD_twoPow, hdiv]
    simp [hk, hiff]
  · have hne : i ≠ k := fun h => hdiv (h ▸ rfl)
    simp [hdiv, hne]

/-- The loop sets the bits of the indices that it has passed and that are hit. -/
theorem bitSet_minimizeLoop (src : Mem) (n i : ℕ) : bitSet ((List.range n).foldl (fun dst k =>
    if src k ≠ 0 then Function.update dst (k >>> 3) (dst (k >>> 3) ||| (1#8 <<< (k &&& 7)))
    else dst) (fun _ => 0)) i = true ↔ i < n ∧ src i ≠ 0#8 := by
  induction n with
  | zero => simp [bitSet]
  | succ n ih =>
    rw [List.range_succ, List.foldl_append, List.foldl_cons, List.foldl_nil]
    by_cases hn : src n = 0
    · rw [if_neg (not_not.2 hn), ih]
      constructor
      · exact fun h => ⟨by omega, h.2⟩
      · rintro ⟨hlt, hne⟩
        rcases Nat.lt_succ_iff_lt_or_eq.1 hlt with h | h
        · exact ⟨h, hne⟩
        · exact absurd hn (h ▸ hne)
    · rw [if_pos hn, bitSet_update_or, Bool.or_eq_true, ih, decide_eq_true_eq]
      constructor
      · rintro (h | rfl)
        · exact ⟨by omega, h.2⟩
        · exact ⟨by omega, hn⟩
      · rintro ⟨hlt, hne⟩
        rcases Nat.lt_succ_iff_lt_or_eq.1 hlt with h | h
        · exact .inl ⟨h, hne⟩
        · exact .inr h

/-- On a cleared destination `minimize_bits` keeps one bit for each hit index. -/
theorem bitSet_minimizeBits (g : MapGeometry) (src : Mem) {i : ℕ} (hi : i < g.mapSize) :
    bitSet (minimizeBits g (fun _ => 0) src) i = true ↔ src i ≠ 0#8 := by
  rw [minimizeBits, bitSet_minimizeLoop]
  exact and_iff_right hi

end AflPlusPlus.CoverageMap
