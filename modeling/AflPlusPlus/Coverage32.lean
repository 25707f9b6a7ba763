import AflPlusPlus.CoverageMap

/-!
# Coverage map processing in 32-bit builds

The routines of `coverage-32.h`, and `has_new_bits` without `WORD_SIZE_64`. They go through the
maps by words of four bytes.
-/

namespace AflPlusPlus.Coverage32
open ByteWords CoverageMap WordScans

abbrev Word := BitVec (8 * 4)

def classifyWord (word : Word) : Word :=
  let mem16 := fun i => countClassLookup16 (word.extractLsb' (16 * i) 16)
  mem16 1 ++ mem16 0

/-- The body of `simplify_trace` for one word. -/
def simplifyWord (word : Word) : Word :=
  if word ≠ 0 then ofBytes 4 (fun j => simplifyLookup (byteOf word j)) else 0x01010101

def simplifyTrace (g : MapGeometry) (bytes : Mem) : Mem :=
  mapWords 4 simplifyWord (g.mapSize >>> 2) bytes

def classifyCounts (g : MapGeometry) (traceBits : Mem) : Mem :=
  mapWords 4 (fun word => if word ≠ 0 then classifyWord word else word) (g.mapSize >>> 2) traceBits

def discoverWord (ret : ℕ) (current virgin : Word) : ℕ × Word :=
  if current &&& virgin ≠ 0 then
    (if ret < 2 then
      if (List.range 4).any (fun j => byteOf current j != 0 && byteOf virgin j == 0xff)
      then 2 else 1
    else ret, virgin &&& ~~~current)
  else (ret, virgin)

def hasNewBitsStep (traceBits : Mem) (s : ℕ × Mem) (k : ℕ) : ℕ × Mem :=
  if loadWord 4 traceBits k ≠ 0 then
    let found := discoverWord s.1 (loadWord 4 traceBits k) (loadWord 4 s.2 k)
    (found.1, storeWord 4 s.2 k found.2)
  else s

def hasNewBits (g : MapGeometry) (traceBits virgin : Mem) : ℕ × Mem :=
  (List.range ((g.realMapSize + 3) >>> 2)).foldl (hasNewBitsStep traceBits) (0, virgin)

/-! ## Bucketing acts on each byte -/

private theorem byteOf_twoHalves (h : ℕ → BitVec 16) {j : ℕ} (hj : j < 4) :
    byteOf (h 1 ++ h 0) j = byteOf (h (j / 2)) (j % 2) := by
  interval_cases j <;> simp only [byteOf]
  · rw [BitVec.extractLsb'_append_eq_of_add_le (by decide)]
  · rw [BitVec.extractLsb'_append_eq_of_add_le (by decide)]
  · rw [BitVec.extractLsb'_append_eq_of_le (by decide)]
  · rw [BitVec.extractLsb'_append_eq_of_le (by decide)]

theorem byteOf_classifyWord (word : Word) {j : ℕ} (hj : j < 4) :
    byteOf (classifyWord word) j = countClassLookup8 (byteOf word j) :=
  calc byteOf (classifyWord word) j
      = byteOf (countClassLookup16 (word.extractLsb' (16 * (j / 2)) 16)) (j % 2) :=
        byteOf_twoHalves (fun i => countClassLookup16 (word.extractLsb' (16 * i) 16)) hj
    _ = countClassLookup8 (byteOf word j) := by
        rw [byteOf_countClassLookup16 _ (Nat.mod_lt j (by decide)), byteOf_half]

@[simp] theorem classifyWord_zero : classifyWord 0 = 0 :=
  (eq_zero_iff _).mpr fun j hj => (byteOf_classifyWord 0 hj).trans (congrArg _ (byteOf_zero j))

theorem byteOf_simplifyWord (word : Word) {j : ℕ} (hj : j < 4) :
    byteOf (simplifyWord word) j = simplifyLookup (byteOf word j) := by
  unfold simplifyWord
  split
  · rw [byteOf_ofBytes _ hj]
  · rename_i hzero
    obtain rfl := not_not.mp hzero
    interval_cases j <;> rfl

theorem div_lt_words_iff (g : MapGeometry) (i : ℕ) : i / 4 < g.mapSize >>> 2 ↔ i < g.mapSize := by
  have h4 : 4 ∣ g.mapSize := Dvd.dvd.trans (by decide) g.aligned
  rw [Nat.shiftRight_eq_div_pow]
  omega

theorem classifyCounts_apply (g : MapGeometry) (traceBits : Mem) (i : ℕ) :
    classifyCounts g traceBits i =
      if i < g.mapSize then countClassLookup8 (traceBits i) else traceBits i := by
  have hword : ∀ (word : Word) (j : ℕ), j < 4 →
      byteOf (if word ≠ 0 then classifyWord word else word) j =
        countClassLookup8 (byteOf word j) := by
    intro word j hj
    rw [← byteOf_classifyWord word hj]
    split
    · rfl
    · next hzero => rw [not_not.mp hzero, classifyWord_zero]
  rw [classifyCounts, mapWords_bytes (by decide) hword]
  simp only [div_lt_words_iff]

theorem simplifyTrace_apply (g : MapGeometry) (bytes : Mem) (i : ℕ) :
    simplifyTrace g bytes i = if i < g.mapSize then simplifyLookup (bytes i) else bytes i := by
  rw [simplifyTrace, mapWords_bytes (by decide) fun word j hj => byteOf_simplifyWord word hj]
  simp only [div_lt_words_iff]

/-! ## The scans of both builds -/

theorem hasNewBits_eq_scan (g : MapGeometry) (traceBits virgin : Mem) :
    hasNewBits g traceBits virgin = scan 4 ((g.realMapSize + 3) >>> 2) traceBits virgin :=
  rfl

/-- The words that a scan looks at end in the map, but not before `real_map_size`. -/
theorem words_in_map (g : MapGeometry) : 4 * ((g.realMapSize + 3) >>> 2) ≤ g.mapSize ∧
    8 * ((g.realMapSize + 7) >>> 3) ≤ g.mapSize ∧
    g.realMapSize ≤ 4 * ((g.realMapSize + 3) >>> 2) ∧
    g.realMapSize ≤ 8 * ((g.realMapSize + 7) >>> 3) := by
  have h8 : 8 ∣ g.mapSize := Dvd.dvd.trans (by decide) g.aligned
  have hle := g.real_le
  rw [Nat.shiftRight_eq_div_pow, Nat.shiftRight_eq_div_pow]
  omega

section Exact
variable {g : MapGeometry} {traceBits : Mem}

/-- The trace hits nothing behind `real_map_size`. -/
def Padded (g : MapGeometry) (traceBits : Mem) : Prop :=
  ∀ i, g.realMapSize ≤ i → i < g.mapSize → traceBits i = 0

theorem hasNewBits_exact (h : Padded g traceBits) (virgin : Mem) :
    Exact g.mapSize traceBits virgin (hasNewBits g traceBits virgin) := by
  obtain ⟨hin, -, hreal, -⟩ := words_in_map g
  exact scan_exact (by decide) hin fun i hi => h i (hreal.trans hi)

theorem hasNewBits64_exact (h : Padded g traceBits) (virgin : Mem) :
    Exact g.mapSize traceBits virgin (CoverageMap.hasNewBits g traceBits virgin) := by
  obtain ⟨-, hin, -, hreal⟩ := words_in_map g
  exact scan_exact (by decide) hin fun i hi => h i (hreal.trans hi)

/-- `has_new_bits` is exact and finds nothing twice, and its two flavors agree. -/
theorem hasNewBits_exact_idempotent (h : Padded g traceBits) (virgin : Mem) :
    Exact g.mapSize traceBits virgin (CoverageMap.hasNewBits g traceBits virgin) ∧
      CoverageMap.hasNewBits g traceBits (CoverageMap.hasNewBits g traceBits virgin).2 =
        (0, (CoverageMap.hasNewBits g traceBits virgin).2) ∧
      hasNewBits g traceBits virgin = CoverageMap.hasNewBits g traceBits virgin ∧
      hasNewBits g traceBits (hasNewBits g traceBits virgin).2 =
        (0, (hasNewBits g traceBits virgin).2) := by
  have hexact := hasNewBits64_exact h virgin
  have hsame := (hasNewBits_exact h virgin).unique hexact
  refine ⟨hexact, hexact.again (hasNewBits64_exact h _), hsame, ?_⟩
  rw [hsame]
  exact hexact.again (hasNewBits_exact h _)

end Exact

/-- A map of 65 edges in two blocks. -/
def twoBlocks : MapGeometry := ⟨128, 65, by decide, by decide, by decide⟩

/-- The first and the last edge are hit. -/
def outerEdges : Mem := fun i => if i = 0 ∨ i = 64 then 1 else 0

theorem hasNewBits_exact_idempotent_outerEdges :
    Exact 128 outerEdges (fun _ => 0xff)
        (CoverageMap.hasNewBits twoBlocks outerEdges fun _ => 0xff) ∧
      CoverageMap.hasNewBits twoBlocks outerEdges
          (CoverageMap.hasNewBits twoBlocks outerEdges fun _ => 0xff).2 =
        (0, (CoverageMap.hasNewBits twoBlocks outerEdges fun _ => 0xff).2) ∧
      hasNewBits twoBlocks outerEdges (fun _ => 0xff) =
        CoverageMap.hasNewBits twoBlocks outerEdges (fun _ => 0xff) ∧
      hasNewBits twoBlocks outerEdges (hasNewBits twoBlocks outerEdges fun _ => 0xff).2 =
        (0, (hasNewBits twoBlocks outerEdges fun _ => 0xff).2) := by
  refine @hasNewBits_exact_idempotent twoBlocks outerEdges (fun i hi _ => if_neg ?_) fun _ => 0xff
  change 65 ≤ i at hi
  omega

end AflPlusPlus.Coverage32
