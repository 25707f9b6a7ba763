import Mathlib

/-!
# Byte memories and their little-endian word views

A buffer behind a pointer is a function from offsets to bytes. Words of `n` bytes
are read and written through the cast `(uN *)buf`, so the `k`-th word covers the
bytes `n * k, ..., n * k + n - 1`, least significant byte first. Every bitwise
operation on words acts on each byte separately.
-/

namespace AflPlusPlus.ByteWords

abbrev Byte := BitVec 8
abbrev Mem := ℕ → Byte

/-- The vector whose bit `i` is `f i`. -/
def ofBits : (n : ℕ) → (ℕ → Bool) → BitVec n
  | 0, _ => 0#0
  | n + 1, f => BitVec.cons (f n) (ofBits n f)

@[simp] theorem getLsbD_ofBits (n : ℕ) (f : ℕ → Bool) (i : ℕ) :
    (ofBits n f).getLsbD i = (decide (i < n) && f i) := by
  induction n with
  | zero => simp [ofBits]
  | succ n ih =>
    rw [ofBits, BitVec.getLsbD_cons]
    by_cases hi : i = n
    · simp [hi]
    · have hlt : i < n + 1 ↔ i < n := by omega
      simp [hi, ih, hlt]

/-- Byte `j` of a word, least significant first. -/
def byteOf {w : ℕ} (x : BitVec w) (j : ℕ) : Byte := x.extractLsb' (8 * j) 8

/-- The word whose bytes are `m 0, ..., m (n - 1)`. -/
def ofBytes : (n : ℕ) → Mem → BitVec (8 * n)
  | 0, _ => 0#0
  | n + 1, m => ofBytes n (fun i => m (i + 1)) ++ m 0

/-- The `k`-th word of `n` bytes in a buffer. -/
def loadWord (n : ℕ) (m : Mem) (k : ℕ) : BitVec (8 * n) := ofBytes n (fun j => m (n * k + j))

/-- Overwrite the `k`-th word of `n` bytes. -/
def storeWord (n : ℕ) (m : Mem) (k : ℕ) (x : BitVec (8 * n)) : Mem := fun i =>
  if i / n = k then byteOf x (i % n) else m i

theorem getLsbD_ofBytes (n : ℕ) (m : Mem) (b : ℕ) :
    (ofBytes n m).getLsbD b = (decide (b < 8 * n) && (m (b / 8)).getLsbD (b % 8)) := by
  induction n generalizing m b with
  | zero => simp [ofBytes]
  | succ n ih =>
    have happ : (ofBytes (n + 1) m).getLsbD b =
        (ofBytes n (fun i => m (i + 1)) ++ m 0 : BitVec (8 * n + 8)).getLsbD b := rfl
    rw [happ, BitVec.getLsbD_append]
    by_cases hb : b < 8
    · have h0 : b / 8 = 0 := by omega
      have h1 : b % 8 = b := by omega
      have h2 : b < 8 * (n + 1) := by omega
      simp [hb, h0, h1, h2]
    · have h0 : (b - 8) / 8 + 1 = b / 8 := by omega
      have h1 : (b - 8) % 8 = b % 8 := by omega
      have h2 : (b - 8 < 8 * n) ↔ b < 8 * (n + 1) := by omega
      simp [hb, ih, h0, h1, h2]

@[simp] theorem byteOf_ofBytes {n : ℕ} (m : Mem) {j : ℕ} (hj : j < n) :
    byteOf (ofBytes n m) j = m j := by
  apply BitVec.eq_of_getLsbD_eq
  intro b hb
  have h0 : (8 * j + b) / 8 = j := by omega
  have h1 : (8 * j + b) % 8 = b := by omega
  have h2 : 8 * j + b < 8 * n := by omega
  simp only [byteOf, BitVec.getLsbD_extractLsb', getLsbD_ofBytes, h0, h1, h2, hb]
  simp

@[simp] theorem byteOf_loadWord {n : ℕ} (m : Mem) (k : ℕ) {j : ℕ} (hj : j < n) :
    byteOf (loadWord n m k) j = m (n * k + j) := byteOf_ofBytes _ hj

/-- A word is determined by its bytes. -/
theorem eq_of_byteOf_eq {n : ℕ} {x y : BitVec (8 * n)}
    (h : ∀ j < n, byteOf x j = byteOf y j) : x = y := by
  apply BitVec.eq_of_getLsbD_eq
  intro b hb
  have hj := congrArg (fun z => BitVec.getLsbD z (b % 8)) (h (b / 8) (by omega))
  have h0 : 8 * (b / 8) + b % 8 = b := by omega
  have h1 : b % 8 < 8 := by omega
  simpa [byteOf, h0, h1] using hj

@[simp] theorem byteOf_and {w : ℕ} (x y : BitVec w) (j : ℕ) :
    byteOf (x &&& y) j = byteOf x j &&& byteOf y j := BitVec.extractLsb'_and

@[simp] theorem byteOf_xor {w : ℕ} (x y : BitVec w) (j : ℕ) :
    byteOf (x ^^^ y) j = byteOf x j ^^^ byteOf y j := BitVec.extractLsb'_xor

@[simp] theorem byteOf_zero {w : ℕ} (j : ℕ) : byteOf (0#w) j = 0#8 := by
  simp [byteOf]

theorem byteOf_not {n : ℕ} (x : BitVec (8 * n)) {j : ℕ} (hj : j < n) :
    byteOf (~~~x) j = ~~~(byteOf x j) := by
  apply BitVec.eq_of_getLsbD_eq
  intro b hb
  have h2 : 8 * j + b < 8 * n := by omega
  simp [byteOf, hb, h2]

theorem byteOf_allOnes {n j : ℕ} (hj : j < n) :
    byteOf (BitVec.allOnes (8 * n)) j = BitVec.allOnes 8 := by
  apply BitVec.eq_of_getLsbD_eq
  intro b hb
  have h2 : 8 * j + b < 8 * n := by omega
  rw [byteOf, BitVec.getLsbD_extractLsb', BitVec.getLsbD_allOnes, BitVec.getLsbD_allOnes,
    decide_eq_true h2, Bool.and_true]

/-- A word is zero exactly when each of its bytes is. -/
theorem eq_zero_iff {n : ℕ} (x : BitVec (8 * n)) : x = 0 ↔ ∀ j < n, byteOf x j = 0#8 := by
  constructor
  · rintro rfl j -
    exact byteOf_zero j
  · intro h
    exact eq_of_byteOf_eq (fun j hj => (h j hj).trans (byteOf_zero j).symm)

theorem ne_zero_iff {n : ℕ} (x : BitVec (8 * n)) : x ≠ 0 ↔ ∃ j < n, byteOf x j ≠ 0#8 := by
  simp only [Ne, eq_zero_iff, not_forall, exists_prop]

/-- Two words share a bit exactly when some pair of their bytes does. -/
theorem loadWord_and_ne_zero_iff {n : ℕ} (a b : Mem) (k : ℕ) :
    loadWord n a k &&& loadWord n b k ≠ 0 ↔ ∃ j < n, a (n * k + j) &&& b (n * k + j) ≠ 0#8 := by
  rw [ne_zero_iff]
  refine exists_congr (fun j => and_congr_right (fun hj => ?_))
  rw [byteOf_and, byteOf_loadWord a k hj, byteOf_loadWord b k hj]

theorem storeWord_apply {n : ℕ} (m : Mem) (k : ℕ) (x : BitVec (8 * n)) {j : ℕ} (hj : j < n) :
    storeWord n m k x (n * k + j) = byteOf x j := by
  have h0 : (n * k + j) / n = k := by
    rw [Nat.mul_add_div (by omega), Nat.div_eq_of_lt hj, Nat.add_zero]
  have h1 : (n * k + j) % n = j := by rw [Nat.mul_add_mod, Nat.mod_eq_of_lt hj]
  simp [storeWord, h0, h1]

theorem storeWord_of_ne {n : ℕ} (m : Mem) (k : ℕ) (x : BitVec (8 * n)) {i : ℕ} (hi : i / n ≠ k) :
    storeWord n m k x i = m i := by simp [storeWord, hi]

/-- Storing at one index does not disturb the word at another. -/
theorem loadWord_storeWord_of_ne {n : ℕ} (m : Mem) {k l : ℕ} (x : BitVec (8 * n)) (h : l ≠ k) :
    loadWord n (storeWord n m k x) l = loadWord n m l := by
  refine eq_of_byteOf_eq (fun j hj => ?_)
  rw [byteOf_loadWord _ l hj, byteOf_loadWord _ l hj, storeWord_of_ne]
  rw [Nat.mul_add_div (by omega), Nat.div_eq_of_lt hj]
  omega

/-- Bytewise form of a store that leaves a word as it is. -/
theorem storeWord_loadWord {n : ℕ} (hn : 0 < n) (m : Mem) (k : ℕ) :
    storeWord n m k (loadWord n m k) = m := by
  funext i
  by_cases hi : i / n = k
  · have hdecomp : n * k + i % n = i := by rw [← hi]; exact Nat.div_add_mod i n
    have hget := storeWord_apply m k (loadWord n m k) (Nat.mod_lt i hn)
    rw [byteOf_loadWord m k (Nat.mod_lt i hn), hdecomp] at hget
    exact hget
  · exact storeWord_of_ne m k _ hi

/-- Clearing bits that are not set changes nothing. -/
theorem and_and_not {w : ℕ} (a b : BitVec w) : a &&& (b &&& ~~~a) = 0#w := by
  ext i hi
  simp only [BitVec.getElem_and, BitVec.getElem_not, BitVec.getElem_zero]
  cases a[i] <;> simp

theorem and_not_eq_self {w : ℕ} {a b : BitVec w} (h : a &&& b = 0#w) : b &&& ~~~a = b := by
  apply BitVec.eq_of_getLsbD_eq
  intro i hi
  have hbit : (a.getLsbD i && b.getLsbD i) = false := by
    rw [← BitVec.getLsbD_and, h, BitVec.getLsbD_zero]
  cases ha : a.getLsbD i <;> simp_all

/-- The loop `while (i--) { *mem = f(*mem); mem++; }` over the first `count` words. -/
def mapWords (n : ℕ) (f : BitVec (8 * n) → BitVec (8 * n)) (count : ℕ) (m : Mem) : Mem :=
  (List.range count).foldl (fun m k => storeWord n m k (f (loadWord n m k))) m

theorem loadWord_mapWords_of_le {n : ℕ} (f : BitVec (8 * n) → BitVec (8 * n)) (m : Mem)
    {count k : ℕ} (hk : count ≤ k) : loadWord n (mapWords n f count m) k = loadWord n m k := by
  induction count with
  | zero => rfl
  | succ count ih =>
    simp only [mapWords, List.range_succ, List.foldl_append, List.foldl_cons, List.foldl_nil]
    rw [loadWord_storeWord_of_ne _ _ (by omega)]
    exact ih (by omega)

/-- Every word below the bound is replaced, and nothing else changes. -/
theorem mapWords_apply {n : ℕ} (f : BitVec (8 * n) → BitVec (8 * n)) (count : ℕ) (m : Mem)
    (i : ℕ) :
    mapWords n f count m i =
      if i / n < count then byteOf (f (loadWord n m (i / n))) (i % n) else m i := by
  induction count with
  | zero => simp [mapWords]
  | succ count ih =>
    have hstep : mapWords n f (count + 1) m = storeWord n (mapWords n f count m) count
        (f (loadWord n (mapWords n f count m) count)) := by
      simp [mapWords, List.range_succ]
    rw [hstep, loadWord_mapWords_of_le f m (Nat.le_refl count)]
    by_cases hi : i / n = count
    · simp [storeWord, hi]
    · have hlt : i / n < count + 1 ↔ i / n < count := by omega
      simp only [storeWord_of_ne _ _ _ hi, ih, hlt]

/-- A function that acts on each byte of a word acts on each byte of the memory. -/
theorem mapWords_bytes {n : ℕ} (hn : 0 < n) {f : BitVec (8 * n) → BitVec (8 * n)} {φ : Byte → Byte}
    (hf : ∀ word j, j < n → byteOf (f word) j = φ (byteOf word j)) (count : ℕ) (m : Mem) (i : ℕ) :
    mapWords n f count m i = if i / n < count then φ (m i) else m i := by
  have hmod : i % n < n := Nat.mod_lt i hn
  rw [mapWords_apply, hf _ _ hmod, byteOf_loadWord m _ hmod, Nat.div_add_mod]

/-! ## Counters -/

/-- `++n` on a `u32`. -/
def incU32 (n : ℕ) : ℕ := (n + 1) % 2 ^ 32

/-- `--n` on a `u32`. -/
def decU32 (n : ℕ) : ℕ := (n + (2 ^ 32 - 1)) % 2 ^ 32

theorem incU32_eq {n : ℕ} (h : n + 1 < 2 ^ 32) : incU32 n = n + 1 := Nat.mod_eq_of_lt h

theorem decU32_eq {n : ℕ} (hpos : 0 < n) (hlt : n < 2 ^ 32) : decU32 n = n - 1 := by
  unfold decU32
  omega

end AflPlusPlus.ByteWords
