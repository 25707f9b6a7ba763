import AflPlusPlus.ByteWords

/-!
# Byte buffers with words at any offset

A buffer is a list of bytes. The word of `n` bytes at an offset is read and written
through the cast `*(uN *)(buf + i)`, least significant byte first. Buffers of one length
are equal when their bytes are, and a write is determined by the bytes that it changes.
-/

namespace AflPlusPlus.ByteBuffers
open ByteWords

abbrev Buffer := List Byte
abbrev Word (n : ℕ) := BitVec (8 * n)

def byteAt (buf : Buffer) (p : ℕ) : Byte := buf.getD p 0

def loadAt (n : ℕ) (buf : Buffer) (i : ℕ) : Word n := ofBytes n fun j => byteAt buf (i + j)

def storeAt (n : ℕ) (buf : Buffer) (i : ℕ) (x : Word n) : Buffer :=
  buf.mapIdx fun p b => if i ≤ p ∧ p < i + n then byteOf x (p - i) else b

variable {n m i k p : ℕ} {buf buf' : Buffer}

@[simp] theorem length_storeAt (x : Word n) : (storeAt n buf i x).length = buf.length := by
  simp [storeAt]

theorem byteAt_storeAt (x : Word n) (hp : p < buf.length) : byteAt (storeAt n buf i x) p =
    if i ≤ p ∧ p < i + n then byteOf x (p - i) else byteAt buf p := by
  simp [byteAt, storeAt, hp]

theorem buffer_ext (hlen : buf.length = buf'.length)
    (h : ∀ p < buf.length, byteAt buf p = byteAt buf' p) : buf = buf' := by
  refine List.ext_getElem hlen fun p hp hp' => ?_
  simpa [byteAt, hp, hp'] using h p hp

@[simp] theorem byteOf_loadAt {j : ℕ} (hj : j < n) :
    byteOf (loadAt n buf i) j = byteAt buf (i + j) := byteOf_ofBytes _ hj

@[simp] theorem storeAt_storeAt (x y : Word n) :
    storeAt n (storeAt n buf i x) i y = storeAt n buf i y := by
  refine buffer_ext (by simp) fun p hp => ?_
  simp only [length_storeAt] at hp
  simp only [byteAt_storeAt, hp, length_storeAt]
  split <;> rfl

@[simp] theorem storeAt_loadAt : storeAt n buf i (loadAt n buf i) = buf := by
  refine buffer_ext (by simp) fun p hp => ?_
  rw [length_storeAt] at hp
  rw [byteAt_storeAt _ hp]
  split
  · next h =>
    rw [byteOf_loadAt (by omega)]
    congr 1
    omega
  · rfl

theorem loadAt_storeAt (x : Word n) (hi : i + n ≤ buf.length) :
    loadAt n (storeAt n buf i x) i = x := by
  refine eq_of_byteOf_eq fun j hj => ?_
  rw [byteOf_loadAt hj, byteAt_storeAt _ (by omega), if_pos (by omega), Nat.add_sub_cancel_left]

/-- A write that leaves the bytes outside a narrower word is a write of that word. -/
theorem storeAt_narrow {x : Word n} {y : Word m} (hm : k + m ≤ n)
    (hout : ∀ j < n, j < k ∨ k + m ≤ j → byteOf x j = byteAt buf (i + j))
    (hin : ∀ j < m, byteOf x (k + j) = byteOf y j) :
    storeAt n buf i x = storeAt m buf (i + k) y := by
  refine buffer_ext (by simp) fun p hp => ?_
  rw [length_storeAt] at hp
  rw [byteAt_storeAt _ hp, byteAt_storeAt _ hp]
  by_cases hword : i ≤ p ∧ p < i + n
  · rw [if_pos hword]
    by_cases hsub : i + k ≤ p ∧ p < i + k + m
    · rw [if_pos hsub, ← hin _ (by omega)]
      congr 1
      omega
    · rw [if_neg hsub, hout _ (by omega) (by omega)]
      congr 1
      omega
  · rw [if_neg hword, if_neg (by omega)]

theorem setWidth_inj {v w : ℕ} (h : v ≤ w) {x y : BitVec v} (hxy : x.setWidth w = y.setWidth w) :
    x = y := by
  refine BitVec.eq_of_toNat_eq ?_
  have hnat := congrArg BitVec.toNat hxy
  rwa [BitVec.toNat_setWidth_of_le h, BitVec.toNat_setWidth_of_le h] at hnat

/-! ## Words inside a word -/

/-- The word of `m` bytes from byte `k` on. -/
def subWord (m : ℕ) (x : Word n) (k : ℕ) : Word m := x.extractLsb' (8 * k) (8 * m)

@[simp] theorem byteOf_subWord {j : ℕ} (x : Word n) (hj : j < m) :
    byteOf (subWord m x k) j = byteOf x (k + j) := by
  refine BitVec.eq_of_getLsbD_eq fun t ht => ?_
  have hlt : 8 * j + t < 8 * m := by omega
  simp only [byteOf, subWord, BitVec.getLsbD_extractLsb', ht, hlt, decide_true, Bool.true_and]
  congr 1
  omega

theorem subWord_self (x : Word n) : subWord n x 0 = x := by
  refine eq_of_byteOf_eq fun j hj => ?_
  rw [byteOf_subWord x hj, Nat.zero_add]

theorem subWord_loadAt (h : k + m ≤ n) : subWord m (loadAt n buf i) k = loadAt m buf (i + k) := by
  refine eq_of_byteOf_eq fun j hj => ?_
  rw [byteOf_subWord _ hj, byteOf_loadAt (by omega), byteOf_loadAt hj, Nat.add_assoc]

theorem storeAt_subWord {x : Word n} (hm : k + m ≤ n)
    (hout : ∀ j < n, j < k ∨ k + m ≤ j → byteOf (loadAt n buf i) j = byteOf x j) :
    storeAt n buf i x = storeAt m buf (i + k) (subWord m x k) :=
  storeAt_narrow hm (fun j hj h => by rw [← hout j hj h, byteOf_loadAt hj])
    fun j hj => (byteOf_subWord x hj).symm

/-- The word with its bytes in the other order. -/
def revWord (x : Word n) : Word n := ofBytes n fun j => byteOf x (n - 1 - j)

@[simp] theorem byteOf_revWord {j : ℕ} (x : Word n) (hj : j < n) :
    byteOf (revWord x) j = byteOf x (n - 1 - j) := byteOf_ofBytes _ hj

@[simp] theorem revWord_revWord (x : Word n) : revWord (revWord x) = x := by
  refine eq_of_byteOf_eq fun j hj => ?_
  rw [byteOf_revWord _ hj, byteOf_revWord _ (by omega)]
  congr 1
  omega

theorem subWord_revWord (x : Word n) (h : k + m ≤ n) :
    subWord m (revWord x) k = revWord (subWord m x (n - m - k)) := by
  refine eq_of_byteOf_eq fun j hj => ?_
  rw [byteOf_subWord _ hj, byteOf_revWord _ (by omega), byteOf_revWord _ hj,
    byteOf_subWord _ (by omega)]
  congr 1
  omega

/-- The word in the byte order of the machine, or in the other one. -/
def inOrder (be : Bool) (x : Word n) : Word n := if be then revWord x else x

@[simp] theorem inOrder_inOrder (be : Bool) (x : Word n) : inOrder be (inOrder be x) = x := by
  cases be <;> simp [inOrder]

theorem subWord_inOrder (be : Bool) (x : Word n) (h : k + m ≤ n) : subWord m (inOrder be x) k =
    inOrder be (subWord m x (if be then n - m - k else k)) := by
  cases be
  · rfl
  · exact subWord_revWord x h

/-! ## Small steps of a word -/

section Steps

/-- Add or subtract a small number. -/
def stepBy {w : ℕ} (plus : Bool) (u : BitVec w) (j : ℕ) : BitVec w :=
  if plus then u + BitVec.ofNat w j else u - BitVec.ofNat w j

/-- The step leaves the low half of the word, of `m` bytes. -/
def Carries (plus : Bool) (m low j : ℕ) : Prop :=
  if plus then low + j > 2 ^ (8 * m) - 1 else low < j

theorem subWord_toNat (x : Word n) :
    (subWord m x k).toNat = x.toNat / 2 ^ (8 * k) % 2 ^ (8 * m) := by
  rw [subWord, BitVec.extractLsb'_toNat, Nat.shiftRight_eq_div_pow]

/-- A step that does not carry is a step of the low half. -/
theorem stepBy_narrow (hm : m = 1 ∨ m = 2) (hn : n = 2 * m) {plus : Bool} {u : Word n} {j : ℕ}
    (h : ¬Carries plus m (u.toNat % 2 ^ (8 * m)) j) :
    subWord m (stepBy plus u j) 0 = stepBy plus (subWord m u 0) j ∧
      subWord m (stepBy plus u j) m = subWord m u m := by
  have hlt := u.isLt
  subst hn
  rcases hm with rfl | rfl
  · cases plus <;> refine ⟨BitVec.eq_of_toNat_eq ?_, BitVec.eq_of_toNat_eq ?_⟩ <;>
      simp [Carries, stepBy, subWord_toNat] at h hlt ⊢ <;> omega
  · cases plus <;> refine ⟨BitVec.eq_of_toNat_eq ?_, BitVec.eq_of_toNat_eq ?_⟩ <;>
      simp [Carries, stepBy, subWord_toNat] at h hlt ⊢ <;> omega

/-- The low half comes first in the byte order of the machine, and last in the other one. -/
theorem stepBy_inOrder_narrow (hm : m = 1 ∨ m = 2) (hn : n = 2 * m) {be plus : Bool} {x : Word n}
    {j : ℕ} (h : ¬Carries plus m ((inOrder be x).toNat % 2 ^ (8 * m)) j) :
    subWord m (inOrder be (stepBy plus (inOrder be x) j)) (if be then m else 0) =
        inOrder be (stepBy plus (inOrder be (subWord m x (if be then m else 0))) j) ∧
      subWord m (inOrder be (stepBy plus (inOrder be x) j)) (if be then 0 else m) =
        subWord m x (if be then 0 else m) := by
  obtain ⟨hlow, hhigh⟩ := stepBy_narrow hm hn h
  cases be with
  | false => exact ⟨hlow, hhigh⟩
  | true =>
    have h0 : n - m - m = 0 := by omega
    have hm' : n - m - 0 = m := by omega
    have hx : subWord m (inOrder true x) 0 = revWord (subWord m x m) := by
      rw [subWord_inOrder true x (by omega), if_pos rfl, hm']
      rfl
    have hx' : subWord m (inOrder true x) m = revWord (subWord m x 0) := by
      rw [subWord_inOrder true x (by omega), if_pos rfl, h0]
      rfl
    simp only [if_true]
    constructor
    · rw [subWord_inOrder true _ (by omega), if_pos rfl, h0, hlow, hx]
      rfl
    · rw [subWord_inOrder true _ (by omega), if_pos rfl, hm', hhigh, hx', inOrder, if_pos rfl,
        revWord_revWord]

end Steps

end AflPlusPlus.ByteBuffers
