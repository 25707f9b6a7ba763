import AflPlusPlus.EqualBlocks

/-!
# The secure hash standard

SHA-1 as the standard states it: the message is padded to whole blocks, and the blocks are
compressed one after another. Bytes that come one at a time can be collected until a block is full.
The code for message authentication is stated for any hash of this kind.
-/

namespace AflPlusPlus.SecureHash
open EqualBlocks

/-! ## Blocks that come byte by byte -/

section Absorb
variable {α σ : Type*} (n : ℕ) (compress : σ → List α → σ)

/-- A byte is kept until its block is full. -/
def absorb (st : σ × List α) (x : α) : σ × List α :=
  if st.2.length + 1 = n then (compress st.1 (st.2 ++ [x]), []) else (st.1, st.2 ++ [x])

variable {n compress}

/-- All full blocks are compressed, and the rest is kept. -/
theorem foldl_absorb (hn : 0 < n) (s : σ) (xs : List α) :
    xs.foldl (absorb n compress) (s, []) = ((blocks n xs).foldl compress s, rest n xs) := by
  induction xs using List.reverseRecOn with
  | nil =>
    rw [blocks, rest, List.length_nil, Nat.zero_div]
    rfl
  | append_singleton xs x ih =>
    obtain ⟨hblocks, hrest⟩ := blocks_concat hn xs x
    rw [List.foldl_append, ih, List.foldl_cons, List.foldl_nil, absorb, hblocks, hrest]
    dsimp only
    split
    · rw [List.foldl_append, List.foldl_cons, List.foldl_nil]
    · rfl

end Absorb

/-! ## The functions of the standard -/

abbrev Byte := BitVec 8
abbrev Word := BitVec 32

def ch (x y z : Word) : Word := (x &&& y) ^^^ (~~~x &&& z)
def parity (x y z : Word) : Word := x ^^^ y ^^^ z
def maj (x y z : Word) : Word := (x &&& y) ^^^ (x &&& z) ^^^ (y &&& z)

def logical (t : ℕ) : Word → Word → Word → Word :=
  if t < 20 then ch else if t < 40 then parity else if t < 60 then maj else parity

def constant (t : ℕ) : Word :=
  if t < 20 then 0x5a827999 else if t < 40 then 0x6ed9eba1 else if t < 60 then 0x8f1bbcdc
  else 0xca62c1d6

/-- The word of four bytes, the first one on top. -/
def word (b₀ b₁ b₂ b₃ : Byte) : Word :=
  (b₀.setWidth 32 <<< 24) ||| (b₁.setWidth 32 <<< 16) ||| (b₂.setWidth 32 <<< 8) ||| b₃.setWidth 32

def messageWord (block : List Byte) (t : ℕ) : Word :=
  word (block.getD (4 * t) 0) (block.getD (4 * t + 1) 0) (block.getD (4 * t + 2) 0)
    (block.getD (4 * t + 3) 0)

/-- The message schedule. -/
def schedule (block : List Byte) (t : ℕ) : Word :=
  if t < 16 then messageWord block t
  else (schedule block (t - 3) ^^^ schedule block (t - 8) ^^^ schedule block (t - 14) ^^^
    schedule block (t - 16)).rotateLeft 1
termination_by t

structure Hash where
  a : Word
  b : Word
  c : Word
  d : Word
  e : Word

def initial : Hash := ⟨0x67452301, 0xefcdab89, 0x98badcfe, 0x10325476, 0xc3d2e1f0⟩

def round (w : ℕ → Word) (h : Hash) (t : ℕ) : Hash where
  a := h.a.rotateLeft 5 + logical t h.b h.c h.d + h.e + constant t + w t
  b := h.a
  c := h.b.rotateLeft 30
  d := h.c
  e := h.d

@[irreducible] def rounds (block : List Byte) (h : Hash) (n : ℕ) : Hash :=
  (List.range n).foldl (round (schedule block)) h

theorem rounds_zero (block : List Byte) (h : Hash) : rounds block h 0 = h := by
  unfold rounds
  rfl

theorem rounds_succ (block : List Byte) (h : Hash) (n : ℕ) :
    rounds block h (n + 1) = round (schedule block) (rounds block h n) n := by
  unfold rounds
  rw [List.range_succ, List.foldl_append, List.foldl_cons, List.foldl_nil]

def Hash.add (h r : Hash) : Hash := ⟨h.a + r.a, h.b + r.b, h.c + r.c, h.d + r.d, h.e + r.e⟩

def compress (h : Hash) (block : List Byte) : Hash := h.add (rounds block h 80)

/-- The bytes of a number, the first one on top. -/
def bigEndian (size n : ℕ) : List Byte :=
  (List.range size).reverse.map fun k => BitVec.ofNat 8 (n >>> (8 * k))

/-- A one, zeros, and the number of bits in eight bytes, up to the end of a block. -/
def padding (len : ℕ) : List Byte :=
  0x80 :: List.replicate ((119 - len % 64) % 64) 0 ++ bigEndian 8 (8 * len)

def Hash.bytes (h : Hash) : List Byte :=
  [h.a, h.b, h.c, h.d, h.e].flatMap fun w => bigEndian 4 w.toNat

def sha1 (message : List Byte) : List Byte :=
  ((blocks 64 (message ++ padding message.length)).foldl compress initial).bytes

theorem length_bigEndian (size n : ℕ) : (bigEndian size n).length = size := by
  rw [bigEndian, List.length_map, List.length_reverse, List.length_range]

/-- The padded message has no rest. -/
theorem rest_padding (message : List Byte) :
    rest 64 (message ++ padding message.length) = [] := by
  rw [rest, List.drop_eq_nil_iff, List.length_append, padding, List.length_append, List.length_cons,
    List.length_replicate, length_bigEndian]
  omega

/-! ## Message authentication -/

/-- The key in a block. A key that is longer is hashed. -/
def blockKey (hash : List Byte → List Byte) (n : ℕ) (key : List Byte) : List Byte :=
  let k := if n < key.length then hash key else key
  k ++ List.replicate (n - k.length) 0

def hmac (hash : List Byte → List Byte) (n : ℕ) (key text : List Byte) : List Byte :=
  let k := blockKey hash n key
  hash (k.map (· ^^^ 0x5c) ++ hash (k.map (· ^^^ 0x36) ++ text))

end AflPlusPlus.SecureHash
