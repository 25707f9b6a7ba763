import AflPlusPlus.Sha1

/-!
# The hash of test cases is the standard one

The buffer holds the last sixteen words of the message schedule, so a block is hashed as the
standard compresses it. Over any writes the state is that of the full blocks, and the buffer begins
with the bytes of the rest.
-/

namespace AflPlusPlus.Sha1
open EqualBlocks SecureHash

/-! ## Hashing a block -/

section Block
variable {buffer : Vector Word 16} {block : List Byte} {i j : ℕ} {w : Word}

theorem rol32_one (w : Word) : rol32 w 1 = w.rotateLeft 1 := rfl
theorem rol32_five (w : Word) : rol32 w 5 = w.rotateLeft 5 := rfl
theorem rol32_thirty (w : Word) : rol32 w 30 = w.rotateLeft 30 := rfl

theorem ch_eq (x y z : Word) : z ^^^ (x &&& (y ^^^ z)) = ch x y z := by
  ext i hi
  simp only [ch, BitVec.getElem_xor, BitVec.getElem_and, BitVec.getElem_not]
  cases x[i] <;> cases y[i] <;> cases z[i] <;> rfl

theorem maj_eq (x y z : Word) : (x &&& y) ||| (z &&& (x ||| y)) = maj x y z := by
  ext i hi
  simp only [maj, BitVec.getElem_xor, BitVec.getElem_and, BitVec.getElem_or]
  cases x[i] <;> cases y[i] <;> cases z[i] <;> rfl

theorem buffered_congr (h : i % 16 = j % 16) : buffered buffer i = buffered buffer j := by
  simp only [buffered, h]

theorem buffered_setBuffered :
    buffered (setBuffered buffer i w) j = if i % 16 = j % 16 then w else buffered buffer j := by
  rw [buffered, setBuffered, Vector.getElem_set]
  rfl

/-- The buffer before step `i`: the last sixteen words that are there of the schedule. -/
def Window (block : List Byte) (buffer : Vector Word 16) (i : ℕ) : Prop :=
  ∀ t, t < max i 16 → max i 16 ≤ t + 16 → buffered buffer t = schedule block t

theorem Window.extend (h : Window block buffer i) :
    Window block (extend buffer i) (i + 1) ∧
      buffered (Sha1.extend buffer i) i = schedule block i := by
  rw [Sha1.extend]
  by_cases hi : 16 ≤ i
  · rw [if_pos hi]
    have hnew : rol32 (buffered buffer (i + 13) ^^^ buffered buffer (i + 8) ^^^
        buffered buffer (i + 2) ^^^ buffered buffer i) 1 = schedule block i := by
      rw [schedule, if_neg (by omega), rol32_one]
      rw [buffered_congr (show (i + 13) % 16 = (i - 3) % 16 by omega), h (i - 3) (by omega) (by omega),
        buffered_congr (show (i + 8) % 16 = (i - 8) % 16 by omega), h (i - 8) (by omega) (by omega),
        buffered_congr (show (i + 2) % 16 = (i - 14) % 16 by omega),
        h (i - 14) (by omega) (by omega),
        buffered_congr (show i % 16 = (i - 16) % 16 by omega), h (i - 16) (by omega) (by omega)]
    dsimp only
    rw [hnew]
    refine ⟨fun t ht hle => ?_, ?_⟩
    · rw [buffered_setBuffered]
      by_cases heq : t = i
      · rw [heq, if_pos rfl]
      · rw [if_neg (by omega)]
        exact h t (by omega) (by omega)
    · rw [buffered_setBuffered, if_pos rfl]
  · rw [if_neg hi]
    exact ⟨fun t ht hle => h t (by omega) (by omega), h i (by omega) (by omega)⟩

/-- The variables of `hashBlock`. -/
def Block.hash (w : Block) : SecureHash.Hash := ⟨w.a, w.b, w.c, w.d, w.e⟩

theorem hashStep_spec {b : Block} (h : Window block b.buffer i) :
    Window block (hashStep b i).buffer (i + 1) ∧
      (hashStep b i).hash = SecureHash.round (schedule block) b.hash i := by
  obtain ⟨hwindow, hword⟩ := h.extend
  refine ⟨hwindow, ?_⟩
  have hlogical : (if i < 20 then (b.d ^^^ (b.b &&& (b.c ^^^ b.d))) + 0x5a827999
      else if i < 40 then (b.b ^^^ b.c ^^^ b.d) + 0x6ed9eba1
      else if i < 60 then ((b.b &&& b.c) ||| (b.d &&& (b.b ||| b.c))) + 0x8f1bbcdc
      else (b.b ^^^ b.c ^^^ b.d) + 0xca62c1d6) = logical i b.b b.c b.d + constant i := by
    rw [ch_eq, maj_eq, logical, constant]
    split_ifs <;> rfl
  rw [hashStep]
  dsimp only [Block.hash, SecureHash.round]
  rw [hlogical, hword, rol32_five, rol32_thirty]
  congr 1
  ac_rfl

theorem foldl_hashStep {b : Block} {h : SecureHash.Hash} (hwindow : Window block b.buffer 0)
    (hhash : b.hash = h) (n : ℕ) :
    Window block ((List.range n).foldl hashStep b).buffer n ∧
      ((List.range n).foldl hashStep b).hash = rounds block h n := by
  induction n with
  | zero => exact ⟨hwindow, hhash.trans (rounds_zero block h).symm⟩
  | succ n ih =>
    obtain ⟨hwindow, hhash⟩ := ih
    obtain ⟨hstep, heq⟩ := hashStep_spec hwindow
    rw [List.range_succ, List.foldl_append, rounds_succ, ← hhash]
    exact ⟨hstep, heq⟩

theorem hashLoop_hash {b : Block} {h : SecureHash.Hash} (hwindow : Window block b.buffer 0)
    (hhash : b.hash = h) : (hashLoop b).hash = rounds block h 80 := by
  unfold hashLoop
  exact (foldl_hashStep hwindow hhash 80).2

end Block

def stateOf (h : Hash) : Vector Word 5 := #v[h.a, h.b, h.c, h.d, h.e]

section State
variable {s : Sha1nfo} {h : Hash} (hstate : s.state = stateOf h)
include hstate

theorem block_eq : (⟨s.buffer, s.state.get 0, s.state.get 1, s.state.get 2, s.state.get 3,
    s.state.get 4⟩ : Block) = ⟨s.buffer, h.a, h.b, h.c, h.d, h.e⟩ := by
  simp [hstate, stateOf]

theorem addBlock_state (w : Block) : (addBlock s w).state = stateOf (h.add w.hash) := by
  simp [addBlock, hstate, stateOf, Hash.add, Block.hash]

theorem hashBlock_spec {block : List Byte}
    (hblock : ∀ t < 16, buffered s.buffer t = messageWord block t) :
    (hashBlock s).state = stateOf (compress h block) := by
  have hwindow : Window block s.buffer 0 := fun t ht _ => by
    rw [hblock t (by omega), schedule, if_pos (by omega)]
  have hhash : (hashLoop ⟨s.buffer, h.a, h.b, h.c, h.d, h.e⟩).hash = rounds block h 80 :=
    hashLoop_hash hwindow rfl
  unfold hashBlock compress
  rw [block_eq hstate, addBlock_state hstate, hhash]

end State

/-! ## Bytes of the buffer -/

theorem lane_set (w : Word) (x : Byte) {l l' : ℕ} (hl' : l' < 4) :
    (((w &&& ~~~((BitVec.allOnes 8).setWidth 32 <<< (8 * l))) ||| (x.setWidth 32 <<< (8 * l))) >>>
      (8 * l')).setWidth 8 = if l = l' then x else (w >>> (8 * l')).setWidth 8 := by
  apply BitVec.eq_of_getLsbD_eq
  intro i hi
  have hbit : 8 * l' + i < 32 := by omega
  simp only [BitVec.getLsbD_setWidth, BitVec.getLsbD_ushiftRight, BitVec.getLsbD_or,
    BitVec.getLsbD_and, BitVec.getLsbD_not, BitVec.getLsbD_shiftLeft, BitVec.getLsbD_allOnes, hi,
    hbit, decide_true, Bool.true_and]
  by_cases heq : l = l'
  · subst heq
    have hge : ¬8 * l + i < 8 * l := by omega
    have hwide : i < 32 := by omega
    simp only [if_true, hge, Nat.add_sub_cancel_left, hi, hwide, decide_true, decide_false,
      Bool.not_false, Bool.true_and, Bool.not_true, Bool.and_false, Bool.false_or]
  · rw [if_neg heq, BitVec.getLsbD_setWidth, BitVec.getLsbD_ushiftRight]
    by_cases hlt : 8 * l' + i < 8 * l
    · simp only [hlt, hi, decide_true, Bool.not_true, Bool.false_and, Bool.not_false,
        Bool.and_true, Bool.or_false, Bool.true_and]
    · have hge : ¬8 * l' + i - 8 * l < 8 := by omega
      rw [BitVec.getLsbD_of_ge x _ (by omega)]
      simp only [hge, hi, decide_true, decide_false, Bool.and_false, Bool.not_false, Bool.and_true,
        Bool.or_false, Bool.true_and]

/-- The bytes below the size of the buffer are stored apart from each other. -/
theorem getByte_setByte (buffer : Vector Word 16) (x : Byte) {m m' : ℕ} (hm : m < 64)
    (hm' : m' < 64) : getByte (setByte buffer m x) m' = if m = m' then x else getByte buffer m' := by
  rw [getByte, setByte, buffered_setBuffered]
  by_cases hword : m / 4 = m' / 4
  · rw [hword, if_pos rfl, lane_set _ _ (Nat.mod_lt _ (by decide))]
    refine if_congr ?_ rfl rfl
    omega
  · rw [if_neg (by omega), if_neg (by omega), getByte]

/-- The bytes of a word are stored from the last to the first. -/
theorem xor_three : ∀ j < 16, ∀ r < 4, (4 * j + r) ^^^ 3 = 4 * j + (3 - r) := by decide

theorem xor_three_lt {m : ℕ} (hm : m < 64) : m ^^^ 3 < 64 :=
  Nat.xor_lt_two_pow (n := 6) hm (by decide)

theorem xor_three_inj {m m' : ℕ} (h : m ^^^ 3 = m' ^^^ 3) : m = m' := by
  have hxor := congrArg (· ^^^ 3) h
  rwa [Nat.xor_assoc, Nat.xor_assoc, Nat.xor_self, Nat.xor_zero, Nat.xor_zero] at hxor

theorem word_of_bytes (w : Word) : w = word ((w >>> 24).setWidth 8) ((w >>> 16).setWidth 8)
    ((w >>> 8).setWidth 8) ((w >>> 0).setWidth 8) := by
  apply BitVec.eq_of_getLsbD_eq
  intro i hi
  simp only [word, BitVec.getLsbD_or, BitVec.getLsbD_shiftLeft, BitVec.getLsbD_setWidth,
    BitVec.getLsbD_ushiftRight, hi, decide_true, Bool.true_and, Nat.zero_add]
  rcases (by omega : i < 8 ∨ 8 ≤ i ∧ i < 16 ∨ 16 ≤ i ∧ i < 24 ∨ 24 ≤ i) with
    h | ⟨h, h'⟩ | ⟨h, h'⟩ | h
  · simp [h, show i < 24 by omega, show i < 16 by omega]
  · simp [h', show ¬i < 8 by omega, show i < 24 by omega, show 8 + (i - 8) = i by omega,
      show i - 8 < 8 by omega, show i - 8 < 32 by omega]
  · simp [h', show ¬i < 8 by omega, show ¬i < 16 by omega, show 16 + (i - 16) = i by omega,
      show i - 16 < 8 by omega, show i - 16 < 32 by omega, show ¬i - 8 < 8 by omega]
  · simp [show ¬i < 8 by omega, show ¬i < 16 by omega, show ¬i < 24 by omega,
      show 24 + (i - 24) = i by omega, show i - 24 < 8 by omega, show i - 24 < 32 by omega,
      show ¬i - 8 < 8 by omega, show ¬i - 16 < 8 by omega]

section Bytes
variable {buffer : Vector Word 16} {block : List Byte} {t : ℕ}

/-- A full buffer holds the words of the block. -/
theorem buffered_eq (h : ∀ k x, block[k]? = some x → getByte buffer (k ^^^ 3) = x)
    (hlen : block.length = 64) (ht : t < 16) : buffered buffer t = messageWord block t := by
  have hbyte : ∀ r < 4,
      block.getD (4 * t + r) 0 = (buffered buffer t >>> (8 * (3 - r))).setWidth 8 := by
    intro r hr
    have hget := List.getElem?_eq_getElem (show 4 * t + r < block.length by omega)
    rw [List.getD_eq_getElem?_getD, hget, Option.getD_some, ← h _ _ hget, xor_three t ht r hr,
      getByte, show (4 * t + (3 - r)) / 4 = t by omega, show (4 * t + (3 - r)) % 4 = 3 - r by omega]
  have hzero := hbyte 0 (by decide)
  rw [Nat.add_zero] at hzero
  rw [messageWord, hzero, hbyte 1 (by decide), hbyte 2 (by decide), hbyte 3 (by decide)]
  exact word_of_bytes _

end Bytes

/-! ## Writing -/

/-- The state is that of the full blocks, and the rest is in the buffer. -/
structure Holds (s : Sha1nfo) (st : Hash × List Byte) : Prop where
  state : s.state = stateOf st.1
  offset : s.bufferOffset = st.2.length
  lt : st.2.length < 64
  bytes : ∀ k x, st.2[k]? = some x → getByte s.buffer (k ^^^ 3) = x

theorem holds_init (s : Sha1nfo) : Holds (init s) (initial, []) where
  state := rfl
  offset := rfl
  lt := by decide
  bytes k x hk := absurd hk (by simp)

theorem length_absorb (st : Hash × List Byte) (x : Byte) : (absorb 64 compress st x).2.length =
    if st.2.length + 1 = 64 then 0 else st.2.length + 1 := by
  rw [absorb]
  split
  · rfl
  · rw [List.length_append, List.length_singleton]

/-- What hashing leaves alone. -/
structure SameKeys (s t : Sha1nfo) : Prop where
  keyBuffer : t.keyBuffer = s.keyBuffer
  innerHash : t.innerHash = s.innerHash

theorem SameKeys.trans {s t u : Sha1nfo} (h : SameKeys s t) (h' : SameKeys t u) : SameKeys s u :=
  ⟨h'.keyBuffer.trans h.keyBuffer, h'.innerHash.trans h.innerHash⟩

section Write
variable {s : Sha1nfo} {st : Hash × List Byte} (h : Holds s st)
include h

theorem Holds.addUncounted (x : Byte) : Holds (addUncounted s x) (absorb 64 compress st x) ∧
    (addUncounted s x).byteCount = s.byteCount ∧ SameKeys s (addUncounted s x) := by
  have hbytes : ∀ k y, (st.2 ++ [x])[k]? = some y →
      getByte (setByte s.buffer (st.2.length ^^^ 3) x) (k ^^^ 3) = y := by
    intro k y hk
    obtain ⟨hlt, -⟩ := List.getElem?_eq_some_iff.mp hk
    rw [List.length_append, List.length_singleton] at hlt
    have hoffset := h.lt
    rw [getByte_setByte _ _ (xor_three_lt hoffset) (xor_three_lt (by omega))]
    by_cases heq : k = st.2.length
    · rw [heq, List.getElem?_concat_length, Option.some_inj] at hk
      rw [heq, if_pos rfl, hk]
    · rw [if_neg fun hxor => heq (xor_three_inj hxor).symm]
      refine h.bytes k y ?_
      rwa [List.getElem?_append_left (by omega)] at hk
  have hoffset := h.lt
  rw [Sha1.addUncounted, absorb]
  dsimp only
  rw [h.offset]
  by_cases hfull : st.2.length + 1 = 64
  · rw [if_pos hfull, if_pos hfull]
    refine ⟨⟨?_, rfl, Nat.zero_lt_succ 63, fun k y hk => absurd hk (by simp)⟩, rfl, ⟨rfl, rfl⟩⟩
    have hstate : ({ s with
        buffer := setByte s.buffer (st.2.length ^^^ 3) x
        bufferOffset := st.2.length + 1 } : Sha1nfo).state = stateOf st.1 := h.state
    refine hashBlock_spec hstate fun t ht => buffered_eq hbytes ?_ ht
    rw [List.length_append, List.length_singleton, hfull]
  · rw [if_neg hfull, if_neg hfull]
    refine ⟨⟨h.state, ?_, ?_, hbytes⟩, rfl, ⟨rfl, rfl⟩⟩
    · rw [List.length_append, List.length_singleton]
    · rw [List.length_append, List.length_singleton]
      omega

theorem Holds.foldl_addUncounted (xs : List Byte) :
    Holds (xs.foldl Sha1.addUncounted s) (xs.foldl (absorb 64 compress) st) ∧
      (xs.foldl Sha1.addUncounted s).byteCount = s.byteCount ∧
      SameKeys s (xs.foldl Sha1.addUncounted s) := by
  induction xs generalizing s st with
  | nil => exact ⟨h, rfl, ⟨rfl, rfl⟩⟩
  | cons x xs ih =>
    obtain ⟨hadd, hcount, hkey⟩ := h.addUncounted x
    obtain ⟨hrun, hcount', hkey'⟩ := ih hadd
    exact ⟨hrun, hcount'.trans hcount, hkey.trans hkey'⟩

theorem Holds.write (xs : List Byte) : Holds (write s xs) (xs.foldl (absorb 64 compress) st) ∧
    (write s xs).byteCount = s.byteCount + BitVec.ofNat 32 xs.length ∧
    SameKeys s (write s xs) := by
  induction xs generalizing s st with
  | nil => exact ⟨h, (BitVec.add_zero _).symm, ⟨rfl, rfl⟩⟩
  | cons x xs ih =>
    have hcounted : Holds { s with byteCount := s.byteCount + 1 } st :=
      ⟨h.state, h.offset, h.lt, h.bytes⟩
    obtain ⟨hadd, hcount, hkey⟩ := hcounted.addUncounted x
    obtain ⟨hrun, hcount', hkey'⟩ := ih hadd
    have hcounting : SameKeys s { s with byteCount := s.byteCount + 1 } := ⟨rfl, rfl⟩
    refine ⟨hrun, hcount'.trans ?_, (hcounting.trans hkey).trans hkey'⟩
    rw [hcount, List.length_cons, Nat.add_comm xs.length, BitVec.ofNat_add]
    exact BitVec.add_assoc _ _ _

/-! ## Padding -/

omit h in
/-- Zeros are added until eight bytes are left of a block. -/
theorem padZeros_eq {n d : ℕ} (h : Holds s st) (hd : (st.2.length + d) % 64 = 56) (hlt : d < 64)
    (hn : d < n) : padZeros n s = some ((List.replicate d 0).foldl Sha1.addUncounted s) := by
  have hoffset := h.lt
  induction d generalizing n s st with
  | zero =>
    obtain ⟨n, rfl⟩ := Nat.exists_eq_succ_of_ne_zero hn.ne'
    rw [padZeros, if_neg]
    · rfl
    · rw [h.offset]
      omega
  | succ d ih =>
    obtain ⟨n, rfl⟩ := Nat.exists_eq_succ_of_ne_zero (Nat.ne_zero_of_lt hn)
    rw [padZeros, if_pos]
    · have hadd := (h.addUncounted 0).1
      rw [List.replicate_succ, List.foldl_cons]
      refine ih hadd ?_ (by omega) (by omega) hadd.lt
      rw [length_absorb]
      split <;> omega
    · rw [h.offset]
      omega

theorem Holds.pad : pad s = some ((0x80 :: List.replicate ((119 - st.2.length % 64) % 64) 0 ++
    lengthBytes s.byteCount).foldl Sha1.addUncounted s) := by
  have hoffset := h.lt
  obtain ⟨hadd, hcount, -⟩ := h.addUncounted 0x80
  have hzeros := padZeros_eq (n := 64) (d := (119 - st.2.length % 64) % 64) hadd
    (by rw [length_absorb]; split <;> omega) (Nat.mod_lt _ (by decide)) (Nat.mod_lt _ (by decide))
  have hkept := (hadd.foldl_addUncounted (List.replicate ((119 - st.2.length % 64) % 64) 0)).2.1
  rw [Sha1.pad, hzeros, Option.map_some, hkept, hcount, List.foldl_append, List.foldl_cons]

end Write

theorem lengthBytes_eq {len : ℕ} (h : len < 2 ^ 32) :
    lengthBytes (BitVec.ofNat 32 len) = bigEndian 8 (8 * len) := by
  have hbytes : bigEndian 8 (8 * len) = [BitVec.ofNat 8 ((8 * len) >>> 56),
    BitVec.ofNat 8 ((8 * len) >>> 48), BitVec.ofNat 8 ((8 * len) >>> 40),
    BitVec.ofNat 8 ((8 * len) >>> 32), BitVec.ofNat 8 ((8 * len) >>> 24),
    BitVec.ofNat 8 ((8 * len) >>> 16), BitVec.ofNat 8 ((8 * len) >>> 8),
    BitVec.ofNat 8 ((8 * len) >>> 0)] := rfl
  rw [hbytes, lengthBytes]
  simp only [List.cons.injEq, and_true]
  refine ⟨?_, ?_, ?_, ?_, ?_, ?_, ?_, ?_⟩ <;>
  · apply BitVec.eq_of_toNat_eq
    simp only [BitVec.toNat_ofNat, BitVec.toNat_setWidth, BitVec.toNat_ushiftRight,
      BitVec.toNat_shiftLeft, Nat.shiftRight_eq_div_pow, Nat.shiftLeft_eq]
    omega

theorem memoryBytes_swapBytes (w : Word) : memoryBytes (swapBytes w) = bigEndian 4 w.toNat := by
  have hbytes : bigEndian 4 w.toNat = [BitVec.ofNat 8 (w.toNat >>> 24),
    BitVec.ofNat 8 (w.toNat >>> 16), BitVec.ofNat 8 (w.toNat >>> 8),
    BitVec.ofNat 8 (w.toNat >>> 0)] := rfl
  have hbyte : ∀ k, BitVec.ofNat 8 (w.toNat >>> k) = (w >>> k).setWidth 8 := fun k => by
    apply BitVec.eq_of_toNat_eq
    rw [BitVec.toNat_ofNat, BitVec.toNat_setWidth, BitVec.toNat_ushiftRight]
  rw [hbytes, hbyte, hbyte, hbyte, hbyte, memoryBytes, swapBytes]
  simp only [List.cons.injEq, and_true]
  refine ⟨?_, ?_, ?_, ?_⟩ <;>
  · apply BitVec.eq_of_getLsbD_eq
    intro i hi
    rcases (by omega : i = 0 ∨ i = 1 ∨ i = 2 ∨ i = 3 ∨ i = 4 ∨ i = 5 ∨ i = 6 ∨ i = 7) with
      rfl | rfl | rfl | rfl | rfl | rfl | rfl | rfl <;> simp +decide

/-! ## The hash -/

theorem digest_eq (h : Hash) :
    ((stateOf h).map swapBytes).toList.flatMap memoryBytes = h.bytes := by
  have hlist : ((stateOf h).map swapBytes).toList =
      [swapBytes h.a, swapBytes h.b, swapBytes h.c, swapBytes h.d, swapBytes h.e] := by
    simp [stateOf]
  rw [hlist, Hash.bytes]
  simp only [List.flatMap_cons, List.flatMap_nil, memoryBytes_swapBytes]

theorem Holds.result {s : Sha1nfo} {message : List Byte}
    (h : Holds s (message.foldl (absorb 64 compress) (initial, [])))
    (hcount : s.byteCount = BitVec.ofNat 32 message.length) (hlt : message.length < 2 ^ 32) :
    ∃ s', result s = some (s', SecureHash.sha1 message) ∧ SameKeys s s' := by
  have hpad := h.pad
  obtain ⟨hpadded, -, hkey⟩ := h.foldl_addUncounted (padding message.length)
  rw [← List.foldl_append, foldl_absorb (by decide), rest_padding] at hpadded
  have hlen : (message.foldl (absorb 64 compress) (initial, [])).2.length = message.length % 64 := by
    rw [foldl_absorb (by decide), rest, List.length_drop]
    omega
  rw [hlen, Nat.mod_mod, hcount, lengthBytes_eq hlt, ← padding] at hpad
  refine ⟨swapState ((padding message.length).foldl Sha1.addUncounted s), ?_,
    hkey.keyBuffer, hkey.innerHash⟩
  rw [Sha1.result, hpad, Option.map_some]
  have hstate : (swapState ((padding message.length).foldl Sha1.addUncounted s)).state =
      (stateOf ((blocks 64 (message ++ padding message.length)).foldl compress initial)).map
        swapBytes := by
    rw [swapState, hpadded.state]
  rw [hstate, digest_eq, SecureHash.sha1]

theorem result_write_init (s : Sha1nfo) (message : List Byte) (h : message.length < 2 ^ 32) :
    ∃ s', result (write (init s) message) = some (s', SecureHash.sha1 message) ∧ SameKeys s s' := by
  obtain ⟨hrun, hcount, hkey⟩ := (holds_init s).write message
  have hinit : SameKeys s (init s) := ⟨rfl, rfl⟩
  obtain ⟨s', hresult, hkey'⟩ := hrun.result (hcount.trans (BitVec.zero_add _)) h
  exact ⟨s', hresult, (hinit.trans hkey).trans hkey'⟩

theorem foldl_write (s : Sha1nfo) (chunks : List (List Byte)) :
    chunks.foldl write s = write s chunks.flatten := by
  rw [write, List.foldl_flatten]
  rfl

/-- Whatever the structure holds before, and however the bytes are cut into writes, the result is
the hash of the standard. -/
theorem result_sha1 (s : Sha1nfo) (chunks : List (List Byte))
    (h : chunks.flatten.length < 2 ^ 32) :
    (result (chunks.foldl write (init s))).map Prod.snd =
      some (SecureHash.sha1 chunks.flatten) := by
  obtain ⟨s', hresult, -⟩ := result_write_init s chunks.flatten h
  rw [foldl_write, hresult, Option.map_some]

/-- A structure whose memory is not set. -/
def unset : Sha1nfo where
  buffer := Vector.replicate 16 0xa5a5a5a5
  state := Vector.replicate 5 0xa5a5a5a5
  byteCount := 0xa5a5a5a5
  bufferOffset := 0xa5
  keyBuffer := List.replicate 64 0xa5
  innerHash := List.replicate 20 0xa5

theorem result_sha1_twoChunks :
    (result ([[0x61], [0x62, 0x63]].foldl write (init unset))).map Prod.snd =
      some (SecureHash.sha1 [0x61, 0x62, 0x63]) :=
  result_sha1 unset [[0x61], [0x62, 0x63]] (by decide)

theorem sha1_eq (s : Sha1nfo) (data : List Byte) (h : data.length < 2 ^ 32) :
    sha1 s data = some (SecureHash.sha1 data) := by
  obtain ⟨s', hresult, -⟩ := result_write_init s data h
  rw [sha1, hresult, Option.map_some]

/-! ## Authentication codes -/

theorem length_sha1 (message : List Byte) : (SecureHash.sha1 message).length = 20 := rfl

theorem length_blockKey (key : List Byte) : (blockKey SecureHash.sha1 64 key).length = 64 := by
  rw [blockKey]
  split
  · rw [List.length_append, List.length_replicate, length_sha1]
  · rw [List.length_append, List.length_replicate]
    omega

theorem initHmac_spec (s : Sha1nfo) (key : List Byte) (h : key.length < 2 ^ 32) :
    ∃ s', initHmac s key =
        some (write (init s') ((blockKey SecureHash.sha1 64 key).map (· ^^^ 0x36))) ∧
      s'.keyBuffer = blockKey SecureHash.sha1 64 key := by
  have hdrop : ∀ n, (List.replicate 64 (0 : Byte)).drop n = List.replicate (64 - n) 0 := fun n =>
    List.drop_replicate ..
  rw [initHmac, blockKey]
  by_cases hlong : 64 < key.length
  · obtain ⟨s', hresult, hkeys⟩ :=
      result_write_init { s with keyBuffer := List.replicate 64 0 } key h
    rw [if_pos hlong, if_pos hlong, hresult]
    dsimp only [bind, Option.bind]
    rw [hkeys.keyBuffer, hdrop]
    exact ⟨_, rfl, rfl⟩
  · rw [if_neg hlong, if_neg hlong]
    dsimp only [bind, Option.bind]
    rw [hdrop]
    exact ⟨_, rfl, rfl⟩

/-- The code is that of the standard for message authentication, over any writes of the text. -/
theorem resultHmac_hmac (s : Sha1nfo) (key : List Byte) (chunks : List (List Byte))
    (hkey : key.length < 2 ^ 31) (htext : 64 + chunks.flatten.length < 2 ^ 32) :
    ((initHmac s key).bind fun s => resultHmac (chunks.foldl write s)) =
      some (hmac SecureHash.sha1 64 key chunks.flatten) := by
  obtain ⟨s', hinit, hkeys⟩ := initHmac_spec s key (by omega)
  rw [hinit, Option.bind_some, foldl_write, hmac]
  have hkeyLen := length_blockKey key
  generalize blockKey SecureHash.sha1 64 key = k at hkeys hkeyLen ⊢
  have hinner : write (write (init s') (k.map (· ^^^ 0x36))) chunks.flatten =
      write (init s') (k.map (· ^^^ 0x36) ++ chunks.flatten) := List.foldl_append.symm
  obtain ⟨s₁, hresult₁, hkeys₁⟩ := result_write_init s' (k.map (· ^^^ 0x36) ++ chunks.flatten)
    (by rw [List.length_append, List.length_map, hkeyLen]; exact htext)
  rw [resultHmac, hinner, hresult₁]
  dsimp only [bind, Option.bind]
  generalize hhash : SecureHash.sha1 (k.map (· ^^^ 0x36) ++ chunks.flatten) = hash
  obtain ⟨-, -, hkeys₂⟩ := (holds_init { s₁ with innerHash := hash }).write
    (s₁.keyBuffer.map (· ^^^ 0x5c))
  have houter : write (write (init { s₁ with innerHash := hash })
      (s₁.keyBuffer.map (· ^^^ 0x5c))) hash =
      write (init { s₁ with innerHash := hash }) (k.map (· ^^^ 0x5c) ++ hash) := by
    rw [hkeys₁.keyBuffer, hkeys]
    exact List.foldl_append.symm
  obtain ⟨s₂, hresult₂, -⟩ := result_write_init { s₁ with innerHash := hash }
    (k.map (· ^^^ 0x5c) ++ hash) (by
      rw [← hhash, List.length_append, List.length_map, hkeyLen, length_sha1]
      decide)
  have hinnerHash : (write (init { s₁ with innerHash := hash })
      (s₁.keyBuffer.map (· ^^^ 0x5c))).innerHash = hash := hkeys₂.innerHash
  rw [hinnerHash, houter, hresult₂]

/-- A key longer than a block, and a text in two writes. -/
theorem resultHmac_hmac_longKey :
    ((initHmac unset (List.replicate 65 0xaa)).bind fun s =>
        resultHmac ([[0x61], [0x62, 0x63]].foldl write s)) =
      some (hmac SecureHash.sha1 64 (List.replicate 65 0xaa) [0x61, 0x62, 0x63]) :=
  resultHmac_hmac unset (List.replicate 65 0xaa) [[0x61], [0x62, 0x63]] (by decide) (by decide)

end AflPlusPlus.Sha1
