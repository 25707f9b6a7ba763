import AflPlusPlus.Mutations

/-!
# The bounds of the havoc mutations

Each operator is followed with the sizes of the two buffers and the current length. Where an
operator grows the buffer, there has to be room for what it adds; most of them check that
themselves.
-/

namespace AflPlusPlus.Mutations
open ByteWords ByteBuffers CheckedBlocks CheckedPrograms DeterministicStages

/-- Both buffers have room for `max_len` bytes, and the given number is in use. -/
structure At (cfg : Config) (len : ℕ) (s : Havoc) : Prop where
  size_buf : s.buf.size = cfg.maxLen
  size_tmpBuf : s.tmpBuf.size = cfg.maxLen
  len_eq : s.len = len

/-- What holds between two passes. -/
def Sized (cfg : Config) (s : Havoc) : Prop := ∃ len, At cfg len s ∧ 0 < len ∧ len ≤ cfg.maxLen

/-- All accesses are inside the buffers, and the postcondition holds when the random numbers are
enough for the program. -/
abbrev Safely {α : Type} (p : Mutator α) (Q : α → Havoc → Prop) (s : Havoc) : Prop :=
  wp (· = Stop.noDraws) p Q s

abbrev Safe {α : Type} (cfg : Config) (p : Mutator α) (s : Havoc) : Prop :=
  Safely p (fun _ t => Sized cfg t) s

/-! ## The memory -/

section Memory
variable {cfg : Config} {len i n : ℕ} {s : Havoc}

theorem getLen_spec (h : At cfg len s) : Safely getLen (fun x t => x = len ∧ At cfg len t) s :=
  ⟨h.len_eq, h⟩

theorem setLen_spec (h : At cfg len s) (n : ℕ) : Safely (setLen n) (fun _ t => At cfg n t) s :=
  ⟨h.size_buf, h.size_tmpBuf, rfl⟩

theorem readBuf_spec (h : At cfg len s) (hi : i + n ≤ cfg.maxLen) :
    Safely (readBuf i n) (fun _ t => At cfg len t) s := by
  unfold Safely wp readBuf
  rw [if_pos (h.size_buf ▸ hi)]
  exact h

theorem writeBuf_spec (h : At cfg len s) (hi : i + n ≤ cfg.maxLen) (bytes : ℕ → Byte) :
    Safely (writeBuf i n bytes) (fun _ t => At cfg len t) s := by
  unfold Safely wp writeBuf
  rw [if_pos (h.size_buf ▸ hi)]
  exact { h with }

theorem readTmp_spec (h : At cfg len s) (hi : i + n ≤ cfg.maxLen) :
    Safely (readTmp i n) (fun _ t => At cfg len t) s := by
  unfold Safely wp readTmp
  rw [if_pos (h.size_tmpBuf ▸ hi)]
  exact h

theorem writeTmp_spec (h : At cfg len s) (hi : i + n ≤ cfg.maxLen) (bytes : ℕ → Byte) :
    Safely (writeTmp i n bytes) (fun _ t => At cfg len t) s := by
  unfold Safely wp writeTmp
  rw [if_pos (h.size_tmpBuf ▸ hi)]
  exact { h with }

theorem readSplice_spec (h : At cfg len s) (hi : i + n ≤ cfg.spliceBuf.length) :
    Safely (readSplice cfg i n) (fun _ t => At cfg len t) s := by
  unfold Safely wp readSplice
  rw [if_pos hi]
  exact h

theorem loadBuf_spec (h : At cfg len s) (hi : i < cfg.maxLen) :
    Safely (loadBuf i) (fun _ t => At cfg len t) s := by
  unfold loadBuf
  exact wp_cut (readBuf_spec h hi) fun _ _ h => h

theorem storeBuf_spec (h : At cfg len s) (hi : i < cfg.maxLen) (b : Byte) :
    Safely (storeBuf i b) (fun _ t => At cfg len t) s := writeBuf_spec h hi _

end Memory

/-! ## Random numbers -/

section Random
variable {cfg : Config} {len limit avoid : ℕ} {s : Havoc}

theorem randNext_spec (h : At cfg len s) : Safely randNext (fun _ t => At cfg len t) s := by
  unfold Safely wp randNext
  cases s.draws with
  | nil => rfl
  | cons r draws => exact { h with }

theorem randBelow_spec (h : At cfg len s) (limit : ℕ) :
    Safely (randBelow limit) (fun r t => r < max limit 1 ∧ At cfg len t) s := by
  unfold randBelow
  refine wp_ite (fun hlimit => ⟨by omega, h⟩) fun hlimit => ?_
  refine wp_cut (randNext_spec h) fun r t h => ⟨?_, h⟩
  have := Nat.mod_lt r (y := limit) (by omega)
  omega

theorem drawOther_spec (h : At cfg len s) (hlimit : 0 < limit) (draws : List ℕ) :
    Safely (fun s => drawOther limit avoid s draws)
      (fun j t => (j < limit ∧ j ≠ avoid) ∧ At cfg len t) s := by
  unfold Safely wp
  induction draws with
  | nil => rfl
  | cons r draws ih =>
    simp only [drawOther]
    by_cases heq : r % 2 ^ 64 % limit = avoid
    · rw [if_pos heq]
      exact ih
    · rw [if_neg heq]
      exact ⟨⟨Nat.mod_lt _ hlimit, heq⟩, h.size_buf, h.size_tmpBuf, h.len_eq⟩

theorem randOther_spec (h : At cfg len s) (hlimit : 0 < limit) :
    Safely (randOther limit avoid) (fun j t => (j < limit ∧ j ≠ avoid) ∧ At cfg len t) s :=
  drawOther_spec h hlimit s.draws

/-- The bounds of a block. -/
def BlockRange (r : ℕ × ℕ) : Prop := 0 < r.1 ∧ r.1 < r.2 ∧ r.2 ≤ blkXl

instance (r : ℕ × ℕ) : Decidable (BlockRange r) := inferInstanceAs (Decidable (_ ∧ _ ∧ _))

theorem blockBounds_spec (h : At cfg len s) :
    Safely (blockBounds cfg) (fun r t => BlockRange r ∧ At cfg len t) s := by
  unfold blockBounds
  refine wp_cut (randBelow_spec h _) ?_
  rintro r s ⟨-, h⟩
  refine wp_ite (fun _ => ⟨by decide, h⟩) fun _ => ?_
  refine wp_ite (fun _ => ⟨by decide, h⟩) fun _ => ?_
  refine wp_cut (randBelow_spec h _) ?_
  rintro r s ⟨-, h⟩
  exact wp_ite (fun _ => ⟨by decide, h⟩) fun _ => ⟨by decide, h⟩

theorem chooseBlockLen_spec (h : At cfg len s) (limit : ℕ) (hlimit : limit < 2 ^ 32) :
    Safely (chooseBlockLen cfg limit)
      (fun n t => (0 < n ∧ n ≤ max limit 1 ∧ n ≤ blkXl) ∧ At cfg len t) s := by
  unfold chooseBlockLen
  refine wp_cut (blockBounds_spec h) ?_
  rintro ⟨minValue, maxValue⟩ s ⟨⟨hpos, hlt, hle⟩, h⟩
  refine wp_cut (randBelow_spec h _) ?_
  rintro r s ⟨hr, h⟩
  refine ⟨?_, h⟩
  unfold blkXl at hle ⊢
  dsimp only at hpos hlt hle hr ⊢
  split at hr <;> split <;> omega

end Random

/-! ## Operators that keep the length -/

section Operators
variable {cfg : Config} {len pos n : ℕ} {s : Havoc}

theorem At.sized (h : At cfg len s) (hlen : 0 < len) (hle : len ≤ cfg.maxLen) : Sized cfg s :=
  ⟨len, h, hlen, hle⟩

theorem alterByte_safe (h : At cfg len s) (hpos : pos < len) (hle : len ≤ cfg.maxLen)
    (f : Byte → Byte) : Safe cfg (alterByte pos f) s := by
  unfold alterByte
  refine wp_cut (loadBuf_spec h (hpos.trans_le hle)) fun b s h => ?_
  refine wp_cut (storeBuf_spec h (hpos.trans_le hle) _) fun _ s h => ?_
  exact h.sized (by omega) hle

theorem changeByte_safe (h : At cfg len s) (hlen : 0 < len) (hle : len ≤ cfg.maxLen)
    (f : Byte → Byte) : Safe cfg (changeByte f) s := by
  unfold changeByte
  refine wp_cut (getLen_spec h) ?_
  rintro len s ⟨rfl, h⟩
  refine wp_cut (randBelow_spec h _) ?_
  rintro pos s ⟨hpos, h⟩
  exact alterByte_safe h (by omega) hle f

theorem flipbit_safe (h : At cfg len s) (hlen : 0 < len) (hle : len ≤ cfg.maxLen) :
    Safe cfg flipbit s := by
  unfold flipbit
  refine wp_cut (randBelow_spec h _) ?_
  rintro bit s ⟨-, h⟩
  exact changeByte_safe h hlen hle _

theorem interesting8_safe (h : At cfg len s) (hlen : 0 < len) (hle : len ≤ cfg.maxLen) :
    Safe cfg interesting8 s := by
  unfold interesting8
  refine wp_cut (randBelow_spec h _) ?_
  rintro item s ⟨-, h⟩
  refine wp_cut (getLen_spec h) ?_
  rintro len s ⟨rfl, h⟩
  refine wp_cut (randBelow_spec h _) ?_
  rintro pos s ⟨hpos, h⟩
  refine wp_cut (storeBuf_spec h (by omega) _) fun _ s h => ?_
  exact h.sized hlen hle

theorem interestingWord_safe (h : At cfg len s) (hlen : 0 < len) (hle : len ≤ cfg.maxLen)
    (hn : 0 < n) (table : List ℤ) (swap : Word n → Word n) :
    Safe cfg (interestingWord n table swap) s := by
  unfold interestingWord
  refine wp_cut (getLen_spec h) ?_
  rintro len s ⟨rfl, h⟩
  refine wp_ite (fun _ => h.sized hlen hle) fun hroom => ?_
  refine wp_cut (randBelow_spec h _) ?_
  rintro item s ⟨-, h⟩
  refine wp_cut (randBelow_spec h _) ?_
  rintro pos s ⟨hpos, h⟩
  refine wp_cut (writeBuf_spec h (by omega) _) fun _ s h => ?_
  exact h.sized hlen hle

theorem arithByte_safe (h : At cfg len s) (hlen : 0 < len) (hle : len ≤ cfg.maxLen)
    (f : Byte → Byte → Byte) : Safe cfg (arithByte f) s := by
  unfold arithByte
  refine wp_cut (randBelow_spec h _) ?_
  rintro item s ⟨-, h⟩
  exact changeByte_safe h hlen hle _

theorem arithWord_safe (h : At cfg len s) (hlen : 0 < len) (hle : len ≤ cfg.maxLen)
    (hn : 0 < n) (f : Word n → Word n → Word n) : Safe cfg (arithWord n f) s := by
  unfold arithWord
  refine wp_cut (getLen_spec h) ?_
  rintro len s ⟨rfl, h⟩
  refine wp_ite (fun _ => h.sized hlen hle) fun hroom => ?_
  refine wp_cut (randBelow_spec h _) ?_
  rintro pos s ⟨hpos, h⟩
  refine wp_cut (randBelow_spec h _) ?_
  rintro item s ⟨-, h⟩
  refine wp_cut (readBuf_spec h (by omega)) fun bytes s h => ?_
  refine wp_cut (writeBuf_spec h (by omega) _) fun _ s h => ?_
  exact h.sized hlen hle

theorem rand8_safe (h : At cfg len s) (hlen : 0 < len) (hle : len ≤ cfg.maxLen) :
    Safe cfg rand8 s := by
  unfold rand8
  refine wp_cut (getLen_spec h) ?_
  rintro len s ⟨rfl, h⟩
  refine wp_cut (randBelow_spec h _) ?_
  rintro pos s ⟨hpos, h⟩
  refine wp_cut (randBelow_spec h _) ?_
  rintro item s ⟨-, h⟩
  exact alterByte_safe h (by omega) hle _

theorem noRoom_safe (h : At cfg len s) (hlen : 0 < len) (hle : len ≤ cfg.maxLen) (n : ℕ) :
    Safe cfg (noRoom n) s := h.sized hlen hle

theorem fixedByte_spec (h : At cfg len s) {dst : ℕ} (hdst : dst < cfg.maxLen) :
    Safely (fixedByte dst) (fun _ t => At cfg len t) s := by
  unfold fixedByte
  refine wp_cut (randBelow_spec h _) ?_
  rintro strat s ⟨-, h⟩
  refine wp_ite (fun _ => ?_) fun _ => loadBuf_spec h (by omega)
  refine wp_cut (randBelow_spec h _) ?_
  rintro item s ⟨-, h⟩
  exact h

theorem overwriteCopy_safe (h : At cfg len s) (hlen : 0 < len) (hle : len ≤ cfg.maxLen)
    (hmax : cfg.maxLen < 2 ^ 32) : Safe cfg (overwriteCopy cfg) s := by
  unfold overwriteCopy
  refine wp_cut (getLen_spec h) ?_
  rintro len s ⟨rfl, h⟩
  refine wp_ite (fun _ => h.sized hlen hle) fun hroom => ?_
  refine wp_cut (chooseBlockLen_spec h _ (by omega)) ?_
  rintro copyLen s ⟨⟨hpos, hcopy, -⟩, h⟩
  refine wp_cut (randBelow_spec h _) ?_
  rintro copyFrom s ⟨hfrom, h⟩
  refine wp_cut (randBelow_spec h _) ?_
  rintro copyTo s ⟨hto, h⟩
  refine wp_ite (fun _ => ?_) fun _ => h.sized hlen hle
  refine wp_cut (readBuf_spec h (by omega)) fun bytes s h => ?_
  refine wp_cut (writeBuf_spec h (by omega) _) fun _ s h => ?_
  exact h.sized hlen hle

theorem overwriteFixed_safe (h : At cfg len s) (hlen : 0 < len) (hle : len ≤ cfg.maxLen)
    (hmax : cfg.maxLen < 2 ^ 32) : Safe cfg (overwriteFixed cfg) s := by
  unfold overwriteFixed
  refine wp_cut (getLen_spec h) ?_
  rintro len s ⟨rfl, h⟩
  refine wp_ite (fun _ => h.sized hlen hle) fun hroom => ?_
  refine wp_cut (chooseBlockLen_spec h _ (by omega)) ?_
  rintro copyLen s ⟨⟨hpos, hcopy, -⟩, h⟩
  refine wp_cut (randBelow_spec h _) ?_
  rintro copyTo s ⟨hto, h⟩
  refine wp_cut (fixedByte_spec h (by omega)) fun item s h => ?_
  refine wp_cut (writeBuf_spec h (by omega) _) fun _ s h => ?_
  exact h.sized hlen hle

/-- The two blocks do not reach beyond the end of the buffer. -/
theorem switch_safe (h : At cfg len s) (hlen : 0 < len) (hle : len ≤ cfg.maxLen)
    (hmax : cfg.maxLen < 2 ^ 32) : Safe cfg (switch cfg) s := by
  unfold switch
  refine wp_cut (getLen_spec h) ?_
  rintro len s ⟨rfl, h⟩
  refine wp_ite (fun _ => h.sized hlen hle) fun hroom => ?_
  refine wp_cut (randBelow_spec h _) ?_
  rintro switchFrom s ⟨hfrom, h⟩
  refine wp_cut (randOther_spec h hlen) ?_
  rintro switchTo s ⟨⟨hto, hne⟩, h⟩
  refine wp_cut (chooseBlockLen_spec h _ (by split <;> omega)) ?_
  rintro switchLen s ⟨⟨hpos, hswitch, -⟩, h⟩
  have hfits : switchFrom + switchLen ≤ len ∧ switchTo + switchLen ≤ len := by
    split at hswitch <;> omega
  refine wp_cut (readBuf_spec h (by omega)) fun backup s h => ?_
  refine wp_cut (writeTmp_spec h (by omega) _) fun _ s h => ?_
  refine wp_cut (readBuf_spec h (by omega)) fun bytes s h => ?_
  refine wp_cut (writeBuf_spec h (by omega) _) fun _ s h => ?_
  refine wp_cut (readTmp_spec h (by omega)) fun backup s h => ?_
  refine wp_cut (writeBuf_spec h (by omega) _) fun _ s h => ?_
  exact h.sized hlen hle

theorem shuffleFrom_spec {off i : ℕ} (h : At cfg len s) (hi : off + i < cfg.maxLen) :
    Safely (shuffleFrom off i) (fun _ t => At cfg len t) s := by
  induction i generalizing s with
  | zero => exact h
  | succ i ih =>
    unfold shuffleFrom
    refine wp_cut (randOther_spec h (by omega)) ?_
    rintro j s ⟨⟨hj, -⟩, h⟩
    refine wp_cut (loadBuf_spec h (by omega)) fun temp s h => ?_
    refine wp_cut (loadBuf_spec h (by omega)) fun other s h => ?_
    refine wp_cut (storeBuf_spec h (by omega) _) fun _ s h => ?_
    refine wp_cut (storeBuf_spec h (by omega) _) fun _ s h => ?_
    exact ih h (by omega)

theorem shuffle_safe (h : At cfg len s) (hlen : 0 < len) (hle : len ≤ cfg.maxLen)
    (hmax : cfg.maxLen < 2 ^ 32) : Safe cfg (shuffle cfg) s := by
  unfold shuffle
  refine wp_cut (getLen_spec h) ?_
  rintro len s ⟨rfl, h⟩
  refine wp_ite (fun _ => h.sized hlen hle) fun hroom => ?_
  refine wp_cut (chooseBlockLen_spec h _ (by omega)) ?_
  rintro blen s ⟨⟨hpos, hblen, -⟩, h⟩
  refine wp_cut (randBelow_spec h _) ?_
  rintro off s ⟨hoff, h⟩
  refine wp_cut (shuffleFrom_spec h (by omega)) fun _ s h => ?_
  exact h.sized hlen hle

theorem insertasciinum_safe (h : At cfg len s) (hlen : 0 < len) (hle : len ≤ cfg.maxLen)
    (hroom : len + 8 ≤ 2 ^ 32) : Safe cfg insertasciinum s := by
  unfold insertasciinum
  refine wp_cut (randBelow_spec h _) ?_
  rintro insLen s ⟨hins, h⟩
  refine wp_cut (getLen_spec h) ?_
  rintro len s ⟨rfl, h⟩
  refine wp_cut (randBelow_spec h _) ?_
  rintro pos s ⟨hpos, h⟩
  refine wp_ite (fun _ => noRoom_safe h hlen hle _) fun hfits => ?_
  refine wp_cut (randNext_spec h) fun val s h => ?_
  refine wp_cut (writeBuf_spec h ?_ _) fun _ s h => h.sized hlen hle
  split <;> omega

theorem useExtra_spec (h : At cfg len s) (extras : List Buffer) :
    Safely (useExtra extras) (fun _ t => At cfg len t) s := by
  unfold useExtra
  refine wp_ite (fun _ => h) fun hne => ?_
  have hpos := List.length_pos_of_ne_nil hne
  refine wp_cut (randBelow_spec h _) ?_
  rintro i s ⟨hi, h⟩
  rw [List.getElem?_eq_getElem (by omega)]
  exact h

theorem overwriteExtra_safe (h : At cfg len s) (hlen : 0 < len) (hle : len ≤ cfg.maxLen)
    (extras : List Buffer) : Safe cfg (overwriteExtra extras) s := by
  unfold overwriteExtra
  refine wp_cut (useExtra_spec h extras) fun extra s h => ?_
  cases extra with
  | none => exact h.sized hlen hle
  | some extra =>
    refine wp_cut (getLen_spec h) ?_
    rintro len s ⟨rfl, h⟩
    refine wp_ite (fun _ => h.sized hlen hle) fun hroom => ?_
    refine wp_cut (randBelow_spec h _) ?_
    rintro insertAt s ⟨hat, h⟩
    refine wp_cut (writeBuf_spec h (by omega) _) fun _ s h => ?_
    exact h.sized hlen hle

theorem spliceOverwrite_safe (h : At cfg len s) (hlen : 0 < len) (hle : len ≤ cfg.maxLen)
    (hsplice : cfg.spliceBuf.length < 2 ^ 32) : Safe cfg (spliceOverwrite cfg) s := by
  unfold spliceOverwrite
  refine wp_cut (getLen_spec h) ?_
  rintro len s ⟨rfl, h⟩
  refine wp_ite (fun _ => h.sized hlen hle) fun hsome => ?_
  refine wp_cut (chooseBlockLen_spec h _ (by omega)) ?_
  rintro copyLen s ⟨⟨hpos, hcopy, -⟩, h⟩
  have hmin : (if copyLen > len then len else copyLen) ≤ len ∧
      (if copyLen > len then len else copyLen) ≤ cfg.spliceBuf.length := by
    split <;> omega
  dsimp only
  generalize (if copyLen > len then len else copyLen) = copyLen at hmin ⊢
  refine wp_cut (randBelow_spec h _) ?_
  rintro copyFrom s ⟨hfrom, h⟩
  refine wp_cut (randBelow_spec h _) ?_
  rintro copyTo s ⟨hto, h⟩
  refine wp_cut (readSplice_spec h (by omega)) fun bytes s h => ?_
  refine wp_cut (writeBuf_spec h (by omega) _) fun _ s h => ?_
  exact h.sized hlen hle

end Operators

/-! ## Operators that change the length -/

section Growing
variable {cfg : Config} {len dst n tail newLen : ℕ} {s : Havoc}

/-- The parts have to fit together in `tmp_buf`. -/
theorem rebuild_safe (h : At cfg len s) (hle : len ≤ cfg.maxLen) (hdst : dst ≤ len)
    (htail : tail ≤ len) (hnew : dst + n + (len - tail) = newLen) (hpos : 0 < newLen)
    (hfits : newLen ≤ cfg.maxLen) (part : ℕ → Byte) :
    Safe cfg (rebuild dst n tail newLen part) s := by
  unfold rebuild
  refine wp_cut (getLen_spec h) ?_
  rintro len s ⟨rfl, h⟩
  refine wp_cut (readBuf_spec h (by omega)) fun head s h => ?_
  refine wp_cut (writeTmp_spec h (by omega) _) fun _ s h => ?_
  refine wp_cut (writeTmp_spec h (by omega) _) fun _ s h => ?_
  refine wp_cut (readBuf_spec h (by omega)) fun rest s h => ?_
  refine wp_cut (writeTmp_spec h (by omega) _) fun _ s h => ?_
  refine wp_cut (setLen_spec h _) fun _ s h => ?_
  refine wp_cut (readTmp_spec h (by omega)) fun all s h => ?_
  refine wp_cut (writeBuf_spec h (by omega) _) fun _ s h => ?_
  exact h.sized hpos hfits

theorem insertPart_safe (h : At cfg len s) (hlen : 0 < len) (hmax : cfg.maxLen < 2 ^ 32)
    (hdst : dst ≤ len) (hfits : len + n ≤ cfg.maxLen) (part : ℕ → Byte) :
    Safe cfg (insertPart dst n part) s := by
  unfold insertPart
  refine wp_cut (getLen_spec h) ?_
  rintro len s ⟨rfl, h⟩
  have hsum : (len + n) % 2 ^ 32 = len + n := Nat.mod_eq_of_lt (by omega)
  rw [hsum]
  exact rebuild_safe h (by omega) hdst hdst (by omega) (by omega) hfits part

/-- The operator checks that there is room for the largest block. -/
theorem cloneCopy_safe (h : At cfg len s) (hlen : 0 < len) (hle : len ≤ cfg.maxLen)
    (hmax : cfg.maxLen < 2 ^ 32) (hroom : len + blkXl < 2 ^ 32) :
    Safe cfg (cloneCopy cfg) s := by
  unfold cloneCopy
  refine wp_cut (getLen_spec h) ?_
  rintro len s ⟨rfl, h⟩
  refine wp_ite (fun hcheck => ?_) fun _ => noRoom_safe h hlen hle _
  rw [Nat.mod_eq_of_lt hroom] at hcheck
  refine wp_cut (chooseBlockLen_spec h _ (by omega)) ?_
  rintro cloneLen s ⟨⟨hpos, hclone, hblock⟩, h⟩
  refine wp_cut (randBelow_spec h _) ?_
  rintro cloneFrom s ⟨hfrom, h⟩
  refine wp_cut (randBelow_spec h _) ?_
  rintro cloneTo s ⟨hto, h⟩
  refine wp_cut (readBuf_spec h (by omega)) fun part s h => ?_
  exact insertPart_safe h hlen hmax (by omega) (by omega) part

theorem cloneFixed_safe (h : At cfg len s) (hlen : 0 < len) (hle : len ≤ cfg.maxLen)
    (hmax : cfg.maxLen < 2 ^ 32) (hroom : len + blkXl < 2 ^ 32) :
    Safe cfg (cloneFixed cfg) s := by
  unfold cloneFixed
  refine wp_cut (getLen_spec h) ?_
  rintro len s ⟨rfl, h⟩
  refine wp_ite (fun hcheck => ?_) fun _ => noRoom_safe h hlen hle _
  rw [Nat.mod_eq_of_lt hroom] at hcheck
  refine wp_cut (chooseBlockLen_spec h _ (by decide)) ?_
  rintro cloneLen s ⟨⟨hpos, -, hblock⟩, h⟩
  refine wp_cut (randBelow_spec h _) ?_
  rintro cloneTo s ⟨hto, h⟩
  refine wp_cut (fixedByte_spec h (by omega)) fun item s h => ?_
  exact insertPart_safe h hlen hmax (by omega) (by omega) _

theorem spliceInsert_safe (h : At cfg len s) (hlen : 0 < len) (hle : len ≤ cfg.maxLen)
    (hmax : cfg.maxLen < 2 ^ 32) (hsplice : cfg.spliceBuf.length < 2 ^ 32)
    (hroom : len + blkXl < 2 ^ 32) : Safe cfg (spliceInsert cfg) s := by
  unfold spliceInsert
  refine wp_cut (getLen_spec h) ?_
  rintro len s ⟨rfl, h⟩
  refine wp_ite (fun _ => h.sized hlen hle) fun hsome => ?_
  refine wp_ite (fun _ => h.sized hlen hle) fun hcheck => ?_
  rw [Nat.mod_eq_of_lt hroom] at hcheck
  refine wp_cut (chooseBlockLen_spec h _ hsplice) ?_
  rintro cloneLen s ⟨⟨hpos, hclone, hblock⟩, h⟩
  refine wp_cut (randBelow_spec h _) ?_
  rintro cloneFrom s ⟨hfrom, h⟩
  refine wp_cut (randBelow_spec h _) ?_
  rintro cloneTo s ⟨hto, h⟩
  have hinc : incU32 len = len + 1 := incU32_eq (by omega)
  refine wp_cut (readSplice_spec h (by omega)) fun part s h => ?_
  exact insertPart_safe h hlen hmax (by omega) (by omega) part

/-- The operator checks nothing. -/
theorem insertone_safe (h : At cfg len s) (hlen : 0 < len) (hle : len ≤ cfg.maxLen)
    (hmax : cfg.maxLen < 2 ^ 32) (hroom : len < 2 ∨ len < cfg.maxLen) :
    Safe cfg insertone s := by
  unfold insertone
  refine wp_cut (getLen_spec h) ?_
  rintro len s ⟨rfl, h⟩
  refine wp_ite (fun _ => h.sized hlen hle) fun htwo => ?_
  refine wp_cut (randBelow_spec h _) ?_
  rintro cloneTo s ⟨hto, h⟩
  refine wp_cut (fixedByte_spec h (by omega)) fun item s h => ?_
  exact insertPart_safe h hlen hmax (by omega) (by omega) _

/-- The operator checks that there is room for the token. -/
theorem insertExtra_safe (h : At cfg len s) (hlen : 0 < len) (hle : len ≤ cfg.maxLen)
    (extras : List Buffer)
    (hroom : ∀ extra t, useExtra extras s = .ok (some extra, t) → len + extra.length < 2 ^ 32) :
    Safe cfg (insertExtra cfg extras) s := by
  unfold insertExtra
  refine wp_cut (wp_of_forall (useExtra_spec h extras)
    (R := fun r _ => ∀ extra, r = some extra → len + extra.length < 2 ^ 32)
    fun r t hrun extra hr => hroom extra t (hr ▸ hrun)) ?_
  rintro r s ⟨h, hroom⟩
  cases r with
  | none => exact h.sized hlen hle
  | some extra =>
    have hlt := hroom extra rfl
    refine wp_cut (getLen_spec h) ?_
    rintro len s ⟨rfl, h⟩
    have hsum : (len + extra.length) % 2 ^ 32 = len + extra.length := Nat.mod_eq_of_lt hlt
    refine wp_ite (fun _ => h.sized hlen hle) fun hcheck => ?_
    rw [hsum] at hcheck ⊢
    refine wp_cut (randBelow_spec h _) ?_
    rintro insertAt s ⟨hat, h⟩
    have hinsert : insertAt ≤ len := by
      unfold incU32 at hat
      omega
    refine wp_cut (readBuf_spec h (by omega)) fun tail s h => ?_
    refine wp_cut (writeBuf_spec h (by omega) _) fun _ s h => ?_
    refine wp_cut (writeBuf_spec h (by omega) _) fun _ s h => ?_
    refine wp_cut (setLen_spec h _) fun _ s h => ?_
    exact h.sized (by omega) (by omega)

theorem deleteBlock_safe (h : At cfg len s) (hle : len ≤ cfg.maxLen) {delLen : ℕ}
    (hdel : delLen < len) : Safe cfg (deleteBlock delLen) s := by
  unfold deleteBlock
  refine wp_cut (getLen_spec h) ?_
  rintro len s ⟨rfl, h⟩
  refine wp_cut (randBelow_spec h _) ?_
  rintro delFrom s ⟨hfrom, h⟩
  refine wp_cut (readBuf_spec h (by omega)) fun bytes s h => ?_
  refine wp_cut (writeBuf_spec h (by omega) _) fun _ s h => ?_
  refine wp_cut (setLen_spec h _) fun _ s h => ?_
  exact h.sized (by omega) (by omega)

theorem del_safe (h : At cfg len s) (hlen : 0 < len) (hle : len ≤ cfg.maxLen)
    (hmax : cfg.maxLen < 2 ^ 32) : Safe cfg (del cfg) s := by
  unfold del
  refine wp_cut (getLen_spec h) ?_
  rintro len s ⟨rfl, h⟩
  refine wp_ite (fun _ => h.sized hlen hle) fun htwo => ?_
  refine wp_cut (chooseBlockLen_spec h _ (by omega)) ?_
  rintro delLen s ⟨⟨hpos, hdel, -⟩, h⟩
  exact deleteBlock_safe h hle (by omega)

theorem delone_safe (h : At cfg len s) (hlen : 0 < len) (hle : len ≤ cfg.maxLen) :
    Safe cfg delone s := by
  unfold delone
  refine wp_cut (getLen_spec h) ?_
  rintro len s ⟨rfl, h⟩
  exact wp_ite (fun _ => h.sized hlen hle) fun htwo => deleteBlock_safe h hle (by omega)

end Growing

/-! ## Numbers -/

section Numbers
variable {cfg : Config} {len i n : ℕ} {s : Havoc}

theorem countWhile_spec (h : At cfg len s) (p : Byte → Bool) (hi : i + n ≤ cfg.maxLen) :
    Safely (countWhile p i n) (fun cnt t => cnt ≤ n ∧ At cfg len t) s := by
  induction n generalizing i s with
  | zero => exact ⟨le_rfl, h⟩
  | succ n ih =>
    unfold countWhile
    refine wp_cut (loadBuf_spec h (by omega)) fun b s h => ?_
    refine wp_ite (fun _ => ?_) fun _ => ⟨by omega, h⟩
    refine wp_cut (ih h (by omega)) ?_
    rintro cnt s ⟨hcnt, h⟩
    exact ⟨by omega, h⟩

theorem findDigit_spec (h : At cfg len s) (hlen : 0 < len) (hle : len ≤ cfg.maxLen) :
    Safely findDigit (fun r t => (∀ off, r = some off → off < len) ∧ At cfg len t) s := by
  unfold findDigit
  refine wp_cut (getLen_spec h) ?_
  rintro len s ⟨rfl, h⟩
  refine wp_cut (randBelow_spec h _) ?_
  rintro off s ⟨hoff, h⟩
  refine wp_cut (countWhile_spec h _ (by omega)) ?_
  rintro cnt s ⟨hcnt, h⟩
  refine wp_ite (fun hend => ?_) fun hend => ⟨fun pos hpos => ?_, h⟩
  · refine wp_cut (countWhile_spec h _ (by omega)) ?_
    rintro cnt' s ⟨hcnt', h⟩
    refine wp_ite (fun _ => ⟨fun pos hpos => absurd hpos (by simp), h⟩)
      fun hend' => ⟨fun pos hpos => ?_, h⟩
    obtain rfl := Option.some.inj hpos
    omega
  · obtain rfl := Option.some.inj hpos
    omega

theorem readDigits_spec (h : At cfg len s) (hi : i + n ≤ cfg.maxLen) (val : BitVec 64) :
    Safely (readDigits i n val) (fun _ t => At cfg len t) s := by
  induction n generalizing i s val with
  | zero => exact h
  | succ n ih =>
    unfold readDigits
    refine wp_cut (loadBuf_spec h (by omega)) fun b s h => ?_
    exact ih h (by omega) _

theorem changeNumber_spec (h : At cfg len s) (strat : ℕ) (val : BitVec 64) :
    Safely (changeNumber strat val) (fun _ t => At cfg len t) s := by
  unfold changeNumber
  split
  case h_5 =>
    refine wp_ite (fun _ => wp_cut (randNext_spec h) fun _ _ h => h) fun _ => ?_
    exact wp_cut (randBelow_spec h _) fun _ _ h => h.2
  case h_6 => exact wp_cut (randBelow_spec h _) fun _ _ h => h.2
  case h_7 => exact wp_cut (randBelow_spec h _) fun _ _ h => h.2
  all_goals exact h

theorem hasMinus_spec (h : At cfg len s) (hi : i ≤ cfg.maxLen) :
    Safely (hasMinus i) (fun _ t => At cfg len t) s := by
  unfold hasMinus
  refine wp_ite (fun _ => h) fun hne => ?_
  exact wp_cut (loadBuf_spec h (by omega)) fun _ _ h => h

theorem length_signedText_pos (val : ℤ) : 0 < (signedText val).length := by
  unfold signedText unsignedText charBytes
  split <;> simp [Nat.length_toDigits_pos]

/-- Where a number is in the buffer, and that its text is not empty. -/
def InBuffer (len : ℕ) (num : Number) : Prop :=
  num.off < num.off2 ∧ num.off2 ≤ len ∧ 0 < num.text.length

theorem newNumber_spec (h : At cfg len s) (hlen : 0 < len) (hle : len ≤ cfg.maxLen) :
    Safely newNumber (fun r t => (∀ num, r = some num → InBuffer len num) ∧ At cfg len t) s := by
  unfold newNumber
  refine wp_cut (findDigit_spec h hlen hle) ?_
  rintro r s ⟨hoff, h⟩
  cases r with
  | none => exact ⟨fun num hnum => absurd hnum (by simp), h⟩
  | some off =>
    have hoff := hoff off rfl
    refine wp_cut (getLen_spec h) ?_
    rintro len s ⟨rfl, h⟩
    refine wp_cut (countWhile_spec h _ (by omega)) ?_
    rintro cnt s ⟨hcnt, h⟩
    refine wp_cut (loadBuf_spec h (by omega)) fun first s h => ?_
    refine wp_cut (readDigits_spec h (by omega) _) fun val s h => ?_
    refine wp_cut (hasMinus_spec h (by omega)) fun negative s h => ?_
    refine wp_cut (randBelow_spec h _) ?_
    rintro strat s ⟨-, h⟩
    refine wp_cut (changeNumber_spec h _ _) fun val s h => ?_
    refine ⟨fun num hnum => ?_, h⟩
    obtain rfl := Option.some.inj hnum
    refine ⟨by dsimp only; omega, by dsimp only; omega, ?_⟩
    have htext := length_signedText_pos val.toInt
    rw [List.length_take]
    omega

/-- The new text may be longer than the number; that there is room for it is not checked. -/
theorem replaceNumber_safe (h : At cfg len s) (hle : len ≤ cfg.maxLen)
    (hmax : cfg.maxLen < 2 ^ 32) {num : Number} (hnum : InBuffer len num)
    (hroom : len + num.text.length ≤ cfg.maxLen + (num.off2 - num.off)) :
    Safe cfg (replaceNumber num) s := by
  obtain ⟨hlt, hoff2, htext⟩ := hnum
  unfold replaceNumber
  refine wp_cut (getLen_spec h) ?_
  rintro len s ⟨rfl, h⟩
  refine wp_ite (fun hsame => ?_) fun _ => ?_
  · refine wp_cut (writeBuf_spec h (by omega) _) fun _ s h => ?_
    exact h.sized (by omega) hle
  · have hmod : (len + num.text.length - (num.off2 - num.off)) % 2 ^ 32 =
        len + num.text.length - (num.off2 - num.off) := Nat.mod_eq_of_lt (by omega)
    rw [hmod]
    exact rebuild_safe h hle (by omega) hoff2 (by omega) (by omega) (by omega) _

theorem asciinum_safe (h : At cfg len s) (hlen : 0 < len) (hle : len ≤ cfg.maxLen)
    (hmax : cfg.maxLen < 2 ^ 32)
    (hroom : 4 ≤ len → ∀ num t, newNumber s = .ok (some num, t) →
      len + num.text.length ≤ cfg.maxLen + (num.off2 - num.off)) : Safe cfg asciinum s := by
  unfold asciinum
  have hnumber := wp_of_forall (newNumber_spec h hlen hle)
    (R := fun r _ => 4 ≤ len → ∀ num, r = some num →
      len + num.text.length ≤ cfg.maxLen + (num.off2 - num.off))
    fun r t hrun hfour num hnum => hroom hfour num t (hnum ▸ hrun)
  refine wp_cut (Q := fun x t => x = len ∧ t = s) ⟨h.len_eq, rfl⟩ ?_
  rintro len t ⟨rfl, rfl⟩
  refine wp_ite (fun _ => h.sized hlen hle) fun hfour => ?_
  refine wp_cut hnumber ?_
  rintro r s ⟨⟨hnum, h⟩, hroom⟩
  cases r with
  | none => exact noRoom_safe h hlen hle _
  | some num =>
    exact replaceNumber_safe h hle hmax (hnum num rfl) (hroom (by omega) num rfl)

end Numbers

end AflPlusPlus.Mutations
