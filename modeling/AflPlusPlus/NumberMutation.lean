import AflPlusPlus.MemoryPatches
import AflPlusPlus.MutationsSpec

/-!
# The number that `MUT_ASCIINUM` changes

The operator reads a run of digits, changes its value and puts the new number in its place. The
text of the new number is cut off behind seven characters.
-/

namespace AflPlusPlus.Mutations
open ByteWords ByteBuffers CheckedBlocks CheckedPrograms MemoryPatches

/-! ## The numbers of a text -/

/-- The bytes in use. -/
def contents (s : Havoc) : Buffer := bytes s.len s.buf.cell

/-- The first digit from a position on, or the first one of all. -/
def firstDigit (buf : Buffer) (off : ℕ) : Option ℕ :=
  match (buf.drop off).findIdx? isDigit with
  | some k => some (off + k)
  | none => buf.findIdx? isDigit

def digitRun (buf : Buffer) (off : ℕ) : Buffer := (buf.drop off).takeWhile isDigit

def decimalValue (ds : Buffer) : ℕ := ds.foldl (fun n d => 10 * n + (d.toNat - 48)) 0

/-- The value of the run, with the sign in front of it. -/
def numberAt (buf : Buffer) (off : ℕ) : ℤ :=
  if off ≠ 0 ∧ byteAt buf (off - 1) = 45 then -decimalValue (digitRun buf off)
  else decimalValue (digitRun buf off)

/-- The strategies, with the random number that some of them draw. -/
def changed (strat r : ℕ) (val : ℤ) : ℤ :=
  match strat with
  | 0 => val + 1
  | 1 => val - 1
  | 2 => val * 2
  | 3 => val.tdiv 2
  | 4 => if 0 < val ∧ val < 0x19999999 then r % (val * 10) else (r % 256 : ℕ)
  | 5 => val + (r % 256 : ℕ)
  | 6 => val - (r % 256 : ℕ)
  | 7 => -val - 1
  | _ => val

def Fits64 (val : ℤ) : Prop := -2 ^ 63 ≤ val ∧ val < 2 ^ 63

instance (val : ℤ) : Decidable (Fits64 val) := inferInstanceAs (Decidable (_ ∧ _))

/-- The buffer with a text in the place of the run. -/
def replaced (buf : Buffer) (off : ℕ) (text : Buffer) : Buffer :=
  buf.take off ++ text ++ buf.drop (off + (digitRun buf off).length)

theorem findIdx?_eq_takeWhile {α : Type} (p : α → Bool) (l : List α) : l.findIdx? p =
    if (l.takeWhile fun a => !p a).length = l.length then none
    else some (l.takeWhile fun a => !p a).length := by
  induction l with
  | nil => rfl
  | cons a l ih =>
    rw [List.findIdx?_cons, List.takeWhile_cons]
    cases hp : p a with
    | true => simp
    | false =>
      rw [ih]
      simp only [Bool.not_false, if_true, List.length_cons, Nat.add_right_cancel_iff,
        Bool.false_eq_true, if_false]
      split <;> rfl

/-! ## Reading the number -/

section Reading
variable {cfg : Config} {s : Havoc} {i n off : ℕ} {p : Byte → Bool}

theorem loadBuf_eq (hi : i < s.buf.size) : loadBuf i s = .ok (s.buf.cell i, s) := by
  have hread : readBuf i 1 s = .ok (fun k => s.buf.cell (i + k), s) := if_pos hi
  rw [loadBuf, bind_ok hread]
  rfl

theorem countWhile_eq (p : Byte → Bool) (hi : i + n ≤ s.buf.size) : countWhile p i n s =
    .ok (((bytes n (window s.buf.cell i)).takeWhile p).length, s) := by
  induction n generalizing i with
  | zero => rfl
  | succ n ih =>
    rw [countWhile, bind_ok (loadBuf_eq (by omega)), bytes_succ, List.takeWhile_cons]
    split
    · rw [bind_ok (ih (by omega))]
      rfl
    · rfl

/-- The value as the code accumulates it. -/
theorem readDigits_eq (hi : i + n ≤ s.buf.size) (val : ℕ)
    (hdigits : ∀ b ∈ bytes n (window s.buf.cell i), isDigit b = true) :
    readDigits i n (BitVec.ofNat 64 val) s = .ok (BitVec.ofNat 64
      ((bytes n (window s.buf.cell i)).foldl (fun n d => 10 * n + (d.toNat - 48)) val), s) := by
  induction n generalizing i val with
  | zero => rfl
  | succ n ih =>
    rw [bytes_succ] at hdigits ⊢
    obtain ⟨hfirst, hrest⟩ := List.forall_mem_cons.mp hdigits
    have hstep : BitVec.ofNat 64 val * 10 + (s.buf.cell i).setWidth 64 - 48 =
        BitVec.ofNat 64 (10 * val + ((s.buf.cell i).toNat - 48)) := by
      have hdigit : 48 ≤ (s.buf.cell i).toNat := (of_decide_eq_true hfirst).1
      have hbyte : (s.buf.cell i).toNat < 2 ^ 8 := (s.buf.cell i).isLt
      apply BitVec.eq_of_toNat_eq
      have hten : BitVec.toNat (10 : BitVec 64) = 10 := rfl
      have hzero : BitVec.toNat (48 : BitVec 64) = 48 := rfl
      rw [BitVec.toNat_sub, BitVec.toNat_add, BitVec.toNat_mul, BitVec.toNat_setWidth,
        BitVec.toNat_ofNat, BitVec.toNat_ofNat, hten, hzero]
      omega
    rw [readDigits, bind_ok (loadBuf_eq (by omega)), hstep, List.foldl_cons]
    exact ih (by omega) _ hrest

theorem randBelow_eq {r limit : ℕ} {draws : List ℕ} (hlimit : 1 < limit)
    (hdraws : s.draws = r :: draws) :
    randBelow limit s = .ok (r % 2 ^ 64 % limit, { s with draws := draws }) := by
  have hnext : randNext s = .ok (r % 2 ^ 64, { s with draws := draws }) := by
    rw [randNext, hdraws]
  rw [randBelow, if_neg (by omega), bind_ok hnext]
  rfl

theorem findDigit_eq {r : ℕ} {draws : List ℕ} (hlen : 1 < s.len) (hle : s.len ≤ s.buf.size)
    (hdraws : s.draws = r :: draws) :
    findDigit s = .ok (firstDigit (contents s) (r % 2 ^ 64 % s.len), { s with draws := draws }) := by
  have hgetLen : getLen s = .ok (s.len, s) := rfl
  have hoff : r % 2 ^ 64 % s.len < s.len := Nat.mod_lt _ (by omega)
  rw [findDigit, bind_ok hgetLen, bind_ok (randBelow_eq hlen hdraws)]
  generalize r % 2 ^ 64 % s.len = off at hoff
  rw [bind_ok (countWhile_eq _ (by dsimp only; omega)), firstDigit, contents,
    drop_bytes hoff.le, findIdx?_eq_takeWhile, length_bytes]
  dsimp only
  set cnt := ((bytes (s.len - off) (window s.buf.cell off)).takeWhile fun a => !isDigit a).length
  by_cases hend : cnt = s.len - off
  · rw [if_pos (by omega), if_pos hend]
    dsimp only
    have hsplit : bytes s.len s.buf.cell =
        bytes off s.buf.cell ++ bytes (s.len - off) (window s.buf.cell off) := by
      rw [← bytes_add, Nat.add_sub_cancel' hoff.le]
    have htail : (bytes (s.len - off) (window s.buf.cell off)).findIdx? isDigit = none := by
      rw [findIdx?_eq_takeWhile, length_bytes, if_pos hend]
    rw [bind_ok (countWhile_eq _ (by dsimp only; omega)), hsplit, List.findIdx?_append, htail,
      findIdx?_eq_takeWhile, length_bytes, window_zero]
    dsimp only
    split <;> rfl
  · rw [if_neg (by omega), if_neg hend]
    rfl

theorem byteAt_contents (hi : i < s.len) : byteAt (contents s) i = s.buf.cell i := by
  rw [byteAt, contents, List.getD_eq_getElem?_getD, getElem?_bytes hi, Option.getD_some]

theorem hasMinus_eq (hoff : off ≤ s.len) (hle : s.len ≤ s.buf.size) : hasMinus off s =
    .ok (decide (off ≠ 0 ∧ byteAt (contents s) (off - 1) = 45), s) := by
  rw [hasMinus]
  by_cases hzero : off = 0
  · rw [if_pos hzero]
    simp [hzero]
    rfl
  · rw [if_neg hzero, bind_ok (loadBuf_eq (by omega)), byteAt_contents (by omega)]
    simp [hzero]
    rfl

theorem toInt_ofInt {val : ℤ} (h : Fits64 val) : (BitVec.ofInt 64 val).toInt = val :=
  BitVec.toInt_ofInt_eq_self (by decide) h.1 h.2

theorem ofInt_sub (x y : ℤ) :
    BitVec.ofInt 64 (x - y) = BitVec.ofInt 64 x - BitVec.ofInt 64 y := by
  rw [Int.sub_eq_add_neg, BitVec.ofInt_add, BitVec.ofInt_neg, BitVec.sub_eq_add_neg]

/-- A number that is not likely to overflow when a digit is added. -/
theorem small_iff {val : ℤ} (h : Fits64 val) :
    (BitVec.ofInt 64 val ≠ 0 ∧ (BitVec.ofInt 64 val).toNat < 0x19999999) ↔
      0 < val ∧ val < 0x19999999 := by
  obtain ⟨hmin, hmax⟩ := h
  have hzero : BitVec.ofInt 64 val = 0 ↔ (BitVec.ofInt 64 val).toNat = 0 := by
    rw [← BitVec.toNat_inj]
    rfl
  rw [Ne, hzero, BitVec.toNat_ofInt]
  omega

theorem times_ten {val : ℤ} (hpos : 0 < val) (hsmall : val < 0x19999999) :
    ((BitVec.ofInt 64 val * 10).toNat : ℤ) = val * 10 := by
  have hten : BitVec.toNat (10 : BitVec 64) = 10 := rfl
  rw [BitVec.toNat_mul, BitVec.toNat_ofInt, hten]
  omega

/-- The code changes the number as an `s64`. -/
theorem changeNumber_eq {strat r : ℕ} {draws : List ℕ} {val : ℤ} (hstrat : strat < 8)
    (hval : Fits64 val) (hdraws : s.draws = r :: draws) :
    ∃ draws', changeNumber strat (BitVec.ofInt 64 val) s =
      .ok (BitVec.ofInt 64 (changed strat (r % 2 ^ 64) val), { s with draws := draws' }) := by
  have hnext : randNext s = .ok (r % 2 ^ 64, { s with draws := draws }) := by
    rw [randNext, hdraws]
  have hbelow := randBelow_eq (by decide : 1 < 256) hdraws
  match strat, hstrat with
  | 0, _ =>
    refine ⟨s.draws, ?_⟩
    rw [changed, BitVec.ofInt_add]
    rfl
  | 1, _ =>
    refine ⟨s.draws, ?_⟩
    rw [changed, ofInt_sub]
    rfl
  | 2, _ =>
    refine ⟨s.draws, ?_⟩
    rw [changed, BitVec.ofInt_mul]
    rfl
  | 3, _ =>
    refine ⟨s.draws, ?_⟩
    have hhalf : (BitVec.ofInt 64 val).sdiv 2 = BitVec.ofInt 64 (val.tdiv 2) := by
      apply BitVec.eq_of_toInt_eq
      rw [BitVec.toInt_sdiv, toInt_ofInt hval, BitVec.toInt_ofInt]
      rfl
    rw [changed, ← hhalf]
    rfl
  | 4, _ =>
    refine ⟨draws, ?_⟩
    rw [changeNumber, changed]
    by_cases hsmall : 0 < val ∧ val < 0x19999999
    · rw [if_pos ((small_iff hval).mpr hsmall), if_pos hsmall, bind_ok hnext,
        ← times_ten hsmall.1 hsmall.2, ← Int.natCast_emod, BitVec.ofInt_natCast]
      rfl
    · rw [if_neg (mt (small_iff hval).mp hsmall), if_neg hsmall, bind_ok hbelow,
        BitVec.ofInt_natCast]
      rfl
  | 5, _ =>
    refine ⟨draws, ?_⟩
    rw [changeNumber, bind_ok hbelow, changed, BitVec.ofInt_add, BitVec.ofInt_natCast]
    rfl
  | 6, _ =>
    refine ⟨draws, ?_⟩
    rw [changeNumber, bind_ok hbelow, changed, ofInt_sub, BitVec.ofInt_natCast]
    rfl
  | 7, _ =>
    refine ⟨s.draws, ?_⟩
    rw [changed, ofInt_sub, BitVec.ofInt_neg, changeNumber, BitVec.not_eq_neg_add]
    rfl

theorem firstDigit_spec {buf : Buffer} (h : firstDigit buf i = some off) :
    off < buf.length ∧ isDigit (byteAt buf off) = true := by
  have hfound : ∀ {l : Buffer} {k : ℕ}, l.findIdx? isDigit = some k →
      k < l.length ∧ isDigit (byteAt l k) = true := by
    intro l k hk
    obtain ⟨hlt, hdigit, -⟩ := List.findIdx?_eq_some_iff_getElem.mp hk
    rw [byteAt, List.getD_eq_getElem _ _ hlt]
    exact ⟨hlt, hdigit⟩
  rw [firstDigit] at h
  split at h
  · next k hk =>
    obtain rfl := Option.some.inj h
    obtain ⟨hlt, hdigit⟩ := hfound hk
    rw [List.length_drop] at hlt
    rw [byteAt, List.getD_eq_getElem?_getD, List.getElem?_drop] at hdigit
    rw [byteAt, List.getD_eq_getElem?_getD]
    exact ⟨by omega, hdigit⟩
  · exact hfound h

/-- The run is the first digit and what the code counts behind it. -/
theorem digitRun_eq (hoff : off < s.len) (hdigit : isDigit (s.buf.cell off) = true) :
    digitRun (contents s) off = s.buf.cell off ::
      (bytes (s.len - (off + 1)) (window s.buf.cell (off + 1))).takeWhile isDigit := by
  have hlen : s.len - off = s.len - (off + 1) + 1 := by omega
  rw [digitRun, contents, drop_bytes hoff.le, hlen, bytes_succ, List.takeWhile_cons_of_pos hdigit]

theorem bytes_takeWhile (n : ℕ) (m : Mem) : bytes ((bytes n m).takeWhile p).length m =
    (bytes n m).takeWhile p := by
  have hle : ((bytes n m).takeWhile p).length ≤ n := by
    simpa using (List.takeWhile_sublist (l := bytes n m) p).length_le
  rw [← take_bytes hle]
  exact (List.prefix_iff_eq_take.mp (List.takeWhile_prefix p)).symm

/-- The value of the run, as the code accumulates it behind the first digit. -/
theorem readDigits_run (hoff : off < s.len) (hle : s.len ≤ s.buf.size)
    (hdigit : isDigit (s.buf.cell off) = true) :
    readDigits (off + 1) ((digitRun (contents s) off).length - 1)
      ((s.buf.cell off).setWidth 64 - 48) s =
        .ok (BitVec.ofNat 64 (decimalValue (digitRun (contents s) off)), s) := by
  have hrun := digitRun_eq hoff hdigit
  have hrest := bytes_takeWhile (p := isDigit) (s.len - (off + 1)) (window s.buf.cell (off + 1))
  have hlen : ((bytes (s.len - (off + 1)) (window s.buf.cell (off + 1))).takeWhile
      isDigit).length ≤ s.len - (off + 1) := by
    simpa using (List.takeWhile_sublist (l := bytes (s.len - (off + 1)) _) isDigit).length_le
  have hfirst : (s.buf.cell off).setWidth 64 - 48 =
      BitVec.ofNat 64 ((s.buf.cell off).toNat - 48) := by
    have hmin : 48 ≤ (s.buf.cell off).toNat := (of_decide_eq_true hdigit).1
    have hzero : BitVec.toNat (48 : BitVec 64) = 48 := rfl
    apply BitVec.eq_of_toNat_eq
    rw [BitVec.toNat_sub, BitVec.toNat_setWidth, BitVec.toNat_ofNat, hzero]
    omega
  have hdigits : ∀ b ∈ (bytes (s.len - (off + 1)) (window s.buf.cell (off + 1))).takeWhile isDigit,
      isDigit b = true := fun b hb => List.mem_takeWhile_imp hb
  rw [← hrest] at hdigits
  have hread := readDigits_eq (by omega) ((s.buf.cell off).toNat - 48) hdigits
  rw [hrest] at hread
  rw [hrun, List.length_cons, Nat.add_sub_cancel, hfirst, hread, decimalValue, List.foldl_cons,
    Nat.mul_zero, Nat.zero_add]

/-- The sign in front is kept. -/
theorem ofInt_numberAt (buf : Buffer) (off : ℕ) : BitVec.ofInt 64 (numberAt buf off) =
    if decide (off ≠ 0 ∧ byteAt buf (off - 1) = 45) = true then
      -BitVec.ofNat 64 (decimalValue (digitRun buf off))
    else BitVec.ofNat 64 (decimalValue (digitRun buf off)) := by
  rw [numberAt]
  by_cases hminus : off ≠ 0 ∧ byteAt buf (off - 1) = 45
  · rw [if_pos hminus, if_pos (decide_eq_true hminus), BitVec.ofInt_neg, BitVec.ofInt_natCast]
  · rw [if_neg hminus, if_neg (by simpa using hminus), BitVec.ofInt_natCast]

theorem newNumber_eq {r0 r1 r2 : ℕ} {draws : List ℕ} (hlen : 1 < s.len)
    (hle : s.len ≤ s.buf.size) (hdraws : s.draws = r0 :: r1 :: r2 :: draws)
    (hoff : firstDigit (contents s) (r0 % 2 ^ 64 % s.len) = some off)
    (hval : Fits64 (numberAt (contents s) off)) :
    ∃ draws', newNumber s = .ok (some ⟨off, off + (digitRun (contents s) off).length,
      (signedText (BitVec.ofInt 64 (changed (r1 % 2 ^ 64 % 8) (r2 % 2 ^ 64)
        (numberAt (contents s) off))).toInt).take 7⟩, { s with draws := draws' }) := by
  obtain ⟨hlt, hdigit⟩ := firstDigit_spec hoff
  rw [contents, length_bytes] at hlt
  rw [byteAt_contents hlt] at hdigit
  set s1 : Havoc := { s with draws := r1 :: r2 :: draws }
  have hgetLen : getLen s1 = .ok (s.len, s1) := rfl
  have hcount := countWhile_eq (s := s1) isDigit (i := off + 1) (n := s.len - (off + 1))
    (by dsimp only [s1]; omega)
  have hload := loadBuf_eq (s := s1) (i := off) (by dsimp only [s1]; omega)
  have hdigits := readDigits_run (s := s1) hlt hle hdigit
  have hminus : hasMinus off s1 = _ := hasMinus_eq hlt.le hle
  have hstrat := randBelow_eq (s := s1) (by decide : 1 < 8) rfl
  obtain ⟨draws', hchange⟩ := changeNumber_eq (s := { s with draws := r2 :: draws })
    (Nat.mod_lt (r1 % 2 ^ 64) (by decide : 0 < 8)) hval rfl
  have hrun : (digitRun (contents s1) off).length = _ := congrArg List.length (digitRun_eq hlt hdigit)
  rw [List.length_cons] at hrun
  refine ⟨draws', ?_⟩
  rw [newNumber, bind_ok (findDigit_eq hlen hle hdraws), hoff]
  dsimp only
  rw [bind_ok hgetLen, bind_ok hcount, bind_ok hload]
  generalize ((bytes (s.len - (off + 1)) (window s1.buf.cell (off + 1))).takeWhile isDigit).length
    = cnt at hrun ⊢
  have hcnt : off + 1 + cnt - (off + 1) = (digitRun (contents s1) off).length - 1 := by omega
  rw [hcnt, bind_ok hdigits, bind_ok hminus, bind_ok hstrat]
  have hcontents : contents s1 = contents s := rfl
  rw [hcontents] at hrun ⊢
  rw [← ofInt_numberAt, bind_ok hchange, hrun]
  have hoff2 : off + 1 + cnt = off + (cnt + 1) := by omega
  rw [hoff2]
  rfl

end Reading

/-! ## Writing the number -/

section Writing
variable {s : Havoc} {dst n tail : ℕ} {part : ℕ → Byte} {m : Mem}

theorem bytes_patch : bytes (dst + n) (patch m dst n part) = bytes dst m ++ bytes n part := by
  rw [bytes_add]
  congr 1
  · exact bytes_congr fun j hj => patch_of_not_mem (by omega)
  · apply bytes_congr
    intro j hj
    rw [window_apply, patch_of_mem (by omega), Nat.add_sub_cancel_left]

/-- What the three parts make in `tmp_buf`. -/
theorem bytes_parts {tmp rest : Mem} {k : ℕ} :
    bytes (dst + n + k) (patch (patch (patch tmp 0 dst m) dst n part) (dst + n) k rest) =
      bytes dst m ++ bytes n part ++ bytes k rest := by
  have hhead : bytes dst (patch tmp 0 dst m) = bytes dst m := by
    apply bytes_congr
    intro j hj
    rw [patch_of_mem (by omega), Nat.sub_zero]
  rw [bytes_patch, bytes_patch, hhead]

theorem readBuf_eq {i l : ℕ} (h : i + l ≤ s.buf.size) :
    readBuf i l s = .ok (window s.buf.cell i, s) := if_pos h

theorem writeBuf_eq {i l : ℕ} {x : Mem} (h : i + l ≤ s.buf.size) :
    writeBuf i l x s = .ok ((), { s with buf := s.buf.overwrite i l x }) := if_pos h

theorem writeTmp_eq {i l : ℕ} {x : Mem} (h : i + l ≤ s.tmpBuf.size) :
    writeTmp i l x s = .ok ((), { s with tmpBuf := s.tmpBuf.overwrite i l x }) := if_pos h

theorem readTmp_eq {i l : ℕ} (h : i + l ≤ s.tmpBuf.size) :
    readTmp i l s = .ok (window s.tmpBuf.cell i, s) := if_pos h

/-- The three parts, when there is room for them. -/
theorem rebuild_eq (hbuf : s.len ≤ s.buf.size) (hdst : dst ≤ s.len) (htail : tail ≤ s.len)
    (hroom : dst + n + (s.len - tail) ≤ s.buf.size) (hsize : s.tmpBuf.size = s.buf.size) :
    ∃ t, rebuild dst n tail (dst + n + (s.len - tail)) part s = .ok (.done, t) ∧
      contents t = bytes dst s.buf.cell ++ bytes n part ++
        bytes (s.len - tail) (window s.buf.cell tail) := by
  have hgetLen : getLen s = .ok (s.len, s) := rfl
  set newLen := dst + n + (s.len - tail)
  set tmp := ((s.tmpBuf.overwrite 0 dst (window s.buf.cell 0)).overwrite dst n part).overwrite
    (dst + n) (s.len - tail) (window s.buf.cell tail)
  have htmp : 0 + newLen ≤ tmp.size := by
    rw [Nat.zero_add]
    exact hroom.trans hsize.ge
  refine ⟨{ s with
    buf := s.buf.overwrite 0 newLen (window tmp.cell 0), tmpBuf := tmp, len := newLen }, ?_, ?_⟩
  · have hsetLen : ∀ t : Havoc, setLen newLen t = .ok ((), { t with len := newLen }) :=
      fun _ => rfl
    rw [rebuild, bind_ok hgetLen, bind_ok (readBuf_eq (by omega)),
      bind_ok (writeTmp_eq (by omega)),
      bind_ok (writeTmp_eq (by dsimp only [Block.size_overwrite]; omega)),
      bind_ok (readBuf_eq (by dsimp only; omega)),
      bind_ok (writeTmp_eq (by dsimp only [Block.size_overwrite]; omega)),
      bind_ok (hsetLen _)]
    exact (bind_ok (readTmp_eq (s := { s with tmpBuf := tmp, len := newLen }) htmp)).trans
      (bind_ok (writeBuf_eq (by dsimp only; omega)))
  · have hcopy : bytes newLen (patch s.buf.cell 0 newLen (window tmp.cell 0)) =
        bytes newLen tmp.cell := by
      apply bytes_congr
      intro j hj
      rw [patch_of_mem (by omega), window_zero, Nat.sub_zero]
    have hparts : bytes (dst + n + (s.len - tail))
        (patch (patch (patch s.tmpBuf.cell 0 dst (window s.buf.cell 0)) dst n part) (dst + n)
          (s.len - tail) (window s.buf.cell tail)) = _ := bytes_parts
    apply (hcopy.trans hparts).trans
    rw [window_zero]

theorem rebuild_error (hbuf : s.len ≤ s.buf.size) (hdst : dst ≤ s.len) (htail : tail ≤ s.len)
    (hroom : s.buf.size < dst + n + (s.len - tail)) (hsize : s.tmpBuf.size = s.buf.size)
    (newLen : ℕ) : rebuild dst n tail newLen part s = .error .outOfBounds := by
  have hgetLen : getLen s = .ok (s.len, s) := rfl
  rw [rebuild, bind_ok hgetLen, bind_ok (readBuf_eq (by omega)), bind_ok (writeTmp_eq (by omega))]
  by_cases hpart : dst + n ≤ s.tmpBuf.size
  · rw [bind_ok (writeTmp_eq (by dsimp only [Block.size_overwrite]; omega)),
      bind_ok (readBuf_eq (by dsimp only; omega))]
    exact bind_error (if_neg (by dsimp only [Block.size_overwrite]; omega))
  · exact bind_error (if_neg (by dsimp only [Block.size_overwrite]; omega))

theorem contents_parts {num : Number} (hlen : num.off2 ≤ s.len) (hlt : num.off < num.off2) :
    (contents s).take num.off ++ num.text ++ (contents s).drop num.off2 =
      bytes num.off s.buf.cell ++ bytes num.text.length (byteAt num.text) ++
        bytes (s.len - num.off2) (window s.buf.cell num.off2) := by
  have htext : bytes num.text.length (byteAt num.text) = num.text := bytes_getD num.text
  rw [contents, take_bytes (by omega), drop_bytes hlen, htext]

/-- The new text is in the place of the run, when there is room for it. -/
theorem replaceNumber_eq (num : Number) (hbuf : s.len ≤ s.buf.size) (hmax : s.buf.size < 2 ^ 32)
    (hsize : s.tmpBuf.size = s.buf.size) (hlt : num.off < num.off2) (hlen : num.off2 ≤ s.len)
    (hroom : num.off + num.text.length + (s.len - num.off2) ≤ s.buf.size) :
    ∃ t, replaceNumber num s = .ok (.done, t) ∧
      contents t = (contents s).take num.off ++ num.text ++ (contents s).drop num.off2 := by
  have hgetLen : getLen s = .ok (s.len, s) := rfl
  rw [replaceNumber, bind_ok hgetLen, contents_parts hlen hlt]
  by_cases hsame : num.off2 - num.off = num.text.length
  · rw [if_pos hsame, bind_ok (writeBuf_eq (by omega))]
    refine ⟨_, rfl, ?_⟩
    have hend : s.len = num.off + num.text.length + (s.len - num.off2) := by omega
    have htail : bytes (s.len - num.off2) (window (patch s.buf.cell num.off num.text.length
        (byteAt num.text)) (num.off + num.text.length)) =
          bytes (s.len - num.off2) (window s.buf.cell num.off2) := by
      apply bytes_congr
      intro k hk
      rw [window_apply, window_apply, patch_of_not_mem (by omega)]
      congr 1
      omega
    rw [← bytes_patch, ← htail, ← bytes_add, ← hend]
    rfl
  · have hnew : (s.len + num.text.length - (num.off2 - num.off)) % 2 ^ 32 =
        num.off + num.text.length + (s.len - num.off2) := by
      rw [Nat.mod_eq_of_lt (by omega)]
      omega
    rw [if_neg hsame, hnew]
    exact rebuild_eq hbuf (by omega) hlen hroom hsize

theorem replaceNumber_error (num : Number) (hbuf : s.len ≤ s.buf.size)
    (hsize : s.tmpBuf.size = s.buf.size) (hlt : num.off < num.off2) (hlen : num.off2 ≤ s.len)
    (hroom : s.buf.size < num.off + num.text.length + (s.len - num.off2)) :
    replaceNumber num s = .error .outOfBounds := by
  have hgetLen : getLen s = .ok (s.len, s) := rfl
  rw [replaceNumber, bind_ok hgetLen]
  rw [if_neg (by omega)]
  exact rebuild_error hbuf (by omega) hlen hroom hsize _

end Writing

/-! ## The operator -/

section Operator
variable {cfg : Config} {s : Havoc} {off : ℕ}

/-- The number's place is taken by the whole text of a value, and nothing else changes. -/
def Replaces (s : Havoc) (off : ℕ) (val : ℤ) : Prop :=
  ∃ t, asciinum s = .ok (.done, t) ∧ contents t = replaced (contents s) off (signedText val) ∧
    t.len + (digitRun (contents s) off).length = s.len + (signedText val).length

theorem digitRun_length (hoff : off < s.len) (hdigit : isDigit (s.buf.cell off) = true) :
    0 < (digitRun (contents s) off).length ∧
      off + (digitRun (contents s) off).length ≤ s.len := by
  have hle : (digitRun (contents s) off).length ≤ ((contents s).drop off).length :=
    (List.takeWhile_sublist isDigit).length_le
  rw [List.length_drop, contents, length_bytes] at hle
  refine ⟨?_, by rw [contents]; omega⟩
  rw [digitRun_eq hoff hdigit]
  exact Nat.succ_pos _

theorem length_replaced (text : Buffer) (hend : off + (digitRun (contents s) off).length ≤ s.len) :
    (replaced (contents s) off text).length + (digitRun (contents s) off).length =
      s.len + text.length := by
  have hlen : (contents s).length = s.len := length_bytes
  rw [replaced, List.length_append, List.length_append, List.length_take, List.length_drop, hlen]
  omega

/-- `snprintf` may print seven characters, and there has to be room for the number. -/
theorem replaces_iff (h : At cfg s.len s) (hfour : 4 ≤ s.len) (hle : s.len ≤ cfg.maxLen)
    (hmax : cfg.maxLen < 2 ^ 32) {r0 r1 r2 : ℕ} {draws : List ℕ}
    (hdraws : s.draws = r0 :: r1 :: r2 :: draws)
    (hoff : firstDigit (contents s) (r0 % 2 ^ 64 % s.len) = some off)
    (hval : Fits64 (numberAt (contents s) off))
    (hnew : Fits64 (changed (r1 % 2 ^ 64 % 8) (r2 % 2 ^ 64) (numberAt (contents s) off))) :
    Replaces s off (changed (r1 % 2 ^ 64 % 8) (r2 % 2 ^ 64) (numberAt (contents s) off)) ↔
      (signedText (changed (r1 % 2 ^ 64 % 8) (r2 % 2 ^ 64)
        (numberAt (contents s) off))).length ≤ 7 ∧
      s.len + (signedText (changed (r1 % 2 ^ 64 % 8) (r2 % 2 ^ 64)
        (numberAt (contents s) off))).length ≤ cfg.maxLen + (digitRun (contents s) off).length := by
  have hbuf : s.len ≤ s.buf.size := hle.trans h.size_buf.ge
  have hsize : s.tmpBuf.size = s.buf.size := h.size_tmpBuf.trans h.size_buf.symm
  obtain ⟨draws', hnumber⟩ := newNumber_eq (by omega) hbuf hdraws hoff hval
  obtain ⟨hlt, hdigit⟩ := firstDigit_spec hoff
  rw [contents, length_bytes] at hlt
  rw [byteAt_contents hlt] at hdigit
  obtain ⟨hpos, hend⟩ := digitRun_length hlt hdigit
  rw [toInt_ofInt hnew] at hnumber
  generalize changed (r1 % 2 ^ 64 % 8) (r2 % 2 ^ 64) (numberAt (contents s) off) = val
    at hnumber ⊢
  have hgetLen : getLen s = .ok (s.len, s) := rfl
  have hrun : asciinum s = replaceNumber ⟨off, off + (digitRun (contents s) off).length,
      (signedText val).take 7⟩ { s with draws := draws' } := by
    rw [asciinum, bind_ok hgetLen, if_neg (by omega), bind_ok hnumber]
  have hcut : ((signedText val).take 7).length = min 7 (signedText val).length :=
    List.length_take
  have hmaxLen := h.size_buf
  by_cases hroom : off + ((signedText val).take 7).length +
      (s.len - (off + (digitRun (contents s) off).length)) ≤ s.buf.size
  · obtain ⟨t, ht, hcontents⟩ := replaceNumber_eq (s := { s with draws := draws' })
      ⟨off, off + (digitRun (contents s) off).length, (signedText val).take 7⟩
      hbuf (hmaxLen ▸ hmax) hsize (Nat.lt_add_of_pos_right hpos) hend hroom
    replace hcontents : contents t = replaced (contents s) off ((signedText val).take 7) :=
      hcontents
    constructor
    · rintro ⟨t', ht', hnew', -⟩
      rw [hrun, ht] at ht'
      obtain rfl : t = t' := by
        injection ht' with hpair
        exact congrArg Prod.snd hpair
      have hcutLen := length_replaced ((signedText val).take 7) hend
      rw [← hcontents, hnew', length_replaced (signedText val) hend] at hcutLen
      omega
    · rintro ⟨hseven, -⟩
      rw [List.take_of_length_le hseven] at hcontents
      refine ⟨t, hrun.trans ht, hcontents, ?_⟩
      have hlen : (contents t).length = t.len := length_bytes
      rw [← length_replaced (signedText val) hend, ← hcontents, hlen]
  · have herror := replaceNumber_error (s := { s with draws := draws' })
      ⟨off, off + (digitRun (contents s) off).length, (signedText val).take 7⟩
      hbuf hsize (Nat.lt_add_of_pos_right hpos) hend (Nat.lt_of_not_le hroom)
    constructor
    · rintro ⟨t, ht, -⟩
      rw [hrun, herror] at ht
      exact absurd ht nofun
    · rintro ⟨hseven, hfits⟩
      omega

end Operator

/-- A buffer with room for 16 bytes, and random numbers for the strategy that adds one. -/
def numberState (text : Buffer) : Havoc where
  buf := ⟨16, byteAt text⟩
  tmpBuf := ⟨16, fun _ => 0⟩
  len := text.length
  draws := [0, 0, 0]

theorem replaces_iff_twelve : Replaces (numberState (charBytes ['a', '1', '2', 'b'])) 1
    (changed (0 % 2 ^ 64 % 8) (0 % 2 ^ 64)
      (numberAt (contents (numberState (charBytes ['a', '1', '2', 'b']))) 1)) :=
  (@replaces_iff { maxLen := 16 } (numberState (charBytes ['a', '1', '2', 'b'])) 1 ⟨rfl, rfl, rfl⟩
    (by decide) (by decide) (by decide) 0 0 0 [] rfl (by decide +kernel) (by decide +kernel)
    (by decide +kernel)).mpr ⟨by decide +kernel, by decide +kernel⟩

def eightDigits : Havoc := numberState (charBytes ['1', '2', '3', '4', '5', '6', '7', '8'])

/-- Of the new number 12345679 the last digit is not printed. -/
theorem last_digit_lost : firstDigit (contents eightDigits) 0 = some 0 ∧
    changed 0 0 (numberAt (contents eightDigits) 0) = 12345679 ∧
    ¬ Replaces eightDigits 0 12345679 := by
  refine ⟨by decide +kernel, by decide +kernel, ?_⟩
  rintro ⟨t, ht, hcontents, -⟩
  have hrun : (match asciinum eightDigits with
      | .ok (_, t) => contents t
      | .error _ => []) = charBytes ['1', '2', '3', '4', '5', '6', '7'] := by
    decide +kernel
  rw [ht] at hrun
  dsimp only at hrun
  rw [hrun] at hcontents
  exact absurd hcontents (by decide +kernel)

end AflPlusPlus.Mutations
