import AflPlusPlus.CmpExtendEncoding
import AflPlusPlus.ScaleCodec

/-!
# The compact integers that are written

The mode is chosen from the value shifted by two bits. For a value whose two top bits are not
zero, these are lost before the choice.
-/

namespace AflPlusPlus.Redqueen
open ByteWords MemoryPatches ScaleCodec

/-- The bytes that a candidate writes. -/
def scaleBytes (c : BitVec 128 × ℕ) : List Byte := bytes c.2 (byteOf c.1)

/-- The bytes are the compact encoding of a value, and a decoder returns it. -/
def WritesScale (v : ℕ) (c : BitVec 128 × ℕ) : Prop :=
  scaleBytes c = encode v ∧ decode (scaleBytes c) = some (v, [])

/-- The bits that are shifted out of `w` are not zero, and what remains is below the values of the
last mode. -/
def LosesTopBits (w v : ℕ) : Prop := 2 ^ (w - 2) ≤ v ∧ v % 2 ^ (w - 2) < 2 ^ 30

theorem byteOf_eq {w : ℕ} (x : BitVec w) (k : ℕ) :
    byteOf x k = BitVec.ofNat 8 (x.toNat / 256 ^ k) := by
  have hpow : (256 : ℕ) ^ k = 2 ^ (8 * k) := by
    rw [show (256 : ℕ) = 2 ^ 8 from rfl, ← pow_mul]
  rw [byteOf, BitVec.extractLsb', Nat.shiftRight_eq_div_pow, hpow]

theorem scaleBytes_eq (c : BitVec 128 × ℕ) : scaleBytes c = leBytes c.2 c.1.toNat := by
  apply List.map_congr_left
  intro k _
  exact byteOf_eq c.1 k

theorem writesScale_iff {v : ℕ} {c : BitVec 128 × ℕ} (hv : v < 2 ^ 128) :
    WritesScale v c ↔ leBytes c.2 c.1.toNat = encode v := by
  rw [WritesScale, scaleBytes_eq]
  constructor
  · exact fun h => h.1
  · intro h
    have hdecode := decode_encode (v := v) (hv.trans (by norm_num)) []
    rw [List.append_nil] at hdecode
    exact ⟨h, by rw [h, hdecode]⟩

/-- No value of the last mode has an encoding as short as those of the others. -/
theorem encode_big {v : ℕ} (hv : 2 ^ 30 ≤ v) : 4 < (encode v).length := by
  have hge := byteCount_ge (v := v) (le_trans (by norm_num) hv)
  rw [encode, if_neg (by omega), if_neg (by omega), if_neg (by omega), List.length_append,
    length_leBytes, length_leBytes]
  omega

theorem not_writesScale {v : ℕ} {c : BitVec 128 × ℕ} (hv : 2 ^ 30 ≤ v) (hc : c.2 ≤ 4) :
    ¬WritesScale v c := by
  rintro ⟨h, -⟩
  have hlen := congrArg List.length h
  rw [scaleBytes_eq, length_leBytes] at hlen
  have hbig := encode_big hv
  omega

theorem countBytes_eq {fuel : ℕ} {v : BitVec 128} (hv : v ≠ 0) (hfuel : v.toNat < 256 ^ fuel) :
    countBytes fuel v = byteCount v.toNat := by
  induction fuel generalizing v with
  | zero =>
    have hzero : v.toNat = 0 := by simpa using hfuel
    exact absurd (BitVec.eq_of_toNat_eq hzero) hv
  | succ fuel ih =>
    have hshift : (v >>> 8).toNat = v.toNat / 256 := by
      rw [BitVec.toNat_ushiftRight, Nat.shiftRight_eq_div_pow]
    rw [countBytes, if_neg hv]
    by_cases hlow : v.toNat < 256
    · have hzero : v >>> 8 = 0 := by
        apply BitVec.eq_of_toNat_eq
        rw [hshift, Nat.div_eq_of_lt hlow]
        rfl
      rw [hzero, byteCount, Nat.log_of_lt hlow]
      cases fuel with
      | zero => rfl
      | succ fuel => simp [countBytes]
    · have hne : v >>> 8 ≠ 0 := by
        intro heq
        have hdiv : v.toNat / 256 = 0 := by
          rw [← hshift, heq]
          rfl
        omega
      have hlt : (v >>> 8).toNat < 256 ^ fuel := by
        rw [hshift]
        apply Nat.div_lt_of_lt_mul
        rwa [← pow_succ']
      rw [ih hne hlt, hshift, byteCount, byteCount, Nat.log_div_base]
      have hlog : 0 < Nat.log 256 v.toNat := Nat.log_pos (by norm_num) (by omega)
      omega

/-- Behind its first byte the candidate for a big integer has the bytes of the value. -/
theorem scaleBig_eq {v : BitVec 128} (hbig : 2 ^ 30 ≤ v.toNat) (hlt : v.toNat < 2 ^ 120) :
    leBytes (scaleBig v).2 (scaleBig v).1.toNat = encode v.toNat := by
  have hne : v ≠ 0 := by
    rintro rfl
    exact absurd hbig (by decide)
  have hcount : countBytes 16 v = byteCount v.toNat :=
    countBytes_eq hne (v.isLt.trans_le (by norm_num))
  have hge := byteCount_ge (v := v.toNat) (le_trans (by norm_num) hbig)
  have hle : byteCount v.toNat ≤ 15 := by
    apply Nat.log_lt_of_lt_pow (by omega)
    exact hlt.trans_le (by norm_num)
  have hlen : scaleLen v = byteCount v.toNat - 4 := by
    rw [scaleLen, hcount]
  have hvalue : (scaleBig v).1.toNat =
      256 * v.toNat + (4 * (byteCount v.toNat - 4) + 3) := by
    rw [scaleBig, hlen, BitVec.toNat_add, BitVec.toNat_shiftLeft, BitVec.toNat_ofNat,
      Nat.shiftLeft_eq, Nat.shiftLeft_eq]
    omega
  have hsize : (scaleBig v).2 = byteCount v.toNat + 1 := by
    rw [scaleBig, hlen]
    dsimp only
    omega
  rw [hvalue, hsize, leBytes_succ, encode, if_neg (by omega), if_neg (by omega), if_neg (by omega)]
  have hdiv : (256 * v.toNat + (4 * (byteCount v.toNat - 4) + 3)) / 256 = v.toNat := by omega
  have hfirst : BitVec.ofNat 8 (256 * v.toNat + (4 * (byteCount v.toNat - 4) + 3)) =
      BitVec.ofNat 8 (4 * (byteCount v.toNat - 4) + 3) := by
    apply BitVec.eq_of_toNat_eq
    rw [BitVec.toNat_ofNat, BitVec.toNat_ofNat]
    omega
  rw [hdiv, hfirst, leBytes_one, List.singleton_append]

/-- A candidate of a mode with a fixed length has the low bits of the value only. -/
theorem writesScale_fixed {w v : ℕ} {c : BitVec 128 × ℕ} (hv : v < 2 ^ 128) (hw : 32 ≤ w)
    (hlen : c.2 ≤ 4) (hlow : v % 2 ^ (w - 2) < 2 ^ 30)
    (hc : v < 2 ^ (w - 2) → leBytes c.2 c.1.toNat = encode v) :
    WritesScale v c ↔ ¬LosesTopBits w v := by
  by_cases hfits : v < 2 ^ (w - 2)
  · rw [writesScale_iff hv]
    exact iff_of_true (hc hfits) fun h => absurd h.1 (by omega)
  · have hpow : 2 ^ 30 ≤ 2 ^ (w - 2) := Nat.pow_le_pow_right (by norm_num) (by omega)
    exact iff_of_false (not_writesScale (by omega) hlen) (not_not_intro ⟨by omega, hlow⟩)

/-- A candidate of the last mode has all bits. -/
theorem writesScale_big {w : ℕ} {v : BitVec 128} (hv : v.toNat < 2 ^ 120)
    (hhigh : 2 ^ 30 ≤ v.toNat % 2 ^ (w - 2)) :
    WritesScale v.toNat (scaleBig v) ↔ ¬LosesTopBits w v.toNat := by
  rw [writesScale_iff v.isLt]
  have hge := hhigh.trans (Nat.mod_le _ _)
  exact iff_of_true (scaleBig_eq hge hv) fun h => absurd h.2 (by omega)

section Shifted
variable {w : ℕ} (hw : 2 ≤ w) (x : BitVec w)
include hw

theorem pow_eq_four_mul : 2 ^ w = 4 * 2 ^ (w - 2) := by
  rw [show (4 : ℕ) = 2 ^ 2 from rfl, ← pow_add, Nat.add_sub_cancel' hw]

theorem toNat_shift2 : (x <<< 2).toNat = 4 * (x.toNat % 2 ^ (w - 2)) := by
  rw [BitVec.toNat_shiftLeft, Nat.shiftLeft_eq, pow_eq_four_mul hw, mul_comm,
    ← Nat.mul_mod_mul_left]

/-- The mode takes the place of the two bits that are shifted in. -/
theorem toNat_mode {mode : BitVec w} (hmode : mode.toNat < 4) :
    (x <<< 2 + mode).toNat = 4 * (x.toNat % 2 ^ (w - 2)) + mode.toNat := by
  have hlt : x.toNat % 2 ^ (w - 2) < 2 ^ (w - 2) := Nat.mod_lt _ (by positivity)
  have hpow := pow_eq_four_mul hw
  rw [BitVec.toNat_add, toNat_shift2 hw, Nat.mod_eq_of_lt]
  omega

theorem shift2_le_iff (n : BitVec w) : x <<< 2 ≤ n ↔ 4 * (x.toNat % 2 ^ (w - 2)) ≤ n.toNat := by
  rw [BitVec.le_def, toNat_shift2 hw]

end Shifted

theorem encode_two {v : ℕ} (hge : 2 ^ 6 ≤ v) (hlt : v < 2 ^ 14) :
    encode v = leBytes 2 (4 * v + 1) := by
  rw [encode, if_neg (by omega), if_pos hlt]

theorem encode_four {v : ℕ} (hge : 2 ^ 14 ≤ v) (hlt : v < 2 ^ 30) :
    encode v = leBytes 4 (4 * v + 2) := by
  rw [encode, if_neg (by omega), if_neg (by omega), if_pos hlt]

/-- What is written for a value whose top bits may be lost, in a mode that depends on the rest. -/
theorem scaleValue_iff {o : Operands 64} (hsame : o.repl = o.changedVal)
    (hlen : 1 < (scaleValue o).2) :
    (WritesScale o.repl.toNat (scaleValue o) ↔ ¬LosesTopBits 64 o.repl.toNat) ∧
    (LosesTopBits 64 o.repl.toNat →
      (scaleValue o).2 = if o.repl.toNat % 2 ^ 62 < 2 ^ 14 then 2 else 4) := by
  have hlt := o.repl.isLt
  have hone : o.repl ≤ 255 ↔ o.repl.toNat ≤ 255 := BitVec.le_def
  have htwo : o.repl <<< 2 ≤ 65535 ↔ 4 * (o.repl.toNat % 2 ^ 62) ≤ 65535 :=
    shift2_le_iff (by norm_num) o.repl _
  have hfour : o.repl <<< 2 ≤ 4294967295 ↔ 4 * (o.repl.toNat % 2 ^ 62) ≤ 4294967295 :=
    shift2_le_iff (by norm_num) o.repl _
  unfold scaleValue at hlen ⊢
  simp only [← hsame, hone, htwo, hfour] at hlen ⊢
  split at hlen
  · simp at hlen
  · rename_i hbyte
    rw [if_neg hbyte]
    split
    · rename_i hshort
      have hmode : (o.repl <<< 2 + 1).toNat = 4 * (o.repl.toNat % 2 ^ 62) + 1 :=
        toNat_mode (by norm_num) o.repl (by decide)
      have hvalue : ((o.repl <<< 2 + 1).setWidth 128).toNat = 4 * (o.repl.toNat % 2 ^ 62) + 1 := by
        rw [BitVec.toNat_setWidth, hmode]
        omega
      constructor
      · apply writesScale_fixed (by omega) (by norm_num) (by norm_num) (by omega)
        intro hfits
        rw [hvalue, encode_two (by omega) (by omega), Nat.mod_eq_of_lt hfits]
      · intro _
        rw [if_pos (by omega)]
    · rename_i hshort
      split
      · rename_i hmiddle
        have hmode : (o.repl <<< 2 + 2).toNat = 4 * (o.repl.toNat % 2 ^ 62) + 2 :=
          toNat_mode (by norm_num) o.repl (by decide)
        have hvalue : ((o.repl <<< 2 + 2).setWidth 128).toNat =
            4 * (o.repl.toNat % 2 ^ 62) + 2 := by
          rw [BitVec.toNat_setWidth, hmode]
          omega
        constructor
        · apply writesScale_fixed (by omega) (by norm_num) (by norm_num) (by omega)
          intro hfits
          rw [hvalue, encode_four (by omega) (by omega), Nat.mod_eq_of_lt hfits]
        · intro _
          rw [if_neg (by omega)]
      · rename_i hmiddle
        have hwide : (o.repl.setWidth 128).toNat = o.repl.toNat := by
          rw [BitVec.toNat_setWidth]
          omega
        constructor
        · have hbig := writesScale_big (w := 64) (v := o.repl.setWidth 128)
            (by omega) (by rw [hwide]; omega)
          rwa [hwide] at hbig
        · rintro ⟨-, hlow⟩
          omega

/-- The length of a short candidate, for what is left of the value. -/
def shortLen (low : ℕ) : ℕ := if low < 2 ^ 6 then 1 else if low < 2 ^ 14 then 2 else 4

theorem scaleValueN_iff {repl : BitVec 128} {c : BitVec 128 × ℕ} (hc : scaleValueN repl = some c) :
    (WritesScale repl.toNat c ↔ ¬LosesTopBits 128 repl.toNat) ∧
    (LosesTopBits 128 repl.toNat → c.2 = shortLen (repl.toNat % 2 ^ 126)) := by
  have hlt := repl.isLt
  have hshift : (repl <<< 2).toNat = 4 * (repl.toNat % 2 ^ 126) := toNat_shift2 (by norm_num) repl
  have hone : repl <<< 2 ≤ 255 ↔ 4 * (repl.toNat % 2 ^ 126) ≤ 255 :=
    shift2_le_iff (by norm_num) repl _
  have htwo : repl <<< 2 ≤ 65535 ↔ 4 * (repl.toNat % 2 ^ 126) ≤ 65535 :=
    shift2_le_iff (by norm_num) repl _
  have hfour : repl <<< 2 ≤ 4294967295 ↔ 4 * (repl.toNat % 2 ^ 126) ≤ 4294967295 :=
    shift2_le_iff (by norm_num) repl _
  unfold scaleValueN at hc
  simp only [hone, htwo, hfour] at hc
  unfold shortLen
  split at hc
  · rename_i hbyte
    obtain rfl := Option.some.inj hc
    constructor
    · apply writesScale_fixed hlt (by norm_num) (by norm_num) (by omega)
      intro hfits
      rw [hshift, encode, if_pos (by omega), Nat.mod_eq_of_lt hfits]
    · intro _
      rw [if_pos (by omega)]
  · rename_i hbyte
    split at hc
    · rename_i hshort
      obtain rfl := Option.some.inj hc
      constructor
      · apply writesScale_fixed hlt (by norm_num) (by norm_num) (by omega)
        intro hfits
        have hvalue : (repl <<< 2 + 1).toNat = 4 * (repl.toNat % 2 ^ 126) + 1 :=
          toNat_mode (by norm_num) repl (by decide)
        rw [hvalue, encode_two (by omega) (by omega), Nat.mod_eq_of_lt hfits]
      · intro _
        rw [if_neg (by omega), if_pos (by omega)]
    · rename_i hshort
      split at hc
      · rename_i hmiddle
        obtain rfl := Option.some.inj hc
        constructor
        · apply writesScale_fixed hlt (by norm_num) (by norm_num) (by omega)
          intro hfits
          have hvalue : (repl <<< 2 + 2).toNat = 4 * (repl.toNat % 2 ^ 126) + 2 :=
            toNat_mode (by norm_num) repl (by decide)
          rw [hvalue, encode_four (by omega) (by omega), Nat.mod_eq_of_lt hfits]
        · intro _
          rw [if_neg (by omega), if_neg (by omega)]
      · split at hc
        · rename_i hmiddle hmax
          obtain rfl := Option.some.inj hc
          have hmax' : repl.toNat < 2 ^ 120 := hmax
          constructor
          · apply writesScale_big hmax'
            norm_num only
            omega
          · rintro ⟨-, hlow⟩
            norm_num only at hlow
            omega
        · simp at hc

/-- A value that loses its top bits is written in a short mode. -/
theorem scaleValue_long {o : Operands 64} (h : 255 < o.changedVal.toNat) : 1 < (scaleValue o).2 := by
  have hone : ¬o.changedVal ≤ 255 := by
    rw [BitVec.not_le, BitVec.lt_def]
    exact h
  unfold scaleValue
  simp only [hone, if_false]
  split
  · simp
  · split
    · simp
    · simp [scaleBig]

theorem scaleValueN_short {repl : BitVec 128} (h : LosesTopBits 128 repl.toNat) :
    ∃ c, scaleValueN repl = some c := by
  have hfour : repl <<< 2 ≤ 4294967295 := by
    have hlow : repl.toNat % 2 ^ 126 < 2 ^ 30 := h.2
    rw [shift2_le_iff (by norm_num)]
    change 4 * (repl.toNat % 2 ^ 126) ≤ 4294967295
    omega
  unfold scaleValueN
  simp only [hfour, if_true]
  split
  · exact ⟨_, rfl⟩
  · split
    · exact ⟨_, rfl⟩
    · exact ⟨_, rfl⟩

/-- A call of `cmp_extend_encoding` comes to the compact integers. -/
def ComesToScale (f : Fuzzer) (p : Place f.len) (hshape : ℕ) (o : Operands 64) : Prop :=
  1 < shapeBytes hshape (f.len - p.idx) ∧ o.pattern ≠ o.oPattern

/-- Compact integers are tried for the attribute. -/
def TriesScale (f : Fuzzer) (attr : BitVec 8) : Prop :=
  attr < IS_FP ∧ (f.cmplogEnableScale ∨ LVL3 ≤ f.lvl)

/-- What is written is the compact encoding of the replacement exactly when there is no room for a
candidate, or no top bits of the value are lost. -/
theorem scaleCandidates_iff (f : Fuzzer) (p : Place f.len) (hshape : ℕ) (o : Operands 64)
    (oN : Operands 128) (attr : BitVec 8) :
    ((ComesToScale f p hshape o →
        ∀ c, scaleCandidate f p o attr = some c → WritesScale o.repl.toNat c) ↔
      ¬(ComesToScale f p hshape o ∧ TriesScale f attr ∧ o.repl = o.changedVal ∧
        (if o.repl.toNat % 2 ^ 62 < 2 ^ 14 then 2 else 4) ≤ p.itsLen ∧
        LosesTopBits 64 o.repl.toNat)) ∧
    ((hshape ≤ p.itsLen →
        ∀ c, scaleCandidateN f p oN.repl attr = some c → WritesScale oN.repl.toNat c) ↔
      ¬(hshape ≤ p.itsLen ∧ TriesScale f attr ∧
        shortLen (oN.repl.toNat % 2 ^ 126) ≤ p.itsLen ∧ LosesTopBits 128 oN.repl.toNat)) := by
  constructor
  · constructor
    · rintro h ⟨hcomes, ⟨hattr, hscale⟩, hsame, hroom, hloses⟩
      have hlong : 1 < (scaleValue o).2 := by
        apply scaleValue_long
        rw [← hsame]
        have hge := hloses.1
        omega
      obtain ⟨hiff, hlen⟩ := scaleValue_iff hsame hlong
      have hcandidate : scaleCandidate f p o attr = some (scaleValue o) := by
        rw [scaleCandidate, if_pos]
        exact ⟨hattr, hscale, hsame, by rwa [hlen hloses], hlong⟩
      exact hiff.mp (h hcomes _ hcandidate) hloses
    · intro h hcomes c hc
      rw [scaleCandidate, Option.ite_none_right_eq_some] at hc
      obtain ⟨⟨hattr, hscale, hsame, hroom, hlong⟩, hc⟩ := hc
      obtain rfl := Option.some.inj hc
      obtain ⟨hiff, hlen⟩ := scaleValue_iff hsame hlong
      rw [hiff]
      intro hloses
      exact h ⟨hcomes, ⟨hattr, hscale⟩, hsame, by rwa [← hlen hloses], hloses⟩
  · have hattr32 : attr < IS_FP → attr < 32 := fun hattr => by
      have hlt : attr.toNat < 8 := hattr
      rw [BitVec.lt_def]
      exact hlt.trans (by decide)
    constructor
    · rintro h ⟨hshape, ⟨hattr, hscale⟩, hroom, hloses⟩
      obtain ⟨c, hc⟩ := scaleValueN_short hloses
      obtain ⟨hiff, hlen⟩ := scaleValueN_iff hc
      have hcandidate : scaleCandidateN f p oN.repl attr = some c := by
        rw [scaleCandidateN, if_pos ⟨hattr, hattr32 hattr, hscale⟩, hc, Option.filter_some, if_pos]
        simpa [hlen hloses] using hroom
      exact hiff.mp (h hshape c hcandidate) hloses
    · intro h hshape c hc
      rw [scaleCandidateN, Option.ite_none_right_eq_some, Option.filter_eq_some_iff] at hc
      obtain ⟨⟨hattr, -, hscale⟩, hc, hroom⟩ := hc
      obtain ⟨hiff, hlen⟩ := scaleValueN_iff hc
      rw [hiff]
      intro hloses
      have hroom' : c.2 ≤ p.itsLen := by simpa using hroom
      exact h ⟨hshape, ⟨hattr, hscale⟩, by rwa [← hlen hloses], hloses⟩

/-- `2 ^ 62 + 64` is written as the encoding of `64`. -/
theorem topBits_lost : ¬(ComesToScale (silent 8 LVL3) ⟨0, 8, by decide⟩ 8
      ⟨1, 0x4000000000000040, 2, 0x4000000000000040⟩ →
    ∀ c, scaleCandidate (silent 8 LVL3) ⟨0, 8, by decide⟩
      ⟨1, 0x4000000000000040, 2, 0x4000000000000040⟩ IS_EQUAL = some c →
        WritesScale 0x4000000000000040 c) := by
  intro h
  have hcandidate : scaleCandidate (silent 8 LVL3) ⟨0, 8, by decide⟩
      ⟨1, 0x4000000000000040, 2, 0x4000000000000040⟩ IS_EQUAL = some (0x101, 2) := by
    decide +kernel
  have hdecode := (h ⟨by decide, by decide⟩ _ hcandidate).2
  have hsixtyfour : decode (scaleBytes (0x101, 2)) = some (64, []) := by
    decide +kernel
  rw [hsixtyfour] at hdecode
  simp at hdecode

end AflPlusPlus.Redqueen
