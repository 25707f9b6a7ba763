import Mathlib

/-!
# Compact integers of the SCALE codec

The two lowest bits of the first byte are the mode. In the first three modes the value follows
them in one, two or four bytes; in the last one they are followed by the number of bytes of the
value, less four. Bytes are least significant first, and a value is in its shortest form.
-/

namespace AflPlusPlus.ScaleCodec

/-- The `n` lowest bytes of a number. -/
def leBytes (n v : ℕ) : List (BitVec 8) := (List.range n).map fun k => BitVec.ofNat 8 (v / 256 ^ k)

def leVal : List (BitVec 8) → ℕ
  | [] => 0
  | b :: s => b.toNat + 256 * leVal s

/-- How many bytes a positive number has. -/
def byteCount (v : ℕ) : ℕ := Nat.log 256 v + 1

def encode (v : ℕ) : List (BitVec 8) :=
  if v < 2 ^ 6 then leBytes 1 (4 * v)
  else if v < 2 ^ 14 then leBytes 2 (4 * v + 1)
  else if v < 2 ^ 30 then leBytes 4 (4 * v + 2)
  else leBytes 1 (4 * (byteCount v - 4) + 3) ++ leBytes (byteCount v) v

/-- A value that takes `n` bytes, when it is not below the values of the mode. -/
def decodeFixed (n least : ℕ) (s : List (BitVec 8)) : Option (ℕ × List (BitVec 8)) :=
  let v := leVal (s.take n) / 4
  if n ≤ s.length ∧ least ≤ v then some (v, s.drop n) else none

/-- A value of `n` bytes that needs all of them. -/
def decodeBig (n : ℕ) (s : List (BitVec 8)) : Option (ℕ × List (BitVec 8)) :=
  let v := leVal (s.take n)
  if n ≤ s.length ∧ 2 ^ 30 ≤ v ∧ 256 ^ (n - 1) ≤ v then some (v, s.drop n) else none

/-- The value that is encoded at the start, and what follows it. -/
def decode : List (BitVec 8) → Option (ℕ × List (BitVec 8))
  | [] => none
  | b :: s =>
    if b.toNat % 4 = 0 then decodeFixed 1 0 (b :: s)
    else if b.toNat % 4 = 1 then decodeFixed 2 (2 ^ 6) (b :: s)
    else if b.toNat % 4 = 2 then decodeFixed 4 (2 ^ 14) (b :: s)
    else decodeBig (b.toNat / 4 + 4) s

variable {n v : ℕ}

@[simp] theorem length_leBytes (n v : ℕ) : (leBytes n v).length = n := by
  simp [leBytes]

theorem leBytes_one (v : ℕ) : leBytes 1 v = [BitVec.ofNat 8 v] := by
  simp [leBytes]

theorem leBytes_succ (n v : ℕ) : leBytes (n + 1) v = BitVec.ofNat 8 v :: leBytes n (v / 256) := by
  simp [leBytes, List.range_succ_eq_map, Function.comp_def, pow_succ', Nat.div_div_eq_div_mul]

/-- The bytes of a number that fits give it back. -/
theorem leVal_leBytes (h : v < 256 ^ n) : leVal (leBytes n v) = v := by
  induction n generalizing v with
  | zero =>
    obtain rfl : v = 0 := by simpa using h
    rfl
  | succ n ih =>
    have hlt : v / 256 < 256 ^ n := by
      apply Nat.div_lt_of_lt_mul
      rwa [← pow_succ']
    rw [leBytes_succ, leVal, ih hlt, BitVec.toNat_ofNat]
    omega

theorem byteCount_spec (h : 0 < v) : 256 ^ (byteCount v - 1) ≤ v ∧ v < 256 ^ byteCount v := by
  constructor
  · rw [byteCount, Nat.add_sub_cancel]
    exact Nat.pow_log_le_self 256 h.ne'
  · exact Nat.lt_pow_succ_log_self (by norm_num) v

theorem byteCount_ge (h : 2 ^ 24 ≤ v) : 4 ≤ byteCount v := by
  have hlog : 3 ≤ Nat.log 256 v := by
    apply Nat.le_log_of_pow_le (by norm_num)
    exact le_trans (by norm_num) h
  rw [byteCount]
  omega

theorem take_leBytes (tail : List (BitVec 8)) : (leBytes n v ++ tail).take n = leBytes n v := by
  simp

theorem drop_leBytes (tail : List (BitVec 8)) : (leBytes n v ++ tail).drop n = tail := by
  simp

theorem decodeFixed_leBytes {least : ℕ} (hv : v < 256 ^ n) (hleast : least ≤ v / 4)
    (tail : List (BitVec 8)) : decodeFixed n least (leBytes n v ++ tail) = some (v / 4, tail) := by
  rw [decodeFixed, take_leBytes, drop_leBytes, leVal_leBytes hv, if_pos]
  exact ⟨by simp, hleast⟩

theorem decodeBig_leBytes (hv : v < 256 ^ n) (hbig : 2 ^ 30 ≤ v) (hlow : 256 ^ (n - 1) ≤ v)
    (tail : List (BitVec 8)) : decodeBig n (leBytes n v ++ tail) = some (v, tail) := by
  rw [decodeBig, take_leBytes, drop_leBytes, leVal_leBytes hv, if_pos]
  exact ⟨by simp, hbig, hlow⟩

/-- The first byte has the mode of the number. -/
theorem leBytes_mode (n w : ℕ) (tail : List (BitVec 8)) : ∃ b s,
    leBytes (n + 1) w ++ tail = b :: s ∧ b.toNat % 4 = w % 4 := by
  refine ⟨_, _, by rw [leBytes_succ, List.cons_append], ?_⟩
  rw [BitVec.toNat_ofNat]
  omega

theorem decode_encode (hv : v < 256 ^ 67) (tail : List (BitVec 8)) :
    decode (encode v ++ tail) = some (v, tail) := by
  unfold encode
  split
  · obtain ⟨b, s, heq, hmode⟩ := leBytes_mode 0 (4 * v) tail
    have hb : b.toNat % 4 = 0 := by omega
    rw [heq, decode, if_pos hb, ← heq, decodeFixed_leBytes (by omega) (by omega)]
    congr 2
    omega
  · split
    · obtain ⟨b, s, heq, hmode⟩ := leBytes_mode 1 (4 * v + 1) tail
      have hb : b.toNat % 4 = 1 := by omega
      rw [heq, decode, if_neg (by omega), if_pos hb, ← heq,
        decodeFixed_leBytes (by omega) (by omega)]
      congr 2
      omega
    · split
      · obtain ⟨b, s, heq, hmode⟩ := leBytes_mode 3 (4 * v + 2) tail
        have hb : b.toNat % 4 = 2 := by omega
        rw [heq, decode, if_neg (by omega), if_neg (by omega), if_pos hb, ← heq,
          decodeFixed_leBytes (by omega) (by omega)]
        congr 2
        omega
      · have hge := byteCount_ge (v := v) (by omega)
        obtain ⟨hlow, hhigh⟩ := byteCount_spec (v := v) (by omega)
        have hle : byteCount v ≤ 67 := Nat.log_lt_of_lt_pow (by omega) hv
        have hfirst : (BitVec.ofNat 8 (4 * (byteCount v - 4) + 3)).toNat =
            4 * (byteCount v - 4) + 3 := by
          rw [BitVec.toNat_ofNat]
          omega
        have hcount : (4 * (byteCount v - 4) + 3) / 4 + 4 = byteCount v := by omega
        rw [leBytes_succ, List.append_assoc, List.cons_append, decode, hfirst, if_neg (by omega),
          if_neg (by omega), if_neg (by omega), hcount]
        exact decodeBig_leBytes hhigh (by omega) hlow tail

end AflPlusPlus.ScaleCodec
