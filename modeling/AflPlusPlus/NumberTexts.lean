import AflPlusPlus.TextLines

/-!
# Numbers at the start of a text

`strtoll` and `strtoull` of the C library for base `0`: blanks, a sign, and digits whose base
depends on a `0` or `0x` in front. Both say where the digits end.
-/

namespace AflPlusPlus.NumberTexts
open ByteWords TextLines

/-- The value of a digit. -/
def digit (b : Byte) : ℕ :=
  if isdigit b then b.toNat - 48 else if chr 'a' ≤ b then b.toNat - 87 else b.toNat - 55

def isoctal (b : Byte) : Bool := chr '0' ≤ b && b ≤ chr '7'

/-- The digits that the text starts with, and their value. -/
def digits (base : ℕ) (isDigit : Byte → Bool) (s : List Byte) : ℕ × ℕ :=
  let ds := s.takeWhile isDigit
  (ds.foldl (fun n d => base * n + digit d) 0, ds.length)

/-- The value behind the sign and how many bytes are read for it. -/
def magnitude (s : List Byte) : ℕ × ℕ :=
  match s with
  | zero :: x :: d :: rest =>
    if zero = chr '0' ∧ (x = chr 'x' ∨ x = chr 'X') ∧ isxdigit d then
      let (value, used) := digits 16 isxdigit (d :: rest)
      (value, 2 + used)
    else if zero = chr '0' then digits 8 isoctal s
    else digits 10 isdigit s
  | zero :: _ => if zero = chr '0' then digits 8 isoctal s else digits 10 isdigit s
  | [] => (0, 0)

/-- The sign, the value behind it, and the number of bytes up to the end: `0` without a digit. -/
structure Scanned where
  negative : Bool
  value : ℕ
  stop : ℕ
  deriving DecidableEq

/-- The value with its sign. -/
def Scanned.signed (r : Scanned) : ℤ := if r.negative then -r.value else r.value

/-- How many bytes the sign takes. -/
def signLength (s : List Byte) : ℕ :=
  if s.head? = some (chr '-') ∨ s.head? = some (chr '+') then 1 else 0

def scan (s : List Byte) : Scanned :=
  let blanks := (s.takeWhile isspace).length
  let rest := s.dropWhile isspace
  let (value, used) := magnitude (rest.drop (signLength rest))
  { negative := rest.head? == some (chr '-'), value
    stop := if used = 0 then 0 else blanks + signLength rest + used }

/-- The value, where it ends, and whether it is out of range. -/
structure Parsed where
  value : ℤ
  stop : ℕ
  erange : Bool
  deriving DecidableEq

def llongMax : ℤ := 2 ^ 63 - 1
def llongMin : ℤ := -2 ^ 63
def ullongMax : ℤ := 2 ^ 64 - 1

def strtoll (s : List Byte) : Parsed :=
  let r := scan s
  if r.signed < llongMin then ⟨llongMin, r.stop, true⟩
  else if llongMax < r.signed then ⟨llongMax, r.stop, true⟩
  else ⟨r.signed, r.stop, false⟩

/-- A negative number is one of the upper half of the values. -/
def strtoull (s : List Byte) : Parsed :=
  let r := scan s
  if ullongMax < r.value then ⟨ullongMax, r.stop, true⟩
  else ⟨r.signed % 2 ^ 64, r.stop, false⟩

theorem digits_length_le (base : ℕ) (isDigit : Byte → Bool) (s : List Byte) :
    (digits base isDigit s).2 ≤ s.length :=
  (List.takeWhile_sublist _).length_le

theorem magnitude_le (s : List Byte) : (magnitude s).2 ≤ s.length := by
  unfold magnitude
  split
  · rename_i zero x d rest
    split
    · have h := digits_length_le 16 isxdigit (d :: rest)
      simp only [List.length_cons] at h ⊢
      omega
    · split
      · exact digits_length_le _ _ _
      · exact digits_length_le _ _ _
  · split
    · exact digits_length_le _ _ _
    · exact digits_length_le _ _ _
  · exact Nat.le_refl 0

/-- A number ends inside its text. -/
theorem scan_stop_le (s : List Byte) : (scan s).stop ≤ s.length := by
  have hsplit : (s.takeWhile isspace).length + (s.dropWhile isspace).length = s.length := by
    rw [← List.length_append, List.takeWhile_append_dropWhile]
  have hle := magnitude_le ((s.dropWhile isspace).drop (signLength (s.dropWhile isspace)))
  rw [List.length_drop] at hle
  rw [scan]
  dsimp only
  split
  · exact Nat.zero_le _
  · omega

theorem strtoll_stop_le (s : List Byte) : (strtoll s).stop ≤ s.length := by
  have hle := scan_stop_le s
  rw [strtoll]
  split
  · exact hle
  · split
    · exact hle
    · exact hle

theorem strtoull_stop_le (s : List Byte) : (strtoull s).stop ≤ s.length := by
  have hle := scan_stop_le s
  rw [strtoull]
  split
  · exact hle
  · exact hle

end AflPlusPlus.NumberTexts
