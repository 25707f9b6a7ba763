import AflPlusPlus.ByteWords
import Mathlib.Data.List.DropRight

/-!
# Characters and lines of text files

The character classes of the C library in the C locale, numbers read from text, and the lines
that repeated calls of `fgets` deliver.
-/

namespace AflPlusPlus.TextLines
open ByteWords

def chr (c : Char) : Byte := BitVec.ofNat 8 c.toNat

def isspace (b : Byte) : Bool := (chr '\t' ≤ b && b ≤ chr '\r') || b == chr ' '

def isdigit (b : Byte) : Bool := chr '0' ≤ b && b ≤ chr '9'

def isalnum (b : Byte) : Bool :=
  isdigit b || (chr 'A' ≤ b && b ≤ chr 'Z') || (chr 'a' ≤ b && b ≤ chr 'z')

def isxdigit (b : Byte) : Bool :=
  isdigit b || (chr 'A' ≤ b && b ≤ chr 'F') || (chr 'a' ≤ b && b ≤ chr 'f')

def isprint (b : Byte) : Bool := chr ' ' ≤ b && b ≤ chr '~'

/-- `strtol` ends at the limits of a `long`, of which `atoi` keeps the lower 32 bits. -/
def atoi (s : List Byte) : ℤ :=
  let s := s.dropWhile isspace
  let negative := s.head? == some (chr '-')
  let digits := if negative || s.head? == some (chr '+') then s.tail else s
  let value : ℕ := (digits.takeWhile isdigit).foldl (fun n d => 10 * n + (d.toNat - 48)) 0
  let long : ℤ := if negative then max (-(value : ℤ)) (-2 ^ 63) else min (value : ℤ) (2 ^ 63 - 1)
  (BitVec.ofInt 32 long).toInt

/-- The string that an array holds: what comes before its first NUL. -/
def cstring (buf : List Byte) : List Byte := buf.takeWhile (· ≠ 0)

/-- What `fgets` reads into a buffer for `room` characters and a NUL, and what it leaves. -/
def fgets : ℕ → List Byte → List Byte × List Byte
  | 0, file => ([], file)
  | _ + 1, [] => ([], [])
  | room + 1, b :: file =>
    if b = chr '\n' then ([b], file)
    else ((b :: (fgets room file).1), (fgets room file).2)

theorem fgets_length_le (room : ℕ) (file : List Byte) :
    (fgets room file).2.length ≤ file.length := by
  induction room generalizing file with
  | zero => simp [fgets]
  | succ room ih =>
    cases file with
    | nil => simp [fgets]
    | cons b file =>
      rw [fgets]
      split_ifs
      · simp
      · exact (ih file).trans (Nat.le_succ _)

/-- As long as there is something to read, a call takes something. -/
theorem fgets_length_lt (room : ℕ) (b : Byte) (file : List Byte) :
    (fgets (room + 1) (b :: file)).2.length < (b :: file).length := by
  rw [fgets]
  split_ifs
  · simp
  · exact Nat.lt_succ_of_le (fgets_length_le room file)

theorem fgets_line {room : ℕ} {line : List Byte} (h : ∀ b ∈ line, b ≠ chr '\n')
    (hroom : line.length < room) (file : List Byte) :
    fgets room (line ++ chr '\n' :: file) = (line ++ [chr '\n'], file) := by
  induction line generalizing room with
  | nil =>
    cases room with
    | zero => simp at hroom
    | succ room => simp [fgets]
  | cons b line ih =>
    cases room with
    | zero => simp at hroom
    | succ room =>
      have hrest := ih (fun c hc => h c (List.mem_cons_of_mem b hc)) (Nat.lt_of_succ_lt_succ hroom)
      rw [List.cons_append, fgets, if_neg (h b List.mem_cons_self), hrest]
      rfl

end AflPlusPlus.TextLines
