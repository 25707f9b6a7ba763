import AflPlusPlus.ByteBuffers
import AflPlusPlus.Limits
import AflPlusPlus.TextLines

/-!
# Queue entries that are text

Redqueen treats an input differently that consists of ASCII or UTF-8 characters. The scanner
accepts the well-formed sequences of UTF-8 by their first bytes, and takes the bytes behind the
first one of a character off the size that it counts the characters against.
-/

namespace AflPlusPlus.TextInputs
open ByteWords ByteBuffers TextLines

def aflTxtMinLen : ℕ := 12

def aflTxtMaxLen : ℕ := 65535

def aflTxtMinPercent : ℕ := 99

/-! ## The scanner -/

structure Counts where
  ascii : ℕ
  utf8 : ℕ
  comp : ℤ
deriving DecidableEq

def isascii (b : Byte) : Bool := b < 0x80

/-- ASCII, as far as it is usual in text. -/
def plain (b : Byte) : Bool := b == 0x09 || b == 0x0A || b == 0x0D || (0x20 ≤ b && b ≤ 0x7E)

/-- A non-overlong character of two bytes in front. -/
def twoBytes (buf : Buffer) : Bool :=
  buf.length > 1 &&
    ((0xC2 ≤ byteAt buf 0 && byteAt buf 0 ≤ 0xDF) && (0x80 ≤ byteAt buf 1 && byteAt buf 1 ≤ 0xBF))

def threeBytes (buf : Buffer) : Bool :=
  buf.length > 2 &&
    -- excluding overlongs
    ((byteAt buf 0 == 0xE0 && (0xA0 ≤ byteAt buf 1 && byteAt buf 1 ≤ 0xBF) &&
        (0x80 ≤ byteAt buf 2 && byteAt buf 2 ≤ 0xBF)) ||
      -- straight 3-byte
      (((0xE1 ≤ byteAt buf 0 && byteAt buf 0 ≤ 0xEC) || byteAt buf 0 == 0xEE ||
          byteAt buf 0 == 0xEF) &&
        (0x80 ≤ byteAt buf 1 && byteAt buf 1 ≤ 0xBF) &&
        (0x80 ≤ byteAt buf 2 && byteAt buf 2 ≤ 0xBF)) ||
      -- excluding surrogates
      (byteAt buf 0 == 0xED && (0x80 ≤ byteAt buf 1 && byteAt buf 1 ≤ 0x9F) &&
        (0x80 ≤ byteAt buf 2 && byteAt buf 2 ≤ 0xBF)))

def fourBytes (buf : Buffer) : Bool :=
  buf.length > 3 &&
    -- planes 1-3
    ((byteAt buf 0 == 0xF0 && (0x90 ≤ byteAt buf 1 && byteAt buf 1 ≤ 0xBF) &&
        (0x80 ≤ byteAt buf 2 && byteAt buf 2 ≤ 0xBF) &&
        (0x80 ≤ byteAt buf 3 && byteAt buf 3 ≤ 0xBF)) ||
      -- planes 4-15
      ((0xF1 ≤ byteAt buf 0 && byteAt buf 0 ≤ 0xF3) &&
        (0x80 ≤ byteAt buf 1 && byteAt buf 1 ≤ 0xBF) &&
        (0x80 ≤ byteAt buf 2 && byteAt buf 2 ≤ 0xBF) &&
        (0x80 ≤ byteAt buf 3 && byteAt buf 3 ≤ 0xBF)) ||
      -- plane 16
      (byteAt buf 0 == 0xF4 && (0x80 ≤ byteAt buf 1 && byteAt buf 1 ≤ 0x8F) &&
        (0x80 ≤ byteAt buf 2 && byteAt buf 2 ≤ 0xBF) &&
        (0x80 ≤ byteAt buf 3 && byteAt buf 3 ≤ 0xBF)))

/-- It can also be valid UTF-8. -/
def Counts.countAscii (c : Counts) (b : Byte) : Counts :=
  if isascii b || isprint b then { c with ascii := c.ascii + 1 } else c

/-- The loop over what is left of the buffer. -/
def scan (c : Counts) : Buffer → Counts
  | [] => c
  | b :: buf =>
    if plain b then scan { c with utf8 := c.utf8 + 1, ascii := c.ascii + 1 } buf
    else
      let c := c.countAscii b
      if twoBytes (b :: buf) then
        scan { c with utf8 := c.utf8 + 1, comp := c.comp - 1 } (buf.drop 1)
      else if threeBytes (b :: buf) then
        scan { c with utf8 := c.utf8 + 1, comp := c.comp - 2 } (buf.drop 2)
      else if fourBytes (b :: buf) then
        scan { c with utf8 := c.utf8 + 1, comp := c.comp - 3 } (buf.drop 3)
      else scan c buf
termination_by buf => buf.length
decreasing_by all_goals simp only [List.length_cons, List.length_drop]; omega

/-- The loop is the same, and nothing is counted off. -/
def checkIfTextBuf (buf : Buffer) : ℕ :=
  let c := scan ⟨0, 0, 0⟩ buf
  (if c.utf8 > c.ascii then c.utf8 else c.ascii) % 2 ^ 8

/-- The quotient as a `u32`. The division traps on zero. -/
def quotient (a b : ℤ) : Option ℕ :=
  if b = 0 then none else some (BitVec.ofInt 32 (a.tdiv b)).toNat

/-- The percentages, and the class that they make. There is no result when a division traps. -/
def classify (c : Counts) (len : ℕ) : Option ℕ :=
  (quotient (c.utf8 * 100 % 2 ^ 32 : ℕ) c.comp).bind fun percentUtf8 =>
  (quotient (c.ascii * 100 % 2 ^ 32 : ℕ) len).bind fun percentAscii =>
  if percentUtf8 ≥ percentAscii ∧ percentUtf8 ≥ aflTxtMinPercent then some 2
  else if percentAscii ≥ aflTxtMinPercent then some 1
  else some 0

/-- How much of a queue entry is read. -/
def readLen (qLen : ℕ) : ℕ := if qLen ≥ maxFile then maxFile - 1 else qLen

/-- The file is missing when it cannot be opened. -/
def checkIfText (qLen : ℕ) (file : Option (List Byte)) : Option ℕ :=
  if qLen < aflTxtMinLen ∨ qLen < aflTxtMaxLen then some 0
  else
    match file with
    | none => some 0
    | some file =>
      let buf := file.take (readLen qLen)
      if buf.length ≠ readLen qLen then some 0
      else classify (scan ⟨0, 0, buf.length⟩ buf) (readLen qLen)

end AflPlusPlus.TextInputs
