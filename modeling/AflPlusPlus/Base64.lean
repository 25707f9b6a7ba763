import AflPlusPlus.MemoryPatches
import AflPlusPlus.TextLines

/-!
# Base64

The conversions that are tried for the strings of a comparison. Both write group by group to a
memory and say how many bytes they have written.
-/

namespace AflPlusPlus.Redqueen
open ByteWords MemoryPatches TextLines

def base64EncodeTable : List Byte :=
  "ABCDEFGHIJKLMNOPQRSTUVWXYZabcdefghijklmnopqrstuvwxyz0123456789+/".toList.map chr

def base64DecodeTable : List (BitVec 32) := [
  62, 0,  0,  0,  63, 52, 53, 54, 55, 56, 57, 58, 59, 60, 61, 0,
  0,  0,  0,  0,  0,  0,  0,  1,  2,  3,  4,  5,  6,  7,  8,  9,
  10, 11, 12, 13, 14, 15, 16, 17, 18, 19, 20, 21, 22, 23, 24, 25,
  0,  0,  0,  0,  0,  0,  26, 27, 28, 29, 30, 31, 32, 33, 34, 35,
  36, 37, 38, 39, 40, 41, 42, 43, 44, 45, 46, 47, 48, 49, 50, 51]

/-- The tests of `is_base64` for one byte. -/
def isBase64Char (b : Byte) : Bool := isalnum b || b = chr '+' || b = chr '/' || b = chr '='

/-- `is_base64` tests 4 bytes. -/
def isBase64 (str : Mem) : Bool :=
  isBase64Char (str 0) && isBase64Char (str 1) && isBase64Char (str 2) && isBase64Char (str 3)

/-- `base64_encode_table[n & 0x3F]` -/
def encodeSextet (n : BitVec 32) : Byte := base64EncodeTable.getD (n &&& 0x3f).toNat 0

/-- What stands for the bytes from `i` on. Those before `len` are read, which is the length of the
output. -/
def encodeGroup (src : Mem) (len dstLen i : ℕ) : Mem :=
  let v : BitVec 32 := (src i).setWidth 32
  let v := if i + 1 < len then (v <<< 8) ||| (src (i + 1)).setWidth 32 else v <<< 8
  let v := if i + 2 < len then (v <<< 8) ||| (src (i + 2)).setWidth 32 else v <<< 8
  fun k => match k with
    | 0 => encodeSextet (v >>> 18)
    | 1 => encodeSextet (v >>> 12)
    | 2 => if i + 1 < dstLen then encodeSextet (v >>> 6) else chr '='
    | _ => if i + 2 < dstLen then encodeSextet v else chr '='

def toBase64Len (dstLen : ℕ) : ℕ := dstLen / 3 * 4 + if dstLen % 3 ≠ 0 then 4 else 0

/-- The memory behind `dst`, and how many characters are written before the NUL. -/
def toBase64 (src dst : Mem) (dstLen : ℕ) : Mem × ℕ :=
  let len := toBase64Len dstLen
  let dst := (List.range (len / 4)).foldl
    (fun dst g => patch dst (4 * g) 4 (encodeGroup src len dstLen (3 * g))) dst
  (patch dst len 1 fun _ => 0, len)

/-- `base64_decode_table[b - 43]`, for the characters that `is_base64` lets pass. -/
def decodeChar (b : Byte) : BitVec 32 := base64DecodeTable.getD (b.toNat - 43) 0

/-- A group of four characters gives up to three bytes; each `'='` is one byte less. -/
def decodeGroup (src : Mem) (i : ℕ) (dst : Mem) (j : ℕ) (ret : ℕ) : Mem × ℕ :=
  let v := decodeChar (src i)
  let v := (v <<< 6) ||| decodeChar (src (i + 1))
  let v := if src (i + 2) = chr '=' then v <<< 6 else (v <<< 6) ||| decodeChar (src (i + 2))
  let v := if src (i + 3) = chr '=' then v <<< 6 else (v <<< 6) ||| decodeChar (src (i + 3))
  let dst := patch dst j 1 fun _ => (v >>> 16).setWidth 8
  let ret := ret + 1
  let (dst, ret) := if src (i + 2) ≠ chr '=' then
      (patch dst (j + 1) 1 fun _ => (v >>> 8).setWidth 8, ret + 1)
    else (dst, ret)
  if src (i + 3) ≠ chr '=' then (patch dst (j + 2) 1 fun _ => v.setWidth 8, ret + 1) else (dst, ret)

def fromBase64 (src dst : Mem) (dstLen : ℕ) : Mem × ℕ :=
  (List.range (dstLen / 3)).foldl (fun r g => decodeGroup src (4 * g) r.1 (3 * g) r.2) (dst, 0)

end AflPlusPlus.Redqueen
