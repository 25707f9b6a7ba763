import AflPlusPlus.Mutations
import AflPlusPlus.NumberTexts
import AflPlusPlus.Redqueen

/-!
# Encodings of compared integers

Where the operand of a comparison is found in the input, its replacement is tried in several
encodings: as the text of a number, behind a transformation, as a word of either byte order, and
as a compact integer. For an inequality its neighbours are tried too.
-/

namespace AflPlusPlus.Redqueen
open ByteWords CheckedPrograms MemoryPatches NumberTexts TextLines
open Mutations (signedText unsignedText)

/-! ## Operands -/

/-- The four values of a comparison: in the last run and in the first one. -/
structure Operands (w : ℕ) where
  pattern : BitVec w
  repl : BitVec w
  oPattern : BitVec w
  changedVal : BitVec w

def Operands.map {v w : ℕ} (g : BitVec v → BitVec w) (o : Operands v) : Operands w :=
  ⟨g o.pattern, g o.repl, g o.oPattern, g o.changedVal⟩

def IS_EQUAL : BitVec 8 := 1
def IS_GREATER : BitVec 8 := 2
def IS_LESSER : BitVec 8 := 4
def IS_FP : BitVec 8 := 8
def IS_FP_MOD : BitVec 8 := 16
def IS_INT_MOD : BitVec 8 := 32
def IS_TRANSFORM : BitVec 8 := 64

def SWAP16 (x : BitVec 16) : BitVec 16 := (x <<< 8) ||| (x >>> 8)

def SWAP32 (x : BitVec 32) : BitVec 32 :=
  (x <<< 24) ||| (x >>> 24) ||| ((x <<< 8) &&& 0x00FF0000) ||| ((x >>> 8) &&& 0x0000FF00)

def SWAP64 (x : BitVec 64) : BitVec 64 :=
  let x := ((x &&& 0x00000000FFFFFFFF) <<< 32) ||| ((x &&& 0xFFFFFFFF00000000) >>> 32)
  let x := ((x &&& 0x0000FFFF0000FFFF) <<< 16) ||| ((x &&& 0xFFFF0000FFFF0000) >>> 16)
  ((x &&& 0x00FF00FF00FF00FF) <<< 8) ||| ((x &&& 0xFF00FF00FF00FF00) >>> 8)

/-- A swap of the lower bits, whose result is extended. -/
def swapLow (n : ℕ) (swap : BitVec n → BitVec n) (x : BitVec 64) : BitVec 64 :=
  (swap (x.setWidth n)).setWidth 64

/-! ## The text of a number -/

/-- The number that a text of limited length starts with, and where it ends. Blanks in front do
not count for the limit. A value at a limit of its type is taken for an error when `errno` is
`ERANGE`, whenever it was set. -/
def strnto (parse : List Byte → Parsed) (isLimit : ℤ → Bool) (text : List Byte) (erange : Bool) :
    Option (ℤ × ℕ) × Bool :=
  let blanks := (text.takeWhile (· = chr ' ')).length
  let rest := text.dropWhile (· = chr ' ')
  if rest = [] then (none, erange)
  else
    let r := parse (cstring (rest.take 63))
    let erange := erange || r.erange
    if isLimit r.value && erange then (none, erange) else (some (r.value, blanks + r.stop), erange)

def strntoll : List Byte → Bool → Option (ℤ × ℕ) × Bool :=
  strnto strtoll fun ret => ret = llongMin || ret = llongMax

def strntoull : List Byte → Bool → Option (ℤ × ℕ) × Bool :=
  strnto strtoull fun ret => ret = ullongMax

/-- The text that takes the place of a number at the start of another one, and the length of that
number. `atoi("AAA")` is `0`, so a zero is replaced too. -/
def asciiReplacement (text : List Byte) (erange : Bool) (pattern repl : BitVec 64) :
    Option (Buffer × ℕ) × Bool :=
  match strntoll text erange with
  | (some (num, oldLen), erange) =>
    (if BitVec.ofInt 64 num = pattern ∨ num = 0 then some (signedText repl.toInt, oldLen) else none,
      erange)
  | (none, erange) =>
    match strntoull text erange with
    | (some (unum, oldLen), erange) =>
      (if BitVec.ofInt 64 unum = pattern ∨ unum = 0 then some (unsignedText repl.toNat, oldLen)
        else none, erange)
    | (none, erange) => (none, erange)

/-- `new_buf`: the number of `oldLen` bytes at `idx` is replaced. A digit behind it would be read
as a part of the number. -/
def asciiNewBuf (scratch buf : Mem) (len idx : ℕ) (text : Buffer) (oldLen : ℕ) : Mem :=
  let numLen := text.length
  let new := patch scratch 0 idx buf
  let new := patch new idx numLen fun k => text.getD k 0
  let new := patch new (idx + numLen) (len - idx - oldLen) (window buf (idx + oldLen))
  if isdigit (new (idx + numLen)) then patch new (idx + numLen) 1 fun _ => chr ' ' else new

/-- The input that is run in place of the buffer, with `errno`. It has the length of the buffer. -/
def asciiCandidate (f : Fuzzer) (idx : ℕ) (o : Operands 64) (s : State) : Option Buffer × Bool :=
  let (found, erange) :=
    asciiReplacement (bytes (f.len - idx) (window s.buf idx)) s.erange o.pattern o.repl
  (found.map fun (text, oldLen) =>
    bytes f.len (asciiNewBuf (f.scratch s.runs) s.buf f.len idx text oldLen), erange)

def asciiNumber (f : Fuzzer) (idx : ℕ) (o : Operands 64) : M Unit := do
  let candidate := asciiCandidate f idx o (← get)
  modify fun s => { s with erange := candidate.2 }
  match candidate.1 with
  | some input => itsFuzz f input
  | none => return ()

/-! ## Transformations -/

/-- The width of the word that is read for so many bytes. -/
def magicWidth (bytes : ℕ) : ℕ :=
  if bytes < 2 then 1 else if bytes < 4 then 2 else if bytes < 8 then 4 else 8

/-- The value of the input is transformed before it is compared: by an addition, an exclusive or,
or to the other case. The operand that undoes it is tried by another call. -/
def transformMagic (f : Fuzzer) (idx bytes : ℕ) (o : Operands 64) (again : BitVec 64 → M Unit) :
    M Unit := do
  let n := magicWidth bytes
  let bVal : BitVec 64 := (load n (← get).buf idx).setWidth 64
  let oBVal : BitVec 64 := (load n f.origBuf idx).setWidth 64
  let mask : BitVec 64 := (BitVec.allOnes (8 * n)).setWidth 64
  let lower := 0x2020202020202020 &&& mask
  let upper := 0x5f5f5f5f5f5f5f5f &&& mask
  let diff := o.pattern - bVal
  onlyIf (diff = o.oPattern - oBVal ∧ diff ≠ 0) (again (o.repl - diff))
  let diff := o.pattern ^^^ bVal
  unlessFound (onlyIf (diff = o.oPattern ^^^ oBVal ∧ diff ≠ 0) (again (o.repl ^^^ diff)))
  unlessFound (onlyIf (bVal ||| lower = o.pattern &&& mask ∧ oBVal ||| lower = o.oPattern &&& mask)
    (again (o.repl &&& upper)))
  unlessFound (onlyIf (bVal &&& upper = o.pattern &&& mask ∧ oBVal &&& upper = o.oPattern &&& mask)
    (again (o.repl ||| lower)))
  modify fun s => { s with status := 0 }

/-! ## Words -/

/-- The word is in the input where it was before, or it need not be. -/
def matchesWord (f : Fuzzer) (n idx : ℕ) (o : Operands 64) (attr : BitVec 8) (buf : Mem) : Bool :=
  (load n buf idx = o.pattern.setWidth (8 * n) && load n f.origBuf idx = o.oPattern.setWidth (8 * n))
    || IS_FP_MOD ≤ attr

/-- A word of `n` bytes in both byte orders. -/
def tryWord (f : Fuzzer) (p : Place f.len) (o : Operands 64) (attr : BitVec 8)
    (reverse : (BitVec 64 → BitVec 64) → M Unit) (doReverse : Bool) (n : ℕ)
    (swap : BitVec 64 → BitVec 64) : M Unit := do
  let s ← get
  onlyIf (n ≤ s.hshape ∧ s.status ≠ 1) do
    onlyIf (n ≤ p.itsLen ∧ matchesWord f n p.idx o attr s.buf) (tryBytes f p.idx n (byteOf o.repl))
    onlyIf doReverse (unlessFound (reverse swap))

def tryWords (f : Fuzzer) (p : Place f.len) (o : Operands 64) (attr : BitVec 8)
    (reverse : (BitVec 64 → BitVec 64) → M Unit) (doReverse : Bool) : M Unit := do
  tryWord f p o attr reverse doReverse 8 SWAP64
  tryWord f p o attr reverse doReverse 4 (swapLow 32 SWAP32)
  tryWord f p o attr reverse doReverse 2 (swapLow 16 SWAP16)

/-! ## Compact integers -/

/-- The loop that counts the bytes of a value, of which there are at most `fuel`. -/
def countBytes : ℕ → BitVec 128 → ℕ
  | 0, _ => 0
  | fuel + 1, v => if v = 0 then 0 else countBytes fuel (v >>> 8) + 1

/-- `scale_len` -/
def scaleLen (v : BitVec 128) : ℕ := countBytes 16 v - 4

/-- The value in the mode for big integers, and how many bytes of it are written. -/
def scaleBig (repl : BitVec 128) : BitVec 128 × ℕ :=
  ((repl <<< 8) + BitVec.ofNat 128 ((scaleLen repl <<< 2) + 3), scaleLen repl + 5)

/-- What is written, and how many bytes of it. -/
def scaleValue (o : Operands 64) : BitVec 128 × ℕ :=
  let newVal := o.repl <<< 2
  if o.changedVal ≤ 255 then (newVal.setWidth 128, 1)
  else if newVal ≤ 65535 then ((newVal + 1).setWidth 128, 2)
  else if newVal ≤ 4294967295 then ((newVal + 2).setWidth 128, 4)
  else scaleBig (o.repl.setWidth 128)

/-- The compact integer that is written at a position. -/
def scaleCandidate (f : Fuzzer) (p : Place f.len) (o : Operands 64) (attr : BitVec 8) :
    Option (BitVec 128 × ℕ) :=
  if attr < IS_FP ∧ (f.cmplogEnableScale ∨ LVL3 ≤ f.lvl) ∧ o.repl = o.changedVal ∧
      (scaleValue o).2 ≤ p.itsLen ∧ 1 < (scaleValue o).2 then some (scaleValue o) else none

def tryScale (f : Fuzzer) (idx : ℕ) : Option (BitVec 128 × ℕ) → M Unit
  | some (value, ilen) => tryBytes f idx ilen (byteOf value)
  | none => return ()

/-! ## Neighbours -/

/-- The attribute of the comparison without equality. -/
def strictAttr (attr : BitVec 8) : BitVec 8 :=
  if attr &&& IS_EQUAL ≠ 0 ∧ attr &&& (IS_GREATER ||| IS_LESSER) ≠ 0 then
    if attr &&& 2 ≠ 0 then attr + 2 else attr - 2
  else attr

/-- A `float` in the lower half of a value. -/
def onFloat (g : BitVec 32 → BitVec 32) (x : BitVec 64) : BitVec 64 :=
  (g (x.setWidth 32)).setWidth 64

/-- The floating-point number above or below, if the shape has one. -/
def nextFloat (f : Fuzzer) (itsLen hshape : ℕ) (attr : BitVec 8) (repl : BitVec 64) :
    Option (BitVec 64) :=
  if attr &&& IS_GREATER ≠ 0 then
    if hshape = 4 ∧ 4 ≤ itsLen then some (onFloat f.floats.floatAdd1 repl)
    else if hshape = 8 ∧ 8 ≤ itsLen then some (f.floats.doubleAdd1 repl)
    else none
  else
    if hshape = 4 then some (onFloat f.floats.floatSub1 repl)
    else if hshape = 8 then some (f.floats.doubleSub1 repl)
    else none

/-- A call with another shape. -/
def withShape (hshape : ℕ) (p : M Unit) : M Unit := do
  let saved := (← get).hshape
  modify fun s => { s with hshape }
  p
  modify fun s => { s with hshape := saved }

/-- Add and subtract one, unless the comparison is one of equality. -/
def addSubOne (f : Fuzzer) (p : Place f.len) (o : Operands 64) (attr : BitVec 8)
    (again : BitVec 64 → BitVec 8 → M Unit) : M Unit := do
  let hshape := (← get).hshape
  let strict := strictAttr attr
  onlyIf ((f.cmplogEnableArith ∧ LVL3 ≤ f.lvl ∧ attr ≠ IS_TRANSFORM) ∧
      attr &&& (IS_GREATER ||| IS_LESSER) ≠ 0 ∧ 4 ≤ hshape) do
    if IS_FP ≤ strict ∧ strict < IS_FP_MOD then
      match nextFloat f p.itsLen hshape strict o.repl with
      | none => return ()
      | some replNew =>
        again replNew IS_FP_MOD
        onlyIf (hshape = 8 ∧ 4 ≤ p.itsLen)
          (withShape 4 (again ((f.floats.doubleToFloat o.repl).setWidth 64) IS_FP_MOD))
    else
      onlyIf (strict < IS_FP)
        (again (if strict &&& IS_GREATER ≠ 0 then o.repl + 1 else o.repl - 1) IS_INT_MOD)

/-! ## The function -/

/-- How many bytes of the shape are left at the position. -/
def shapeBytes (hshape left : ℕ) : ℕ :=
  min (match hshape with
    | 0 | 1 => 1
    | 2 => 2
    | 3 | 4 => 4
    | _ => 8) left

/-- The body of the function, for the calls that it makes. -/
def cmpExtendEncodingWith (f : Fuzzer) (p : Place f.len)
    (call : Operands 64 → BitVec 8 → Bool → M Unit) (o : Operands 64) (attr : BitVec 8)
    (doReverse : Bool) : M Unit := do
  let bytes := shapeBytes (← get).hshape (f.len - p.idx)
  onlyIf (1 < bytes) do
    onlyIf (f.cmplogEnableTransform ∧ f.isLvl3) do
      asciiNumber f p.idx o
      onlyIf (o.pattern ≠ o.oPattern ∧ o.repl = o.changedVal ∧ attr ≤ IS_EQUAL)
        (transformMagic f p.idx bytes o fun newRepl =>
          call { o with repl := newRepl, changedVal := o.repl } IS_TRANSFORM true)
    onlyIf (o.pattern ≠ o.oPattern) do
      onlyIf (f.lvl &&& LVL1 ≠ 0 ∨ IS_FP_MOD ≤ attr)
        (tryWords f p o attr (fun swap => call (o.map swap) attr false) doReverse)
      tryScale f p.idx (scaleCandidate f p o attr)
      addSubOne f p o attr fun replNew attr =>
        call { o with repl := replNew, changedVal := replNew } attr true

/-- The function, for calls that are nested at most so deeply. -/
def cmpExtendEncoding (f : Fuzzer) (p : Place f.len) :
    ℕ → Operands 64 → BitVec 8 → Bool → M Unit
  | 0 => fun _ _ _ => fail .depth
  | depth + 1 => cmpExtendEncodingWith f p (cmpExtendEncoding f p depth)

/-! ## Other widths -/

/-- The bytes of a `u128` in the other order. -/
def reverseBytes (x : BitVec 128) : BitVec 128 := ofBytes 16 fun k => byteOf x (15 - k)

/-- `SWAPN`, whose length is in bytes. -/
def SWAPN (f : Fuzzer) (x : BitVec 128) (l : BitVec 32) : BitVec 128 :=
  let sr := (128 - (l <<< 3)).toNat
  if sr < 128 then reverseBytes x >>> sr else f.wideShift (reverseBytes x) sr

/-- The operands of the call for the other byte order. -/
def reversedOperands (f : Fuzzer) (hshape : ℕ) (o : Operands 128) : Operands 128 :=
  o.map fun x => SWAPN f x (BitVec.ofNat 32 hshape <<< 3)

/-- Whether the bytes of an operand are in a buffer. -/
def holdsBytes (hshape idx : ℕ) (buf : Mem) (x : BitVec 128) : Bool :=
  bytes hshape (window buf idx) = bytes hshape (byteOf x)

/-- `max_scale` -/
def maxScale : BitVec 128 := 1 <<< 120

/-- What is written for an operand of up to 128 bits, and how many bytes of it. -/
def scaleValueN (repl : BitVec 128) : Option (BitVec 128 × ℕ) :=
  let newVal := repl <<< 2
  if newVal ≤ 255 then some (newVal, 1)
  else if newVal ≤ 65535 then some (newVal + 1, 2)
  else if newVal ≤ 4294967295 then some (newVal + 2, 4)
  else if repl < maxScale then some (scaleBig repl)
  else none

def scaleCandidateN (f : Fuzzer) (p : Place f.len) (repl : BitVec 128) (attr : BitVec 8) :
    Option (BitVec 128 × ℕ) :=
  if attr < IS_FP ∧ attr < 32 ∧ (f.cmplogEnableScale ∨ LVL3 ≤ f.lvl) then
    (scaleValueN repl).filter fun c => c.2 ≤ p.itsLen
  else none

def cmpExtendEncodingNWith (f : Fuzzer) (p : Place f.len) (reverse : Operands 128 → M Unit)
    (o : Operands 128) (attr : BitVec 8) (doReverse : Bool) : M Unit := do
  let s ← get
  onlyIf (s.hshape ≤ p.itsLen) do
    onlyIf (holdsBytes s.hshape p.idx s.buf o.pattern ∧
        holdsBytes s.hshape p.idx f.origBuf o.oPattern)
      (tryBytes f p.idx s.hshape (byteOf o.repl))
    onlyIf doReverse (unlessFound (reverse (reversedOperands f s.hshape o)))
    tryScale f p.idx (scaleCandidateN f p o.repl attr)

/-- The call for the other byte order is the only one that it makes. -/
def cmpExtendEncodingN (f : Fuzzer) (p : Place f.len) (o : Operands 128) (attr : BitVec 8)
    (doReverse : Bool) : M Unit :=
  cmpExtendEncodingNWith f p
    (fun o' => cmpExtendEncodingNWith f p (fun _ => fail .depth) o' attr false) o attr doReverse

end AflPlusPlus.Redqueen
