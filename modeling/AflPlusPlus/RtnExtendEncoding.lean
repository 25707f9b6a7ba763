import AflPlusPlus.Base64
import AflPlusPlus.Redqueen

/-!
# Encodings of compared strings

The operands of a function that compares strings are tried verbatim, also with some bytes before
the position, and then behind the transformations that the bytes seen so far are in accord with.
-/

namespace AflPlusPlus.Redqueen
open ByteWords CheckedPrograms MemoryPatches TextLines

/-! ## Operands -/

/-- The memory of two `struct cmpfn_operands`, and which of their strings is looked for. -/
structure RtnCall where
  entry : ℕ
  o : Mem
  origO : Mem

/-- What is in the memory that the function does not initialise, and around its table. -/
structure Leftover where
  save : Mem := fun _ => 0
  tmp : Mem := fun _ => 0
  hexTable : ℤ → Byte := fun _ => 0

structure Strings where
  pattern : Mem
  repl : Mem
  oPattern : Mem
  changedVal : Mem
  l0 : BitVec 8
  l1 : BitVec 8
  ol0 : BitVec 8
  ol1 : BitVec 8

/-- The strings are at the offsets 0 and 32, and their lengths at 64 and 65. -/
def RtnCall.strings (c : RtnCall) : Strings :=
  if c.entry = 0 then
    { pattern := window c.o 0, repl := window c.o 32,
      oPattern := window c.origO 0, changedVal := window c.origO 32,
      l0 := c.o 64, ol0 := c.origO 64, l1 := c.o 65, ol1 := c.origO 65 }
  else
    { pattern := window c.o 32, repl := window c.o 0,
      oPattern := window c.origO 32, changedVal := window c.origO 0,
      l0 := c.o 65, ol0 := c.origO 65, l1 := c.o 64, ol1 := c.origO 64 }

/-- A length without the bit that marks a text. -/
def dropFlag (l : BitVec 8) : BitVec 8 := if 0x80 ≤ l then l - 0x80 else l

/-- `MAX(l0, ol0)`, or the shape when some length is not valid. -/
def Strings.lmax (x : Strings) (hshape : ℕ) : ℕ :=
  let g := if 0x80 ≤ x.l0 ∨ 0x80 ≤ x.ol0 then dropFlag else id
  let ls := [g x.l0, g x.l1, g x.ol0, g x.ol1]
  if ls.any fun l => l = 0 || 32 < l then (BitVec.ofNat 8 hshape).toNat
  else max (g x.l0).toNat (g x.ol0).toNat

def Strings.itsLen (x : Strings) (hshape left taintLen : ℕ) : ℕ :=
  min (min (min (x.lmax hshape) hshape) left) taintLen

/-! ## The verbatim match -/

section Verbatim
variable (f : Fuzzer) (x : Strings)

/-- The loop over the bytes: how many of them it has written. -/
def verbatimLoop (idx : ℕ) : ℕ → ℕ → M ℕ
  | 0, i => return i
  | n + 1, i => do
    let s ← get
    if (x.pattern i ≠ s.buf (idx + i) ∨ x.oPattern i ≠ f.origBuf (idx + i)) ∨ s.status = 1 then
      return i
    else
      writeAndRun f (idx + i) 1 fun _ => x.repl i
      combineFound f idx i (window (← get).buf idx)
      verbatimLoop idx n (i + 1)

/-- The match from `pre` bytes before the position. -/
def verbatimAt (save : Mem) (savedIdx savedItsLen stop pre : ℕ) : M Unit := do
  let s ← get
  onlyIf (s.status ≠ 1 ∧ (pre = 0 ∨ bytes pre (window s.buf (savedIdx - pre)) = bytes pre x.repl)) do
    let i ← verbatimLoop f x (savedIdx - pre) (savedItsLen + pre) 0
    modify fun s => { s with buf := patch s.buf (savedIdx - pre) i (window save (stop - pre)) }

/-- `for (pre = from; pre <= to; pre++)` -/
def verbatim (save : Mem) (savedIdx savedItsLen start stop : ℕ) : M Unit :=
  (List.range' start (stop + 1 - start)).forM (verbatimAt f x save savedIdx savedItsLen stop)

end Verbatim

/-! ## What the bytes seen so far are in accord with -/

/-- The counters and arrays of the transform loop. -/
structure Scan where
  toupper : ℕ := 0
  tolower : ℕ := 0
  xor : ℕ := 0
  arith : ℕ := 0
  tohex : ℕ := 0
  fromhex : ℕ := 0
  tob64 : ℕ := 0
  fromb64 : ℕ := 0
  from0 : ℕ := 0
  fromx : ℕ := 0
  fromX : ℕ := 0
  fromSlash : ℕ := 0
  to0 : ℕ := 0
  tox : ℕ := 0
  toSlash : ℕ := 0
  toUp : ℕ := 0
  xorVal : Mem := fun _ => 0
  arithVal : Mem := fun _ => 0

/-- `is_hex` tests 2 bytes. -/
def isHex (str : Mem) : Bool := isxdigit (str 0) && isxdigit (str 1)

/-- The case of a hex digit, or else what was known. -/
def hexCase (b : Byte) (known : ℕ) : ℕ :=
  if chr 'A' ≤ b ∧ b ≤ chr 'F' then 1 else if chr 'a' ≤ b ∧ b ≤ chr 'f' then 2 else known

namespace Scan
variable (f : Fuzzer) (x : Strings) (idx i : ℕ) (buf : Mem) (c : Scan)

/-- The first two bytes may be the mark of a hex number. -/
def marks : Scan :=
  if i = 0 then
    let o := f.origBuf idx
    let r := x.repl 0
    { c with
      from0 := if o = chr '0' then 1 else c.from0
      fromSlash := if o = chr '\\' then 1 else c.fromSlash
      to0 := if r = chr '0' then 1 else c.to0
      toSlash := if r = chr '\\' then 1 else c.toSlash }
  else if i = 1 then
    let o := f.origBuf (idx + 1)
    let r := x.repl 1
    { c with
      fromx := if o = chr 'x' ∨ o = chr 'X' then 1 else c.fromx
      fromX := if o = chr 'X' then 1 else c.fromX
      tox := if r = chr 'x' ∨ r = chr 'X' then 1 else c.tox }
  else c

/-- The replacement and the input in hexadecimal. -/
def hex : Scan :=
  let c := if i < 16 ∧ isHex (window x.repl (2 * i)) then
      { c with
        tohex := c.tohex + 1
        toUp := if c.toUp = 0 then hexCase (x.repl (2 * i + 1)) (hexCase (x.repl (2 * i)) 0)
          else c.toUp }
    else c
  if i % 2 = 1 ∧ idx + i + 1 < f.len ∧ isHex (window f.origBuf (idx + i - 1)) then
    { c with fromhex := c.fromhex + 2 }
  else c

/-- The replacement and the input in base64. -/
def base64 : Scan :=
  let c := if i % 3 = 2 ∧ i < 24 ∧ isBase64 (window x.repl (i / 3 * 4)) then
      { c with tob64 := c.tob64 + 3 }
    else c
  if i % 4 = 3 ∧ i < 24 ∧ isBase64 (window f.origBuf (idx + i - 3)) then
    { c with fromb64 := c.fromb64 + 4 }
  else c

/-- The relations of the byte of the input to that of the pattern. Differences are those of
`int`. -/
def relations : Scan :=
  let b := buf (idx + i)
  let ob := f.origBuf (idx + i)
  let p := x.pattern i
  let op := x.oPattern i
  let diff : ℤ := (op.toNat : ℤ) - ob.toNat
  { c with
    xor := if op ^^^ ob = p ^^^ b ∧ p ^^^ b ≠ 0 then c.xor + 1 else c.xor
    arith := if diff = (p - b).toNat ∧ p - b ≠ 0 then c.arith + 1 else c.arith
    tolower := if b ||| 0x20 = p ∧ ob ||| 0x20 = op then c.tolower + 1 else c.tolower
    toupper := if b &&& 0x5a = p ∧ ob &&& 0x5a = op then c.toupper + 1 else c.toupper
    xorVal := patch c.xorVal i 1 fun _ => p ^^^ b
    arithVal := patch c.arithVal i 1 fun _ => p - b }

/-- What byte `i` adds. -/
def count : Scan :=
  let c := c.marks f x idx i
  let c := if f.cmplogEnableXtremeTransform then (c.hex f x idx i).base64 f x idx i else c
  c.relations f x idx i buf

/-- The loop has nothing left to try after byte `i`, or the strings differ there. -/
def stops : Bool :=
  (7 ≤ i && (c.xor ≤ i && c.arith ≤ i && c.tolower ≤ i && c.toupper ≤ i && c.tohex < i &&
    c.fromhex + c.from0 + c.fromx + c.fromSlash + 1 < i &&
    (f.cmplogEnableXtremeTransform && c.tob64 + 3 < i && c.fromb64 + 4 < i))) ||
  x.repl i ≠ x.changedVal i

/-! ## The attempts -/

/-- The input is in base64 up to byte `i`. -/
def fromBase64Active : Bool :=
  f.cmplogEnableXtremeTransform && i % 4 == 3 && i < 24 && i < c.fromb64

/-- The lengths for which the replacement is tried in base64. -/
def base64Lens (itsLen : ℕ) : List ℕ :=
  (List.range' i (itsLen + 1 - i)).takeWhile fun hlen => hlen + idx < f.len

/-- The input is in hexadecimal up to byte `i`. -/
def fromHexActive : Bool :=
  f.cmplogEnableXtremeTransform && i % 2 == 1 && i < 16 && c.fromhex != 0 &&
    i < c.fromhex + c.fromSlash + c.fromx + c.from0

/-- The lengths for which the replacement is tried in hexadecimal. -/
def hexLens : List ℕ := [i, 2 * i].takeWhile fun hlen => hlen + idx < f.len

/-- The mark in front of a hex number. -/
def hexMark : Buffer :=
  if c.fromSlash ≠ 0 ∧ c.fromx ≠ 0 then [chr '\\', if c.fromX ≠ 0 then chr 'X' else chr 'x']
  else if c.from0 ≠ 0 ∧ c.fromx ≠ 0 then [chr '0', if c.fromX ≠ 0 then chr 'X' else chr 'x']
  else []

/-- `tmp_l` -/
def hexLen (hlen : ℕ) : ℕ := hlen + 1 + c.hexMark.length

end Scan

def hexTableUp : List Byte := "0123456789ABCDEF".toList.map chr
def hexTableLow : List Byte := "0123456789abcdef".toList.map chr

def hexTable : List Byte := [
  0, 1, 2, 3,  4,  5,  6,  7,  8,  9,  0,  0,  0, 0,
  0, 0, 0, 10, 11, 12, 13, 14, 15, 0,  0,  0,  0, 0,
  0, 0, 0, 0,  0,  0,  0,  0,  0,  0,  0,  0,  0, 0,
  0, 0, 0, 0,  0,  0,  0,  10, 11, 12, 13, 14, 15]

/-- `hex_table[b - '0']`, which may be a byte near the table. -/
def hexValue (around : ℤ → Byte) (b : Byte) : Byte :=
  let n : ℤ := (b.toNat : ℤ) - 48
  if 0 ≤ n then hexTable.getD n.toNat (around n) else around n

/-- The hex digits of the bytes up to `src[n]`. -/
def hexText (table : List Byte) (src dst : Mem) (off n : ℕ) : Mem :=
  patch dst off (2 * (n + 1)) fun k =>
    if k % 2 = 0 then table.getD (src (k / 2) >>> 4).toNat 0
    else table.getD (src (k / 2) % 16).toNat 0

section Attempts
variable (f : Fuzzer) (x : Strings) (idx i : ℕ) (c : Scan)

/-- The input is base64 and converted to binary: convert the replacement to base64. What is
written stays in the buffer. -/
def tryFromBase64 (itsLen : ℕ) (tmp : Mem) : M Mem :=
  if c.fromBase64Active f i then
    (Scan.base64Lens f idx i itsLen).foldlM (fun tmp hlen => do
      let (tmp, res) := toBase64 x.repl tmp hlen
      onlyIf (res + idx < f.len) (writeAndRun f idx res tmp)
      return tmp) tmp
  else return tmp

/-- The input is converted to base64: decode the replacement. -/
def tryToBase64 (tmp : Mem) : M Mem :=
  if f.cmplogEnableXtremeTransform ∧ i % 3 = 2 ∧ i < 24 ∧ i < c.tob64 then do
    let (tmp, olen) := fromBase64 x.repl tmp (i + 1)
    writeAndRun f idx olen tmp
    return tmp
  else return tmp

/-- The input is converted to hexadecimal: convert the replacement to binary. -/
def tryToHex (around : ℤ → Byte) (tmp : Mem) : M Mem :=
  if f.cmplogEnableXtremeTransform ∧ i < 16 ∧ i < c.tohex then do
    let off := if c.toSlash + c.tox + c.to0 = 2 then 2 else 0
    let tmp := patch tmp 0 (i + 1) fun j =>
      (hexValue around (x.repl (off + 2 * j)) <<< 4) + hexValue around (x.repl (off + 2 * j + 1))
    writeAndRun f idx (i + 1) tmp
    return tmp
  else return tmp

/-- The input is hexadecimal and converted to binary: convert the replacement to hexadecimal. As
many bytes are put back from `save` as are written. -/
def tryFromHex (save tmp : Mem) : M Mem :=
  if c.fromHexActive f i then
    let off := c.hexMark.length
    let table := if c.toUp = 1 then hexTableUp else hexTableLow
    (Scan.hexLens f idx i).foldlM (fun tmp hlen => do
      let tmp := hexText table x.repl tmp off (hlen / 2)
      writeAndRun f idx (c.hexLen hlen) tmp
      modify fun s => { s with buf := patch s.buf idx (c.hexLen hlen) save }
      return patch tmp (c.hexLen hlen) 1 fun _ => 0) (patch tmp 0 off fun k => c.hexMark.getD k 0)
  else return tmp

/-- The transformations that keep the length. -/
def tryBytewise : M Unit := do
  onlyIf (i < c.xor) (writeAndRun f idx (i + 1) fun j => x.repl j ^^^ c.xorVal j)
  onlyIf (i < c.arith) (unlessFound (writeAndRun f idx (i + 1) fun j => x.repl j - c.arithVal j))
  onlyIf (i < c.toupper) (unlessFound (writeAndRun f idx (i + 1) fun j => x.repl j ||| 0x20))
  onlyIf (i < c.tolower) (unlessFound (writeAndRun f idx (i + 1) fun j => x.repl j &&& 0x5f))

end Attempts

/-- The loop over the bytes: where it ends. -/
def transformLoop (f : Fuzzer) (x : Strings) (idx itsLen : ℕ) (around : ℤ → Byte) (save : Mem) :
    ℕ → ℕ → Scan → Mem → M ℕ
  | 0, i, _, _ => return i
  | n + 1, i, c, tmp => do
    let c := c.count f x idx i (← get).buf
    let tmp ← tryFromBase64 f x idx i c itsLen tmp
    let tmp ← tryToBase64 f x idx i c tmp
    let tmp ← tryToHex f x idx i c around tmp
    let tmp ← tryFromHex f x idx i c save tmp
    tryBytewise f x idx i c
    combineFound f idx (i + 1) (window (← get).buf idx)
    if c.stops f x i ∨ (← get).status = 1 then return i
    else transformLoop f x idx itsLen around save n (i + 1) c tmp

/-- The transform solving. -/
def rtnTransform (f : Fuzzer) (x : Strings) (left : Leftover) (idx itsLen : ℕ) (save : Mem) :
    M Unit := do
  let save := patch save 0 itsLen (window (← get).buf idx)
  let i ← transformLoop f x idx itsLen left.hexTable save itsLen 0 {} left.tmp
  modify fun s => { s with buf := patch s.buf idx i save }

def rtnExtendEncoding (f : Fuzzer) (p : Place f.len) (call : RtnCall) (left : Leftover) :
    M Unit := do
  let s ← get
  let x := call.strings
  let itsLen := x.itsLen s.hshape (f.len - p.idx) p.taintLen
  onlyIf (1 < itsLen ∧ (f.isLvl3 → bytes itsLen x.changedVal = bytes itsLen x.repl)) do
    let maxTo := min 4 p.idx
    let stop := if f.isLvl3 then maxTo else 0
    let start := if f.isLvl3 ∧ f.lvl &&& LVL1 = 0 ∧ maxTo ≠ 0 then 1 else 0
    let save := patch left.save 0 (itsLen + stop) (window s.buf (p.idx - stop))
    verbatim f x save p.idx itsLen start stop
    unlessFound (onlyIf (f.cmplogEnableTransform ∧ f.isLvl3)
      (rtnTransform f x left p.idx itsLen save))

end AflPlusPlus.Redqueen
