import AflPlusPlus.CheckedBlocks
import AflPlusPlus.CheckedPrograms
import AflPlusPlus.DeterministicStages
import AflPlusPlus.Limits

/-!
# The havoc mutations

The mutation operators of `afl_mutate`. They work in place on a buffer that has room for
`max_len` bytes, by way of `tmp_buf` of the same size, and draw random numbers. A read or write
outside a buffer fails, and so does a draw when there is no random number left.
-/

namespace AflPlusPlus.Mutations
open ByteWords ByteBuffers CheckedBlocks CheckedPrograms DeterministicStages

inductive Mutation
  | flipbit | interesting8 | interesting16 | interesting16be | interesting32 | interesting32be
  | arith8_ | arith8 | arith16_ | arith16be_ | arith16 | arith16be
  | arith32_ | arith32be_ | arith32 | arith32be | rand8
  | cloneCopy | cloneFixed | overwriteCopy | overwriteFixed | byteadd | bytesub | flip8
  | switch | del | shuffle | delone | insertone | asciinum | insertasciinum
  | extraOverwrite | extraInsert | autoExtraOverwrite | autoExtraInsert
  | spliceOverwrite | spliceInsert
  deriving DecidableEq, Repr

/-- The operators in the order of their `enum`. -/
def mutations : List Mutation :=
  [.flipbit, .interesting8, .interesting16, .interesting16be, .interesting32, .interesting32be,
    .arith8_, .arith8, .arith16_, .arith16be_, .arith16, .arith16be, .arith32_, .arith32be_,
    .arith32, .arith32be, .rand8, .cloneCopy, .cloneFixed, .overwriteCopy, .overwriteFixed,
    .byteadd, .bytesub, .flip8, .switch, .del, .shuffle, .delone, .insertone, .asciinum,
    .insertasciinum, .extraOverwrite, .extraInsert, .autoExtraOverwrite, .autoExtraInsert,
    .spliceOverwrite, .spliceInsert]

/-- A strategy array lists each operator several times, in the order of the `enum`. -/
def strategyArray (counts : List ℕ) : List Mutation :=
  (mutations.zip counts).flatMap fun (m, n) => List.replicate n m

def mutationStrategyExplorationText : List Mutation := strategyArray
  [6, 5, 5, 5, 5, 5, 6, 6, 6, 6, 6, 6, 6, 6, 6, 6, 6, 13, 10, 9, 8, 6, 6, 8, 8, 7, 8, 7, 6, 8, 8, 8,
    8, 6, 6, 9, 10]

def mutationStrategyExplorationBinary : List Mutation := strategyArray
  [7, 6, 6, 6, 6, 6, 7, 7, 6, 6, 6, 6, 6, 6, 7, 6, 6, 14, 9, 9, 7, 7, 7, 10, 7, 6, 6, 6, 6, 6, 6, 7,
    7, 6, 6, 8, 10]

def mutationStrategyExploitationText : List Mutation := strategyArray
  [7, 7, 7, 7, 8, 8, 6, 7, 6, 7, 7, 7, 6, 6, 6, 7, 7, 9, 8, 6, 6, 7, 6, 9, 7, 6, 7, 5, 6, 6, 8, 7,
    7, 7, 7, 7, 9]

def mutationStrategyExploitationBinary : List Mutation := strategyArray
  [7, 7, 7, 7, 8, 8, 6, 7, 6, 7, 7, 7, 6, 7, 7, 7, 7, 9, 8, 6, 6, 7, 6, 10, 7, 6, 6, 5, 6, 5, 7, 7,
    7, 7, 7, 7, 9]

/-- What does not change during a call. A splice buffer of length zero stands for none. -/
structure Config where
  maxLen : ℕ
  isText : Bool := false
  isExploration : Bool := true
  spliceBuf : Buffer := []
  extras : List Buffer := []
  aExtras : List Buffer := []
  queueCycle : ℕ := 1
  runOver10m : Bool := false

def mutationArray (cfg : Config) : List Mutation :=
  if cfg.isText then
    if cfg.isExploration then mutationStrategyExplorationText else mutationStrategyExploitationText
  else if cfg.isExploration then mutationStrategyExplorationBinary
  else mutationStrategyExploitationBinary

/-! ## The memory -/

structure Havoc where
  buf : Block Byte
  tmpBuf : Block Byte
  len : ℕ
  draws : List ℕ

inductive Stop
  | outOfBounds
  | noDraws
  deriving DecidableEq, Repr

abbrev Mutator (α : Type) := Program Havoc Stop α

def getLen : Mutator ℕ := fun s => .ok (s.len, s)

def setLen (len : ℕ) : Mutator Unit := fun s => .ok ((), { s with len := len })

/-- The bytes `buf[i], ..., buf[i + n - 1]`. -/
def readBuf (i n : ℕ) : Mutator (ℕ → Byte) := fun s =>
  if i + n ≤ s.buf.size then .ok (fun k => s.buf.cell (i + k), s) else .error .outOfBounds

def writeBuf (i n : ℕ) (bytes : ℕ → Byte) : Mutator Unit := fun s =>
  if i + n ≤ s.buf.size then .ok ((), { s with buf := s.buf.overwrite i n bytes })
  else .error .outOfBounds

def readTmp (i n : ℕ) : Mutator (ℕ → Byte) := fun s =>
  if i + n ≤ s.tmpBuf.size then .ok (fun k => s.tmpBuf.cell (i + k), s) else .error .outOfBounds

def writeTmp (i n : ℕ) (bytes : ℕ → Byte) : Mutator Unit := fun s =>
  if i + n ≤ s.tmpBuf.size then .ok ((), { s with tmpBuf := s.tmpBuf.overwrite i n bytes })
  else .error .outOfBounds

def readSplice (cfg : Config) (i n : ℕ) : Mutator (ℕ → Byte) := fun s =>
  if i + n ≤ cfg.spliceBuf.length then .ok (fun k => byteAt cfg.spliceBuf (i + k), s)
  else .error .outOfBounds

def loadBuf (i : ℕ) : Mutator Byte := do
  let bytes ← readBuf i 1
  return bytes 0

def storeBuf (i : ℕ) (b : Byte) : Mutator Unit := writeBuf i 1 fun _ => b

/-! ## Random numbers -/

def randNext : Mutator ℕ := fun s =>
  match s.draws with
  | [] => .error .noDraws
  | r :: draws => .ok (r % 2 ^ 64, { s with draws := draws })

/-- `rand_below`; each number that it rejects is left out of the draws. -/
def randBelow (limit : ℕ) : Mutator ℕ :=
  if limit ≤ 1 then pure 0
  else do
    let r ← randNext
    return r % limit

/-- `do { j = rand_below(limit); } while (j == avoid);` for a limit above one. -/
def drawOther (limit avoid : ℕ) (s : Havoc) : List ℕ → Except Stop (ℕ × Havoc)
  | [] => .error .noDraws
  | r :: draws =>
    if r % 2 ^ 64 % limit = avoid then drawOther limit avoid s draws
    else .ok (r % 2 ^ 64 % limit, { s with draws := draws })

def randOther (limit avoid : ℕ) : Mutator ℕ := fun s => drawOther limit avoid s s.draws

/-- `HAVOC_BLK_SMALL` -/
def blkSmall : ℕ := 32

/-- `HAVOC_BLK_MEDIUM` -/
def blkMedium : ℕ := 128

/-- `HAVOC_BLK_LARGE` -/
def blkLarge : ℕ := 1500

/-- `HAVOC_BLK_XL` -/
def blkXl : ℕ := 32768

def blockBounds (cfg : Config) : Mutator (ℕ × ℕ) := do
  let rlim := if cfg.runOver10m then min cfg.queueCycle 3 else 1
  let r ← randBelow rlim
  if r = 0 then return (1, blkSmall)
  else if r = 1 then return (blkSmall, blkMedium)
  else do
    let r ← randBelow 10
    if r ≠ 0 then return (blkMedium, blkLarge) else return (blkLarge, blkXl)

def chooseBlockLen (cfg : Config) (limit : ℕ) : Mutator ℕ := do
  let (minValue, maxValue) ← blockBounds cfg
  let minValue := if minValue ≥ limit then 1 else minValue
  let r ← randBelow ((min maxValue limit + 2 ^ 32 - minValue + 1) % 2 ^ 32)
  return minValue + r

/-! ## The operators

A difference of two numbers is always one of a smaller from a greater number; sums wrap. -/

inductive Outcome
  | done
  | retry
  deriving DecidableEq, Repr

def alterByte (pos : ℕ) (f : Byte → Byte) : Mutator Outcome := do
  let b ← loadBuf pos
  storeBuf pos (f b)
  return .done

def changeByte (f : Byte → Byte) : Mutator Outcome := do
  let pos ← randBelow (← getLen)
  alterByte pos f

def flipbit : Mutator Outcome := do
  let bit ← randBelow 8
  changeByte (· ^^^ (1#8 <<< bit))

def interesting8 : Mutator Outcome := do
  let item ← randBelow DeterministicStages.interesting8.length
  let pos ← randBelow (← getLen)
  storeBuf pos (BitVec.ofInt 8 (DeterministicStages.interesting8.getD item 0))
  return .done

/-- An interesting word of `n` bytes. -/
def interestingWord (n : ℕ) (table : List ℤ) (swap : Word n → Word n) : Mutator Outcome := do
  let len ← getLen
  if len < n then return .done
  else do
    let item ← randBelow table.length
    let pos ← randBelow (len - (n - 1))
    writeBuf pos n (byteOf (swap (BitVec.ofInt (8 * n) (table.getD item 0))))
    return .done

def interesting16 : Mutator Outcome := interestingWord 2 DeterministicStages.interesting16 id
def interesting16be : Mutator Outcome :=
  interestingWord 2 DeterministicStages.interesting16 swap16
def interesting32 : Mutator Outcome := interestingWord 4 DeterministicStages.interesting32 id
def interesting32be : Mutator Outcome :=
  interestingWord 4 DeterministicStages.interesting32 swap32

def arithByte (f : Byte → Byte → Byte) : Mutator Outcome := do
  let item ← randBelow arithMax
  changeByte (f · (BitVec.ofNat 8 (1 + item)))

def arith8_ : Mutator Outcome := arithByte (· - ·)
def arith8 : Mutator Outcome := arithByte (· + ·)

/-- Arithmetic on a word of `n` bytes. -/
def arithWord (n : ℕ) (f : Word n → Word n → Word n) : Mutator Outcome := do
  let len ← getLen
  if len < n then return .done
  else do
    let pos ← randBelow (len - (n - 1))
    let item ← randBelow arithMax
    let bytes ← readBuf pos n
    writeBuf pos n (byteOf (f (ofBytes n bytes) (BitVec.ofNat (8 * n) (1 + item))))
    return .done

def arith16_ : Mutator Outcome := arithWord 2 (· - ·)
def arith16be_ : Mutator Outcome := arithWord 2 fun x num => swap16 (swap16 x - num)
def arith16 : Mutator Outcome := arithWord 2 (· + ·)
def arith16be : Mutator Outcome := arithWord 2 fun x num => swap16 (swap16 x + num)
def arith32_ : Mutator Outcome := arithWord 4 (· - ·)
def arith32be_ : Mutator Outcome := arithWord 4 fun x num => swap32 (swap32 x - num)
def arith32 : Mutator Outcome := arithWord 4 (· + ·)
def arith32be : Mutator Outcome := arithWord 4 fun x num => swap32 (swap32 x + num)

def rand8 : Mutator Outcome := do
  let pos ← randBelow (← getLen)
  let item ← randBelow 255
  alterByte pos (· ^^^ BitVec.ofNat 8 (1 + item))

def byteadd : Mutator Outcome := changeByte (· + 1)
def bytesub : Mutator Outcome := changeByte (· - 1)
def flip8 : Mutator Outcome := changeByte (· ^^^ 0xff)

/-- Head, inserted part and tail are put together in `tmp_buf` and copied back. The inserted part
takes `n` bytes from `dst` on, the tail is the rest of the buffer from `tail` on. -/
def rebuild (dst n tail newLen : ℕ) (part : ℕ → Byte) : Mutator Outcome := do
  let len ← getLen
  let head ← readBuf 0 dst
  writeTmp 0 dst head
  writeTmp dst n part
  let rest ← readBuf tail (len - tail)
  writeTmp (dst + n) (len - tail) rest
  setLen newLen
  let all ← readTmp 0 newLen
  writeBuf 0 newLen all
  return .done

def insertPart (dst n : ℕ) (part : ℕ → Byte) : Mutator Outcome := do
  let len ← getLen
  rebuild dst n dst ((len + n) % 2 ^ 32) part

/-- There is no room for a block. -/
def noRoom (len : ℕ) : Mutator Outcome := return if len < 8 then .done else .retry

def cloneCopy (cfg : Config) : Mutator Outcome := do
  let len ← getLen
  if (len + blkXl) % 2 ^ 32 < cfg.maxLen then do
    let cloneLen ← chooseBlockLen cfg len
    let cloneFrom ← randBelow (len - cloneLen + 1)
    let cloneTo ← randBelow len
    let part ← readBuf cloneFrom cloneLen
    insertPart cloneTo cloneLen part
  else noRoom len

/-- A random byte, or the one before the position. -/
def fixedByte (dst : ℕ) : Mutator Byte := do
  let strat ← randBelow 2
  if strat ≠ 0 then do
    let item ← randBelow 256
    return BitVec.ofNat 8 item
  else loadBuf (dst - 1)

def cloneFixed (cfg : Config) : Mutator Outcome := do
  let len ← getLen
  if (len + blkXl) % 2 ^ 32 < cfg.maxLen then do
    let cloneLen ← chooseBlockLen cfg blkXl
    let cloneTo ← randBelow len
    let item ← fixedByte cloneTo
    insertPart cloneTo cloneLen fun _ => item
  else noRoom len

def overwriteCopy (cfg : Config) : Mutator Outcome := do
  let len ← getLen
  if len < 2 then return .done
  else do
    let copyLen ← chooseBlockLen cfg (len - 1)
    let copyFrom ← randBelow (len - copyLen + 1)
    let copyTo ← randBelow (len - copyLen + 1)
    if copyFrom ≠ copyTo then do
      let bytes ← readBuf copyFrom copyLen
      writeBuf copyTo copyLen bytes
      return .done
    else return .done

def overwriteFixed (cfg : Config) : Mutator Outcome := do
  let len ← getLen
  if len < 2 then return .done
  else do
    let copyLen ← chooseBlockLen cfg (len - 1)
    let copyTo ← randBelow (len - copyLen + 1)
    let item ← fixedByte copyTo
    writeBuf copyTo copyLen fun _ => item
    return .done

def switch (cfg : Config) : Mutator Outcome := do
  let len ← getLen
  if len < 4 then return .done
  else do
    let switchFrom ← randBelow len
    let switchTo ← randOther len switchFrom
    let switchLen := if switchFrom < switchTo then switchTo - switchFrom else switchFrom - switchTo
    let toEnd := if switchFrom < switchTo then len - switchTo else len - switchFrom
    let switchLen ← chooseBlockLen cfg (min switchLen toEnd)
    let backup ← readBuf switchFrom switchLen
    writeTmp 0 switchLen backup
    let bytes ← readBuf switchTo switchLen
    writeBuf switchFrom switchLen bytes
    let backup ← readTmp 0 switchLen
    writeBuf switchTo switchLen backup
    return .done

def deleteBlock (delLen : ℕ) : Mutator Outcome := do
  let len ← getLen
  let delFrom ← randBelow (len - delLen + 1)
  let bytes ← readBuf (delFrom + delLen) (len - delFrom - delLen)
  writeBuf delFrom (len - delFrom - delLen) bytes
  setLen (len - delLen)
  return .done

def del (cfg : Config) : Mutator Outcome := do
  let len ← getLen
  if len < 2 then return .done
  else do
    let delLen ← chooseBlockLen cfg (len - 1)
    deleteBlock delLen

/-- `for (i = blen - 1; i > 0; i--)`, from the given `i` on. -/
def shuffleFrom (off : ℕ) : ℕ → Mutator Unit
  | 0 => pure ()
  | i + 1 => do
    let j ← randOther (i + 2) (i + 1)
    let temp ← loadBuf (off + (i + 1))
    let other ← loadBuf (off + j)
    storeBuf (off + (i + 1)) other
    storeBuf (off + j) temp
    shuffleFrom off i

def shuffle (cfg : Config) : Mutator Outcome := do
  let len ← getLen
  if len < 4 then return .done
  else do
    let blen ← chooseBlockLen cfg (len - 1)
    let off ← randBelow (len - blen + 1)
    shuffleFrom off (blen - 1)
    return .done

def delone : Mutator Outcome := do
  let len ← getLen
  if len < 2 then return .done else deleteBlock 1

def insertone : Mutator Outcome := do
  let len ← getLen
  if len < 2 then return .done
  else do
    let cloneTo ← randBelow len
    let item ← fixedByte cloneTo
    insertPart cloneTo 1 fun _ => item

/-! ### Numbers -/

def isDigit (b : Byte) : Bool := 48 ≤ b.toNat ∧ b.toNat ≤ 57

/-- How many of the `n` bytes from `i` on have the property, before the first that has not. -/
def countWhile (p : Byte → Bool) (i : ℕ) : ℕ → Mutator ℕ
  | 0 => pure 0
  | n + 1 => do
    let b ← loadBuf i
    if p b then do
      let cnt ← countWhile p (i + 1) n
      return cnt + 1
    else return 0

/-- The first digit from a random position on, and from the beginning when there is none. -/
def findDigit : Mutator (Option ℕ) := do
  let len ← getLen
  let off ← randBelow len
  let cnt ← countWhile (fun b => !isDigit b) off (len - off)
  if off + cnt = len then do
    let cnt ← countWhile (fun b => !isDigit b) 0 off
    if cnt = off then return none else return some cnt
  else return some (off + cnt)

/-- `val = (val * 10) + buf[i] - '0'` for the `n` bytes from `i` on. -/
def readDigits (i : ℕ) : ℕ → BitVec 64 → Mutator (BitVec 64)
  | 0, val => pure val
  | n + 1, val => do
    let b ← loadBuf i
    readDigits (i + 1) n (val * 10 + b.setWidth 64 - 48)

def changeNumber (strat : ℕ) (val : BitVec 64) : Mutator (BitVec 64) :=
  match strat with
  | 0 => return val + 1
  | 1 => return val - 1
  | 2 => return val * 2
  | 3 => return val.sdiv 2
  | 4 =>
    if val ≠ 0 ∧ val.toNat < 0x19999999 then do
      let r ← randNext
      return BitVec.ofNat 64 (r % (val * 10).toNat)
    else do
      let r ← randBelow 256
      return BitVec.ofNat 64 r
  | 5 => do
    let r ← randBelow 256
    return val + BitVec.ofNat 64 r
  | 6 => do
    let r ← randBelow 256
    return val - BitVec.ofNat 64 r
  | 7 => return ~~~val
  | _ => return val

def charBytes (text : List Char) : Buffer := text.map fun c => BitVec.ofNat 8 c.toNat

/-- `"%llu"` -/
def unsignedText (n : ℕ) : Buffer := charBytes (Nat.toDigits 10 n)

/-- `"%" PRId64` -/
def signedText (val : ℤ) : Buffer :=
  if val < 0 then charBytes ['-'] ++ unsignedText val.natAbs else unsignedText val.natAbs

/-- `off && buf[off - 1] == '-'` -/
def hasMinus (off : ℕ) : Mutator Bool :=
  if off = 0 then return false
  else do
    let b ← loadBuf (off - 1)
    return b == 45

/-- A number in the buffer, from `off` up to `off2`, and the text that replaces it. -/
structure Number where
  off : ℕ
  off2 : ℕ
  text : Buffer

/-- The bound of `snprintf` is `sizeof(buf)`, the size of a pointer. -/
def newNumber : Mutator (Option Number) := do
  match ← findDigit with
  | none => return none
  | some off => do
    let len ← getLen
    let cnt ← countWhile isDigit (off + 1) (len - (off + 1))
    let off2 := off + 1 + cnt
    let first ← loadBuf off
    let val ← readDigits (off + 1) (off2 - (off + 1)) (first.setWidth 64 - 48)
    let negative ← hasMinus off
    let val := if negative then -val else val
    let strat ← randBelow 8
    let val ← changeNumber strat val
    return some ⟨off, off2, (signedText val.toInt).take 7⟩

def replaceNumber (num : Number) : Mutator Outcome := do
  let len ← getLen
  let oldLen := num.off2 - num.off
  let newLen := num.text.length
  if oldLen = newLen then do
    writeBuf num.off newLen (byteAt num.text)
    return .done
  else rebuild num.off newLen num.off2 ((len + newLen - oldLen) % 2 ^ 32) (byteAt num.text)

def asciinum : Mutator Outcome := do
  let len ← getLen
  if len < 4 then return .done
  else do
    match ← newNumber with
    | none => noRoom len
    | some num => replaceNumber num

def insertasciinum : Mutator Outcome := do
  let insLen ← randBelow 8
  let insLen := 1 + insLen
  let len ← getLen
  let pos ← randBelow len
  if len < (pos + insLen) % 2 ^ 32 then noRoom len
  else do
    let val ← randNext
    let text := unsignedText val
    let off := if insLen > text.length then 0 else text.length - insLen
    let insLen := if insLen > text.length then text.length else insLen
    writeBuf pos insLen fun k => byteAt text (off + k)
    return .done

/-! ### Tokens and the splice buffer -/

/-- A random token, when there are any. -/
def useExtra (extras : List Buffer) : Mutator (Option Buffer) :=
  if extras = [] then return none
  else do
    let i ← randBelow extras.length
    match extras[i]? with
    | none => fail .outOfBounds
    | some extra => return some extra

def overwriteExtra (extras : List Buffer) : Mutator Outcome := do
  match ← useExtra extras with
  | none => return .retry
  | some extra => do
    let len ← getLen
    if extra.length > len then return .retry
    else do
      let insertAt ← randBelow (len - extra.length + 1)
      writeBuf insertAt extra.length (byteAt extra)
      return .done

def insertExtra (cfg : Config) (extras : List Buffer) : Mutator Outcome := do
  match ← useExtra extras with
  | none => return .retry
  | some extra => do
    let len ← getLen
    if (len + extra.length) % 2 ^ 32 ≥ cfg.maxLen then return .retry
    else do
      let insertAt ← randBelow (incU32 len)
      let tail ← readBuf insertAt (len - insertAt)
      writeBuf (insertAt + extra.length) (len - insertAt) tail
      writeBuf insertAt extra.length (byteAt extra)
      setLen ((len + extra.length) % 2 ^ 32)
      return .done

def extraOverwrite (cfg : Config) : Mutator Outcome := overwriteExtra cfg.extras
def extraInsert (cfg : Config) : Mutator Outcome := insertExtra cfg cfg.extras
def autoExtraOverwrite (cfg : Config) : Mutator Outcome := overwriteExtra cfg.aExtras
def autoExtraInsert (cfg : Config) : Mutator Outcome := insertExtra cfg cfg.aExtras

def spliceOverwrite (cfg : Config) : Mutator Outcome := do
  let len ← getLen
  let spliceLen := cfg.spliceBuf.length
  if spliceLen = 0 then return .retry
  else do
    let copyLen ← chooseBlockLen cfg (spliceLen - 1)
    let copyLen := if copyLen > len then len else copyLen
    let copyFrom ← randBelow (spliceLen - copyLen + 1)
    let copyTo ← randBelow (len - copyLen + 1)
    let bytes ← readSplice cfg copyFrom copyLen
    writeBuf copyTo copyLen bytes
    return .done

def spliceInsert (cfg : Config) : Mutator Outcome := do
  let len ← getLen
  let spliceLen := cfg.spliceBuf.length
  if spliceLen = 0 then return .retry
  else if (len + blkXl) % 2 ^ 32 ≥ cfg.maxLen then return .retry
  else do
    let cloneLen ← chooseBlockLen cfg spliceLen
    let cloneFrom ← randBelow (spliceLen - cloneLen + 1)
    let cloneTo ← randBelow (incU32 len)
    let part ← readSplice cfg cloneFrom cloneLen
    insertPart cloneTo cloneLen part

/-! ## A pass of the loop -/

def apply (cfg : Config) : Mutation → Mutator Outcome
  | .flipbit => flipbit
  | .interesting8 => interesting8
  | .interesting16 => interesting16
  | .interesting16be => interesting16be
  | .interesting32 => interesting32
  | .interesting32be => interesting32be
  | .arith8_ => arith8_
  | .arith8 => arith8
  | .arith16_ => arith16_
  | .arith16be_ => arith16be_
  | .arith16 => arith16
  | .arith16be => arith16be
  | .arith32_ => arith32_
  | .arith32be_ => arith32be_
  | .arith32 => arith32
  | .arith32be => arith32be
  | .rand8 => rand8
  | .cloneCopy => cloneCopy cfg
  | .cloneFixed => cloneFixed cfg
  | .overwriteCopy => overwriteCopy cfg
  | .overwriteFixed => overwriteFixed cfg
  | .byteadd => byteadd
  | .bytesub => bytesub
  | .flip8 => flip8
  | .switch => switch cfg
  | .del => del cfg
  | .shuffle => shuffle cfg
  | .delone => delone
  | .insertone => insertone
  | .asciinum => asciinum
  | .insertasciinum => insertasciinum
  | .extraOverwrite => extraOverwrite cfg
  | .extraInsert => extraInsert cfg
  | .autoExtraOverwrite => autoExtraOverwrite cfg
  | .autoExtraInsert => autoExtraInsert cfg
  | .spliceOverwrite => spliceOverwrite cfg
  | .spliceInsert => spliceInsert cfg

/-- `MUT_STRATEGY_ARRAY_SIZE` -/
def mutStrategyArraySize : ℕ := 256

def drawMutation (cfg : Config) : Mutator Mutation := do
  let r ← randBelow mutStrategyArraySize
  match (mutationArray cfg)[r]? with
  | none => fail .outOfBounds
  | some m => return m

/-- From the label `retry_havoc_step` up to the end of the pass or the jump back. -/
def havocStep (cfg : Config) : Mutator Outcome := do
  let m ← drawMutation cfg
  apply cfg m

theorem length_strategyArray {counts : List ℕ} (h : counts.length = mutations.length) :
    (strategyArray counts).length = counts.sum := by
  unfold strategyArray
  rw [List.length_flatMap]
  simp only [List.length_replicate]
  congr 1
  exact List.map_snd_zip h.le

/-- Each array has as many elements as are drawn from. -/
theorem length_mutationArray (cfg : Config) :
    (mutationArray cfg).length = mutStrategyArraySize := by
  unfold mutationArray
  split_ifs
  all_goals exact (length_strategyArray (by decide)).trans (by decide)

end AflPlusPlus.Mutations
