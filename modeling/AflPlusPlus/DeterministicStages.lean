import AflPlusPlus.ByteBuffers
import AflPlusPlus.Limits

/-!
# The deterministic stages of `fuzz_one_original`

The walking bit and byte flips, the arithmetics and the insertions of interesting values,
with the three helpers that let a stage skip what an earlier one is expected to have run.
The stages work in place on `out_buf`. A run records every execution and every attempt that
one of the helpers made the stage skip.
-/

namespace AflPlusPlus.DeterministicStages
open ByteWords ByteBuffers

def interesting8 : List ℤ := [-128, -1, 0, 1, 16, 32, 64, 100, 127]

def interesting16 : List ℤ :=
  interesting8 ++ [-32768, -129, 128, 255, 256, 512, 1000, 1024, 4096, 32767]

def interesting32 : List ℤ :=
  interesting16 ++ [-2147483648, -100663046, -32769, 32768, 65535, 65536, 100663045, 2139095040,
    2147483647]

def swap16 (x : Word 2) : Word 2 := (x <<< 8) ||| (x >>> 8)

def swap32 (x : Word 4) : Word 4 :=
  (x <<< 24) ||| (x >>> 24) ||| ((x <<< 8) &&& 0x00FF0000#32) ||| ((x >>> 8) &&& 0x0000FF00#32)

/-! ## The helpers -/

/-- Shift to the right until the lowest bit is set, counting the shifts. The word is not
zero, so it takes at most 31 of them. -/
def shiftUntilSet : ℕ → ℕ → Word 4 → ℕ × Word 4
  | 0, sh, xorVal => (sh, xorVal)
  | fuel + 1, sh, xorVal =>
    if xorVal &&& 1 = 0 then shiftUntilSet fuel (sh + 1) (xorVal >>> 1) else (sh, xorVal)

def couldBeBitflip (xorVal : Word 4) : Bool :=
  if xorVal = 0 then true
  else
    let (sh, xorVal) := shiftUntilSet 32 0 xorVal
    if xorVal = 1 ∨ xorVal = 3 ∨ xorVal = 15 then true
    else if sh % 8 ≠ 0 then false
    else xorVal = 0xff ∨ xorVal = 0xffff ∨ xorVal = 0xffffffff

/-- The `i`-th part of `w` bits. -/
def part (w : ℕ) (x : Word 4) (i : ℕ) : BitVec w := (x >>> (w * i)).setWidth w

structure Diffs where
  diffs : ℕ
  ov : Word 4
  nv : Word 4

def Diffs.step (d : Diffs) (ab : Word 4 × Word 4) : Diffs :=
  if ab.1 ≠ ab.2 then ⟨d.diffs + 1, ab.1, ab.2⟩ else d

/-- Count the parts of `w` bits that differ; `ov` and `nv` hold the last of them. -/
def countDiffs (w count : ℕ) (oldVal newVal ov nv : Word 4) : Diffs :=
  ((List.range count).map fun i =>
    ((part w oldVal i).setWidth 32, (part w newVal i).setWidth 32)).foldl Diffs.step ⟨0, ov, nv⟩

def inArithRange (w : ℕ) (ov nv : Word 4) : Bool :=
  ((ov - nv).setWidth w).toNat ≤ arithMax ∨ ((nv - ov).setWidth w).toNat ≤ arithMax

def couldBeArith (oldVal newVal : Word 4) (blen : ℕ) : Bool :=
  if oldVal = newVal then true
  else
    let d := countDiffs 8 blen oldVal newVal 0 0
    if d.diffs = 1 ∧ inArithRange 8 d.ov d.nv then true
    else if blen = 1 then false
    else
      let d := countDiffs 16 (blen / 2) oldVal newVal d.ov d.nv
      if d.diffs = 1 ∧ (inArithRange 16 d.ov d.nv ∨
          inArithRange 16 ((swap16 (d.ov.setWidth 16)).setWidth 32)
            ((swap16 (d.nv.setWidth 16)).setWidth 32)) then true
      else blen = 4 ∧ (inArithRange 32 oldVal newVal ∨
        inArithRange 32 (swap32 oldVal) (swap32 newVal))

/-- `val` in place of the bits of `mask` in the bytes from the `i`-th on. -/
def insertVal (mask oldVal : Word 4) (i : ℕ) (val : Word 4) : Word 4 :=
  (oldVal &&& ~~~(mask <<< (i * 8))) ||| (val <<< (i * 8))

def u8 (v : ℤ) : Word 1 := BitVec.ofInt 8 v

def u16 (v : ℤ) : Word 2 := BitVec.ofInt 16 v

def u32 (v : ℤ) : Word 4 := BitVec.ofInt 32 v

def couldBeInterest (oldVal newVal : Word 4) (blen : ℕ) (checkLe : Bool) : Bool :=
  if oldVal = newVal then true
  else if (List.range blen).any fun i => interesting8.any fun v =>
      newVal = insertVal 0xff oldVal i ((u8 v).setWidth 32) then true
  else if blen = 2 ∧ checkLe = false then false
  else if (List.range (blen - 1)).any fun i => interesting16.any fun v =>
      newVal = insertVal 0xffff oldVal i ((u16 v).setWidth 32) ∨
      (blen > 2 ∧ newVal = insertVal 0xffff oldVal i ((swap16 (u16 v)).setWidth 32)) then true
  else blen = 4 ∧ checkLe ∧ interesting32.any fun v => newVal = u32 v

/-! ## The stages -/

inductive ValType
  | none | le | be
  deriving DecidableEq

/-- An execution of a buffer by `common_fuzz_stuff`, or an attempt that was skipped because
a helper returned 1. -/
inductive Event
  | exec (stageCurByte : ℕ) (stageValType : ValType) (buf : Buffer)
  | skip (stageCurByte : ℕ) (buf : Buffer)
  deriving DecidableEq

structure State where
  outBuf : Buffer
  events : List Event

namespace State

def commonFuzzStuff (s : State) (stageCurByte : ℕ) (stageValType : ValType) : State :=
  { s with events := s.events ++ [.exec stageCurByte stageValType s.outBuf] }

def store (s : State) (n i : ℕ) (x : Word n) : State :=
  { s with outBuf := storeAt n s.outBuf i x }

end State

section Flips

variable (skipEffMap : ℕ → Bool)

/-- The bits of a byte are numbered from the most significant one. -/
def flipBit (buf : Buffer) (b : ℕ) : Buffer := buf.modify (b / 8) (· ^^^ 128#8 >>> (b % 8))

def flipBits (k : ℕ) (buf : Buffer) (b : ℕ) : Buffer :=
  (List.range k).foldl (fun buf d => flipBit buf (b + d)) buf

/-- `bitflip k/1` -/
def bitflip (k : ℕ) (s : State) : State :=
  (List.range (8 * s.outBuf.length - (k - 1))).foldl (fun s stageCur =>
    if skipEffMap (stageCur / 8) then
      let s := { s with outBuf := flipBits k s.outBuf stageCur }
      let s := s.commonFuzzStuff (stageCur / 8) .none
      { s with outBuf := flipBits k s.outBuf stageCur }
    else s) s

/-- The stage `bitflip 1/1` first runs the input as it is. -/
def bitflip1 (s : State) : State := bitflip skipEffMap 1 (s.commonFuzzStuff 0 .none)

/-- `bitflip 8n/8` -/
def byteflip (n : ℕ) (s : State) : State :=
  (List.range (s.outBuf.length - (n - 1))).foldl (fun s i =>
    if skipEffMap i then
      let s := s.store n i (loadAt n s.outBuf i ^^^ BitVec.allOnes (8 * n))
      let s := s.commonFuzzStuff i .none
      s.store n i (loadAt n s.outBuf i ^^^ BitVec.allOnes (8 * n))
    else s) s

end Flips

/-- A value that a stage may write over a word, and whether a helper makes it skip it. -/
structure Attempt (n : ℕ) where
  valType : ValType
  value : Word n
  skipped : Bool

def attempt {n : ℕ} (i : ℕ) (s : State) (a : Attempt n) : State :=
  if a.skipped then { s with events := s.events ++ [.skip i (storeAt n s.outBuf i a.value)] }
  else (s.store n i a.value).commonFuzzStuff i a.valType

section Arith

variable (skipEffMap : ℕ → Bool)

def arith8Attempts (orig : Word 1) (j : ℕ) : List (Attempt 1) :=
  let r := orig ^^^ (orig + BitVec.ofNat 8 j)
  let r' := orig ^^^ (orig - BitVec.ofNat 8 j)
  [⟨.le, orig + BitVec.ofNat 8 j, couldBeBitflip (r.setWidth 32)⟩,
    ⟨.le, orig - BitVec.ofNat 8 j, couldBeBitflip (r'.setWidth 32)⟩]

def arith16Attempts (orig : Word 2) (j : ℕ) : List (Attempt 2) :=
  let r1 := orig ^^^ (orig + BitVec.ofNat 16 j)
  let r2 := orig ^^^ (orig - BitVec.ofNat 16 j)
  let r3 := orig ^^^ swap16 (swap16 orig + BitVec.ofNat 16 j)
  let r4 := orig ^^^ swap16 (swap16 orig - BitVec.ofNat 16 j)
  (if (orig &&& 0xff#16).toNat + j > 0xff then
    [⟨.le, orig + BitVec.ofNat 16 j, couldBeBitflip (r1.setWidth 32)⟩] else []) ++
  (if (orig &&& 0xff#16).toNat < j then
    [⟨.le, orig - BitVec.ofNat 16 j, couldBeBitflip (r2.setWidth 32)⟩] else []) ++
  (if (orig >>> 8).toNat + j > 0xff then
    [⟨.be, swap16 (swap16 orig + BitVec.ofNat 16 j), couldBeBitflip (r3.setWidth 32)⟩] else []) ++
  (if (orig >>> 8).toNat < j then
    [⟨.be, swap16 (swap16 orig - BitVec.ofNat 16 j), couldBeBitflip (r4.setWidth 32)⟩] else [])

def arith32Attempts (orig : Word 4) (j : ℕ) : List (Attempt 4) :=
  let r1 := orig ^^^ (orig + BitVec.ofNat 32 j)
  let r2 := orig ^^^ (orig - BitVec.ofNat 32 j)
  let r3 := orig ^^^ swap32 (swap32 orig + BitVec.ofNat 32 j)
  let r4 := orig ^^^ swap32 (swap32 orig - BitVec.ofNat 32 j)
  (if (orig &&& 0xffff#32).toNat + j > 0xffff then
    [⟨.le, orig + BitVec.ofNat 32 j, couldBeBitflip r1⟩] else []) ++
  (if (orig &&& 0xffff#32).toNat < j then
    [⟨.le, orig - BitVec.ofNat 32 j, couldBeBitflip r2⟩] else []) ++
  (if (swap32 orig &&& 0xffff#32).toNat + j > 0xffff then
    [⟨.be, swap32 (swap32 orig + BitVec.ofNat 32 j), couldBeBitflip r3⟩] else []) ++
  (if (swap32 orig &&& 0xffff#32).toNat < j then
    [⟨.be, swap32 (swap32 orig - BitVec.ofNat 32 j), couldBeBitflip r4⟩] else [])

/-- The loop that the three arithmetic stages share: the word is restored after every `j`. -/
def arith (n : ℕ) (attempts : Word n → ℕ → List (Attempt n)) (s : State) : State :=
  (List.range (s.outBuf.length - (n - 1))).foldl (fun s i =>
    let orig := loadAt n s.outBuf i
    if skipEffMap i then
      (List.range' 1 arithMax).foldl (fun s j =>
        ((attempts orig j).foldl (attempt i) s).store n i orig) s
    else s) s

def arith8 (s : State) : State := arith skipEffMap 1 arith8Attempts s

def arith16 (s : State) : State := arith skipEffMap 2 arith16Attempts s

def arith32 (s : State) : State := arith skipEffMap 4 arith32Attempts s

end Arith

section Interest

variable (skipEffMap : ℕ → Bool)

def interest8Attempt (orig : Word 1) (v : ℤ) : Attempt 1 :=
  ⟨.le, u8 v, couldBeBitflip ((orig ^^^ u8 v).setWidth 32) ||
    couldBeArith (orig.setWidth 32) ((u8 v).setWidth 32) 1⟩

/-- The word is restored after every execution. -/
def interest8 (s : State) : State :=
  (List.range s.outBuf.length).foldl (fun s i =>
    let orig := loadAt 1 s.outBuf i
    if skipEffMap i then
      interesting8.foldl (fun s v =>
        let a := interest8Attempt orig v
        if a.skipped then attempt i s a else (attempt i s a).store 1 i orig) s
    else s) s

def interest16Attempts (orig : Word 2) (v : ℤ) : List (Attempt 2) :=
  ⟨.le, u16 v, couldBeBitflip ((orig ^^^ u16 v).setWidth 32) ||
    couldBeArith (orig.setWidth 32) ((u16 v).setWidth 32) 2 ||
    couldBeInterest (orig.setWidth 32) ((u16 v).setWidth 32) 2 false⟩ ::
  if u16 v ≠ swap16 (u16 v) then
    [⟨.be, swap16 (u16 v), couldBeBitflip ((orig ^^^ swap16 (u16 v)).setWidth 32) ||
      couldBeArith (orig.setWidth 32) ((swap16 (u16 v)).setWidth 32) 2 ||
      couldBeInterest (orig.setWidth 32) ((swap16 (u16 v)).setWidth 32) 2 true⟩]
  else []

def interest32Attempts (orig : Word 4) (v : ℤ) : List (Attempt 4) :=
  ⟨.le, u32 v, couldBeBitflip (orig ^^^ u32 v) || couldBeArith orig (u32 v) 4 ||
    couldBeInterest orig (u32 v) 4 false⟩ ::
  if u32 v ≠ swap32 (u32 v) then
    [⟨.be, swap32 (u32 v), couldBeBitflip (orig ^^^ swap32 (u32 v)) ||
      couldBeArith orig (swap32 (u32 v)) 4 || couldBeInterest orig (swap32 (u32 v)) 4 true⟩]
  else []

/-- The loop that the stages for wider words share: the word is restored at the end. -/
def interest (n : ℕ) (values : List ℤ) (attempts : Word n → ℤ → List (Attempt n)) (s : State) :
    State :=
  (List.range (s.outBuf.length - (n - 1))).foldl (fun s i =>
    let orig := loadAt n s.outBuf i
    if skipEffMap i then
      (values.foldl (fun s v => (attempts orig v).foldl (attempt i) s) s).store n i orig
    else s) s

def interest16 (s : State) : State := interest skipEffMap 2 interesting16 interest16Attempts s

def interest32 (s : State) : State := interest skipEffMap 4 interesting32 interest32Attempts s

end Interest

inductive Stage
  | flip1 | flip2 | flip4 | flip8 | flip16 | flip32
  | arith8 | arith16 | arith32
  | interest8 | interest16 | interest32
  deriving DecidableEq

def Stage.run (skipEffMap : ℕ → Bool) : Stage → State → State
  | flip1 => bitflip1 skipEffMap
  | flip2 => bitflip skipEffMap 2
  | flip4 => bitflip skipEffMap 4
  | flip8 => byteflip skipEffMap 1
  | flip16 => byteflip skipEffMap 2
  | flip32 => byteflip skipEffMap 4
  | arith8 => DeterministicStages.arith8 skipEffMap
  | arith16 => DeterministicStages.arith16 skipEffMap
  | arith32 => DeterministicStages.arith32 skipEffMap
  | interest8 => DeterministicStages.interest8 skipEffMap
  | interest16 => DeterministicStages.interest16 skipEffMap
  | interest32 => DeterministicStages.interest32 skipEffMap

/-- The stages in their order. `noArith` leaves out the arithmetics and the wider
insertions. -/
def stages (noArith : Bool) : List Stage :=
  [.flip1, .flip2, .flip4, .flip8, .flip16, .flip32] ++
  (if noArith then [] else [.arith8, .arith16, .arith32]) ++
  .interest8 :: if noArith then [] else [.interest16, .interest32]

/-- The events of the stages, one stage after the other, each on the buffer that the last
one left. -/
def runStages (skipEffMap : ℕ → Bool) : List Stage → Buffer → List (Stage × Event)
  | [], _ => []
  | st :: sts, buf =>
    let s := st.run skipEffMap ⟨buf, []⟩
    s.events.map (st, ·) ++ runStages skipEffMap sts s.outBuf

def fuzzOneDeterministic (skipEffMap : ℕ → Bool) (noArith : Bool) (buf : Buffer) :
    List (Stage × Event) :=
  runStages skipEffMap (stages noArith) buf

end AflPlusPlus.DeterministicStages
