import AflPlusPlus.ByteBuffers
import AflPlusPlus.LinkedLists
import AflPlusPlus.Overlays
import AflPlusPlus.TextLines

/-!
# Colorization

The first part of the input-to-state stage. Bytes of the input are replaced range by range as long
as the target runs as before. Ranges that change its behaviour are put back and halved. What stays
replaced is merged into taint regions.
-/

namespace AflPlusPlus.Colorization
open ByteWords ByteBuffers LinkedLists Overlays TextLines

/-- `struct range`, without its pointers. -/
structure Range where
  start : ℕ
  stop : ℕ
  ok : ℕ := 0
  deriving DecidableEq

/-- `1 + r->end - r->start` on `u32`. -/
def Range.size (r : Range) : ℕ := (1 + r.stop + (2 ^ 32 - r.start)) % 2 ^ 32

/-- `struct tainted`. A list of regions starts with its head; `prev` leads to the element before,
and is `NULL` at the head. -/
structure Tainted where
  pos : ℕ
  len : ℕ
  deriving DecidableEq

/-- Why there is no result: `common_fuzz_stuff` asks to stop, a pointer leads nowhere, no random
number is left, or a loop goes on for longer than it may. -/
inductive Fault
  | stopped | undefined | exhausted | endless
  deriving DecidableEq

def deref {α : Type} : Option α → Except Fault α
  | none => .error .undefined
  | some a => .ok a

/-- A loop whose pass says how it goes on, for at most `fuel` passes. -/
def repeatPass {σ : Type} (pass : σ → Except Fault (Option σ)) : ℕ → σ → Except Fault σ
  | fuel, s => do
    match ← pass s with
    | none => return s
    | some t =>
      match fuel with
      | 0 => .error .endless
      | fuel + 1 => repeatPass pass fuel t

/-! ## The list of ranges -/

structure Ranges where
  heap : Heap Range
  /-- The address of the next allocation. -/
  top : ℕ
  head : Option ℕ

/-- `add_range` sets no `prev`: the new node keeps what its memory held. -/
def addRange (stale : ℕ → Option ℕ) (s : Ranges) (start stop : ℕ) : Except Fault Ranges := do
  let heap ← deref (pushFront s.heap s.head s.top { start, stop } (stale s.top))
  return { heap, top := s.top + 1, head := some s.top }

/-- The loop of `pop_biggest_range`. -/
def popBiggestFrom (heap : Heap Range) :
    ℕ → Option ℕ → Option ℕ → ℕ → Except Fault (Option ℕ)
  | _, none, rmax, _ => return rmax
  | 0, some _, _, _ => .error .endless
  | fuel + 1, some r, rmax, maxSize => do
    let node ← deref (heap r)
    if node.val.ok = 0 ∧ node.val.size ≥ maxSize then
      popBiggestFrom heap fuel node.next (some r) node.val.size
    else popBiggestFrom heap fuel node.next rmax maxSize

def popBiggestRange (s : Ranges) : Except Fault (Option ℕ) :=
  popBiggestFrom s.heap s.top s.head none 0

/-- `rng` is taken out of the list and freed. -/
def Ranges.remove (s : Ranges) (rng : ℕ) : Except Fault Ranges := do
  let (heap, head) ← deref (unlink s.heap s.head rng)
  return { s with heap, head }

/-! ## Replacing the bytes -/

/-- What a byte is replaced by: one byte, or a random one of `n` from `base` on. -/
inductive Choice
  | fixed (c : Byte)
  | within (base : Byte) (n : ℕ)

/-- Draw until the byte is another one. -/
def drawWithin (base : Byte) (n : ℕ) (b : Byte) : List ℕ → Except Fault (Byte × List ℕ)
  | [] => .error .exhausted
  | d :: draws =>
    let c := base + BitVec.ofNat 8 (d % n)
    if c = b then drawWithin base n b draws else return (c, draws)

/-- The loop for one byte. A fixed byte that does not differ would be taken for ever. -/
def drawOther (choice : Choice) (b : Byte) (draws : List ℕ) : Except Fault (Byte × List ℕ) :=
  match choice with
  | .fixed c => if c = b then .error .endless else return (c, draws)
  | .within base n => drawWithin base n b draws

def replaceWith (choice : Byte → Choice) : Buffer → List ℕ → Except Fault Buffer
  | [], _ => return []
  | b :: buf, draws => do
    let (c, draws) ← drawOther (choice b) b draws
    return c :: (← replaceWith choice buf draws)

/-- `c = rand_below(afl, 256)` -/
def randomChoice (_ : Byte) : Choice := .within 0 256

/-- The bytes from `a` to `z`. -/
def inClass (b : Byte) (a z : Char) : Bool := chr a ≤ b && b ≤ chr z

def classChoice (a z : Char) : Choice := .within (chr a) (z.toNat - a.toNat + 1)

/-- The `switch` of `type_replace`. -/
def typeChoice (b : Byte) : Choice :=
  if inClass b 'A' 'F' then classChoice 'A' 'F'
  else if inClass b 'a' 'f' then classChoice 'a' 'f'
  else if b = chr '0' then .fixed (chr '1')
  else if b = chr '1' then .fixed (chr '0')
  else if inClass b '2' '9' then classChoice '2' '9'
  else if inClass b 'G' 'Z' then classChoice 'G' 'Z'
  else if inClass b 'g' 'z' then classChoice 'g' 'z'
  else if inClass b '!' '*' then classChoice '!' '*'
  else if inClass b ',' '.' then classChoice ',' '.'
  else if inClass b ':' '@' then classChoice ':' '@'
  else if chr '[' ≤ b && b ≤ 0x60 then .within (chr '[') 6
  else if 0x7b ≤ b && b ≤ chr '~' then .within 0x7b 4
  else if b = chr '+' then .fixed (chr '/')
  else if b = chr '/' then .fixed (chr '+')
  else if b = chr ' ' then .fixed (chr '\t')
  else if b = chr '\t' then .fixed (chr ' ')
  else if b = chr '\r' then .fixed (chr '\n')
  else if b = chr '\n' then .fixed (chr '\r')
  else if b = 0 then .fixed 1
  else if b = 1 then .fixed 0
  else if b = 0xff then .fixed 0
  else if b < 32 then .fixed (b ^^^ 0x1f)
  else .fixed (b ^^^ 0x7f)

def randomReplace (buf : Buffer) (draws : List ℕ) : Except Fault Buffer :=
  replaceWith randomChoice buf draws

def typeReplace (buf : Buffer) (draws : List ℕ) : Except Fault Buffer :=
  replaceWith typeChoice buf draws

/-! ## Painting the ranges -/

/-- A deterministic target: the checksum of its trace depends on the input only. Whether
`common_fuzz_stuff` asks to stop and how long it takes is different at each execution. -/
structure Target where
  cksum : Buffer → BitVec 64
  stops : ℕ → Bool
  elapsedUs : ℕ → ℕ

/-- What `colorization` reads of the state of the fuzzer. -/
structure Config where
  execUs : ℕ
  fixedSeed : Bool := false
  cmplogRandomColorization : Bool := false
  colorizeSuccess : ℕ := 0
  cmplogLvl : ℕ := 2
  activeItems : ℕ := 1

/-- What does not change while the ranges are painted. -/
structure Canvas where
  target : Target
  config : Config
  /-- What the memory of a new node holds. -/
  stale : ℕ → Option ℕ
  backup : Buffer
  changed : Buffer
  execCksum : BitVec 64

structure Painting extends Ranges where
  buf : Buffer
  stageCur : ℕ := 0

/-- `get_exec_checksum` at the `n`-th execution. -/
def getExecChecksum (target : Target) (n : ℕ) (buf : Buffer) : Except Fault (BitVec 64) :=
  if target.stops n then .error .stopped else return target.cksum buf

/-- `memcpy(buf + i, src + i, n)` -/
def copyPart (buf src : Buffer) (i n : ℕ) : Buffer := overlay buf i ((src.drop i).take n)

namespace Canvas
variable (c : Canvas)

/-- `stop_us - start_us > 3 * exec_us`, which does not count with a fixed seed. -/
def tooSlow (n : ℕ) : Bool := 3 * c.config.execUs < c.target.elapsedUs n && !c.config.fixedSeed

def stageMax : ℕ := c.backup.length * 2 % 2 ^ 32

/-- The halves of a range go in front of the list, unless it has one byte only. -/
def addHalves (s : Ranges) (r : Range) : Except Fault Ranges :=
  let half := r.size / 2
  if r.size > 1 then do
    let s ← addRange c.stale s r.start ((r.start + (2 ^ 32 - 1) + half) % 2 ^ 32)
    addRange c.stale s ((r.start + half) % 2 ^ 32) r.stop
  else return s

/-- The two halves of a range take its place. -/
def splitRange (s : Ranges) (rng : ℕ) (r : Range) : Except Fault Ranges := do
  let s ← c.addHalves s r
  s.remove rng

/-- The body of the first loop. -/
def paintRange (s : Painting) (rng : ℕ) : Except Fault Painting := do
  let node ← deref (s.heap rng)
  let r := node.val
  let buf := copyPart s.buf c.changed r.start r.size
  let n := s.stageCur + 1
  let cksum ← getExecChecksum c.target n buf
  if cksum ≠ c.execCksum ∨ c.tooSlow n then
    let ranges ← c.splitRange s.toRanges rng r
    return { ranges with
      buf := copyPart buf c.backup r.start r.size
      stageCur := incU32 s.stageCur }
  else
    let heap ← deref (modify s.heap (some rng) fun node =>
      { node with val := { node.val with ok := 1 } })
    return { s with heap, buf, stageCur := incU32 s.stageCur }

def paintPass (s : Painting) : Except Fault (Option Painting) := do
  match ← popBiggestRange s.toRanges with
  | none => return none
  | some rng => if s.stageCur < c.stageMax then return some (← c.paintRange s rng) else return none

end Canvas

/-! ## Merging the ranges -/

structure Merging where
  heap : Heap Range
  /-- `taint`, the head first. -/
  taint : List Tainted := []
  positions : ℕ := 0

/-- `taint && taint->pos + taint->len == rng->start` -/
def continuesTaint (taint : List Tainted) (r : Range) : Bool :=
  match taint with
  | [] => false
  | t :: _ => (t.pos + t.len) % 2 ^ 32 = r.start

/-- What the scan of the ranges finds: one that continues the taint, or the first of those that
are not merged. -/
inductive Found
  | continues (rng : ℕ)
  | first (r : Option ℕ)

def scan (heap : Heap Range) (taint : List Tainted) :
    ℕ → Option ℕ → Option ℕ → ℕ → Except Fault Found
  | _, none, r, _ => return .first r
  | 0, some _, _, _ => .error .endless
  | fuel + 1, some rng, r, pos => do
    let node ← deref (heap rng)
    if node.val.ok = 1 ∧ node.val.start < pos then
      if continuesTaint taint node.val then return .continues rng
      else scan heap taint fuel node.next (some rng) node.val.start
    else scan heap taint fuel node.next r pos

/-- A range that is part of the taint now. -/
def Merging.take (m : Merging) (rng : ℕ) (extend : Range → List Tainted → List Tainted) :
    Except Fault Merging := do
  let node ← deref (m.heap rng)
  let heap ← deref (modify m.heap (some rng) fun node =>
    { node with val := { node.val with ok := 2 } })
  return { heap, taint := extend node.val m.taint,
           positions := (m.positions + node.val.size) % 2 ^ 32 }

/-- A pass of the second loop, from `restart` on. -/
def mergePass (top : ℕ) (head : Option ℕ) (m : Merging) : Except Fault (Option Merging) := do
  match ← scan m.heap m.taint top head none (2 ^ 32 - 1) with
  | .continues rng =>
    return some (← m.take rng fun r taint =>
      taint.modifyHead fun t => { t with len := (t.len + r.size) % 2 ^ 32 })
  | .first none => return none
  | .first (some rng) => return some (← m.take rng fun r taint => ⟨r.start, r.size⟩ :: taint)

/-! ## The function -/

/-- `CMPLOG_POSITIONS_MAX` and `CMPLOG_CORPUS_PERCENT` of the configuration. -/
def cmplogPositionsMax : ℕ := 12 * 1024
def cmplogCorpusPercent : ℕ := 5

/-- Too much of the input is tainted to be of use. -/
def unsatisfactory (config : Config) (len positions : ℕ) : Bool :=
  config.colorizeSuccess ≠ 0 && config.cmplogLvl < 3 && (positions > cmplogPositionsMax &&
    len / positions == 1 && config.activeItems / config.colorizeSuccess > cmplogCorpusPercent)

/-- The buffer and the regions when the function has returned `0`. No region stands for `NULL`. -/
structure Result where
  buf : Buffer
  taints : List Tainted
  deriving DecidableEq

/-- The list with the range of the whole input. -/
def initialRanges (stale : ℕ → Option ℕ) (len : ℕ) : Except Fault Ranges :=
  addRange stale ⟨fun _ => none, 0, none⟩ 0 (len - 1)

/-- `changed`, in which each byte is another one. -/
def replacedCopy (config : Config) (buf : Buffer) (draws : List ℕ) : Except Fault Buffer :=
  if config.cmplogRandomColorization then randomReplace buf draws else typeReplace buf draws

/-- The part before the first loop. -/
def startPainting (target : Target) (config : Config) (stale : ℕ → Option ℕ) (draws : List ℕ)
    (buf : Buffer) : Except Fault (Canvas × Painting) := do
  let ranges ← initialRanges stale buf.length
  let execCksum ← getExecChecksum target 0 buf
  let changed ← replacedCopy config buf draws
  return ({ target, config, stale, backup := buf, changed, execCksum }, { ranges with buf })

def colorization (target : Target) (config : Config) (stale : ℕ → Option ℕ) (draws : List ℕ)
    (buf : Buffer) : Except Fault Result := do
  let (canvas, painting) ← startPainting target config stale draws buf
  let painting ← repeatPass canvas.paintPass canvas.stageMax painting
  let merging ← repeatPass (mergePass painting.top painting.head) painting.top
    { heap := painting.heap }
  let taints := if unsatisfactory config buf.length merging.positions then [] else merging.taint
  return { buf := painting.buf, taints }

end AflPlusPlus.Colorization
