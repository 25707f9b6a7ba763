import AflPlusPlus.CheckedPrograms
import AflPlusPlus.MemoryPatches

/-!
# Skipping deterministic fuzzing

Before the deterministic stages, blocks of the input are flipped to find bytes that the target does
not depend on. At the end of the stage the bytes near those that are worth fuzzing may be added to
them. Inputs are shorter than a position of `u32` can tell.
-/

namespace AflPlusPlus.SkipDeterministic
open ByteWords CheckedPrograms MemoryPatches

abbrev Buffer := List Byte

/-- A deterministic target: the checksum of its coverage depends on the input only. Whether
`common_fuzz_stuff` asks to stop may depend on all inputs that were run. -/
structure Target where
  cksum : Buffer → BitVec 64
  stop : List Buffer → Bool

/-- Why the stage does not go on: it returns `0` and leaves a buffer behind, or accesses memory
outside of the input, or never ends. -/
inductive Halt
  | stopped (outBuf : Mem)
  | outside
  | endless

/-- A block that was flipped, the input that was run, and the buffer after it was flipped back. -/
structure Probe where
  pos : ℕ
  size : ℕ
  input : Buffer
  after : Mem

structure State where
  outBuf : Mem
  infEffMap : Mem
  pos : ℕ := 0
  curBlockSize : ℕ := 0
  stageCur : ℕ := 0
  infSkippedBytes : ℕ := 0
  runs : List Buffer := []
  probes : List Probe := []

abbrev M := Program State Halt

def flip (m : Mem) (pos size : ℕ) : Mem := patch m pos size fun k => m (pos + k) ^^^ 0xff

section Inference
variable (target : Target) (len : ℕ)

def commonFuzzStuff (input : Buffer) : M Unit := do
  modify fun s => { s with runs := s.runs ++ [input] }
  let s ← get
  if target.stop s.runs then fail (.stopped s.outBuf) else return ()

/-- `flip_block_size` -/
def flipBlockSize (pos blockSize : ℕ) : ℕ :=
  if blockSize + pos < len then blockSize else len - 1 - pos

end Inference

/-! ## Bytes nearby -/

def bitmapRead (map : Mem) (i : ℕ) : Bool := (map (i / 8)).getLsbD (i % 8)

def bitmapSet (map : Mem) (i : ℕ) : Mem := fun k =>
  if k = i / 8 then map k ||| ((1 : Byte) <<< (i % 8)) else map k

/-- `fill_length` -/
def fillLength (len i : ℕ) : ℕ := if i + 3 < len then 7 else len - i + 2

/-- The sweep from `i` on, for `n` bytes at most: the bytes near those in the map. -/
def sweep (len : ℕ) (skipEffMap : Mem) : ℕ → ℕ → Mem → Mem
  | 0, _, nearby => nearby
  | n + 1, i, nearby =>
    if i < len then
      if bitmapRead skipEffMap i then
        sweep len skipEffMap n (i + 3) (patch nearby (i - 3) (fillLength len i) fun _ => 1)
      else sweep len skipEffMap n (i + 1) nearby
    else nearby

/-- The step for `FUZZ_NEARBY`. -/
def fuzzNearby (len : ℕ) (nonEffBytes skipEffMap : Mem) : Mem :=
  let nearby := sweep len skipEffMap len 3 fun _ => 0
  (List.range len).foldl
    (fun map i => if nearby i ≠ 0 ∧ nonEffBytes i = 0 then bitmapSet map i else map) skipEffMap

end AflPlusPlus.SkipDeterministic
