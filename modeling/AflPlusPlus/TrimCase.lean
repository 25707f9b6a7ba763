import AflPlusPlus.Calibration
import AflPlusPlus.ListBlocks
import AflPlusPlus.TransitionSystems

/-!
# Trimming a queue entry

The loops of `trim_case` of `afl-fuzz-run.c`: chunks of the input are left out one after the
other, and a chunk stays deleted when the trace without it has the checksum of the entry. The
two loops are one transition system; a step is an iteration of the inner loop, of which the
result of the execution is the label, or the way to the next chunk size.
-/

namespace AflPlusPlus.Trimming
open ByteWords CoverageMap ListBlocks TransitionSystems
open Fuzzer (Fault)

/-- A custom mutator: whether it trims by itself, and what its `afl_custom_post_process` makes of
a buffer, where the empty buffer stands for its failures. -/
structure CustomMutator where
  customTrim : Bool
  customPostProcess : Option (List Byte → List Byte)

/-- What does not change while an entry is trimmed: the target with its coverage map, the XXH3
hash, the custom mutators and the settings. `behind` is what memory holds behind the end of a
buffer. -/
structure Afl where
  geometry : MapGeometry
  target : List Byte → Mem
  xxh3 : List Byte → BitVec 64
  customMutators : List CustomMutator
  postProcessKeepOriginal : Bool
  minLength : ℕ
  maxLength : ℕ
  noUnlink : Bool
  behind : ℕ → Byte

namespace Afl

/-- `hash64(trace_bits, map_size, HASH_CONST)`. -/
def hash64 (afl : Afl) (traceBits : Mem) : BitVec 64 :=
  afl.xxh3 ((List.range afl.geometry.mapSize).map traceBits)

/-- The loop over the custom mutators that calls their post-processing. -/
def postProcess (afl : Afl) (mem : List Byte) : List Byte :=
  afl.customMutators.foldl (fun mem el => el.customPostProcess.elim mem (· mem)) mem

/-- `write_with_gap`: the buffer without `skipLen` bytes, as the target gets it. -/
def writeWithGap (afl : Afl) (mem : List Byte) (len skipAt skipLen : ℕ) : List Byte :=
  let tailLen := len - skipAt - skipLen
  afl.postProcess (mem.take skipAt ++ (mem.drop (skipAt + skipLen)).take tailLen)

/-- The classified trace of an input, as the target gets it. -/
def classifiedTrace (afl : Afl) (input : List Byte) : Mem :=
  classifyCounts afl.geometry (afl.target (afl.postProcess input))

/-- The checksum of the classified trace of an input. -/
def cksum (afl : Afl) (input : List Byte) : BitVec 64 := afl.hash64 (afl.classifiedTrace input)

end Afl

def trimStartSteps : ℕ := 16

def trimEndSteps : ℕ := 1024

def trimMinBytes : ℕ := 4

/-- `next_pow2` of a length, stored in a `u32`. -/
def nextPow2U32 (len : ℕ) : ℕ := (NextPow2.nextPow2 (BitVec.ofNat 64 len)).toNat % 2 ^ 32

inductive LoopStatus
  | running
  | finished
  | aborted
  deriving DecidableEq

/-- The variables of the loops; `len` is `q->len`. -/
structure LoopState where
  inBuf : List Byte
  len : ℕ
  lenP2 : ℕ
  removeLen : ℕ
  removePos : ℕ
  needsWrite : Bool
  cleanTrace : Mem
  fault : Fault
  status : LoopStatus

/-- What an iteration of the inner loop learns of its execution besides the trace, or the test
that ends the inner loop. -/
inductive LoopAction
  | execute (stopSoon : Bool) (fault : Fault)
  | nextRound

namespace LoopState

/-- The bytes that make up the test case. -/
def content (s : LoopState) : List Byte := s.inBuf.take s.len

/-- The test of the outer loop for a chunk size. -/
def enterRound (s : LoopState) (removeLen : ℕ) : LoopState :=
  if max (s.lenP2 / trimEndSteps) trimMinBytes ≤ removeLen then
    { s with removeLen := removeLen, removePos := removeLen }
  else { s with removeLen := removeLen, status := .finished }

def start (inBuf : List Byte) (len : ℕ) : LoopState :=
  let s : LoopState :=
    { inBuf := inBuf, len := len, lenP2 := nextPow2U32 len, removeLen := 0, removePos := 0,
      needsWrite := false, cleanTrace := fun _ => 0, fault := .ok, status := .running }
  if len < 5 then { s with status := .finished }
  else s.enterRound (max (s.lenP2 / trimStartSteps) trimMinBytes)

def trimAvail (s : LoopState) : ℕ := min s.removeLen (s.len - s.removePos)

def accept (s : LoopState) (traceBits : Mem) : LoopState :=
  let moveTail := s.len - s.removePos - s.trimAvail
  let len := s.len - s.trimAvail
  { s with
    len := len
    lenP2 := nextPow2U32 len
    inBuf := memmove s.removePos (s.removePos + s.trimAvail) moveTail s.inBuf
    needsWrite := true
    cleanTrace := if s.needsWrite then s.cleanTrace else traceBits }

def reject (s : LoopState) : LoopState := { s with removePos := s.removePos + s.removeLen }

/-- The inner loop once. -/
def tryChunk (afl : Afl) (execCksum : BitVec 64) (s : LoopState) (stopSoon : Bool)
    (fault : Fault) : LoopState :=
  let input := afl.writeWithGap s.inBuf s.len s.removePos s.trimAvail
  let s := { s with fault := fault }
  if stopSoon ∨ fault = .error then { s with status := .aborted }
  else
    let traceBits := classifyCounts afl.geometry (afl.target input)
    if afl.hash64 traceBits = execCksum then s.accept traceBits else s.reject

/-- The loops of `trim_case`. -/
def step (afl : Afl) (execCksum : BitVec 64) (s : LoopState) : LoopAction → Option LoopState
  | .execute stopSoon fault =>
    if s.status = .running ∧ s.removePos < s.len then some (s.tryChunk afl execCksum stopSoon fault)
    else none
  | .nextRound =>
    if s.status = .running ∧ ¬s.removePos < s.len then some (s.enterRound (s.removeLen / 2))
    else none

end LoopState

end AflPlusPlus.Trimming
