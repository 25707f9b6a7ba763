import AflPlusPlus.CheckedPrograms
import AflPlusPlus.MemoryPatches

/-!
# Input-to-state replacement

The second part of the input-to-state stage writes values into the input and runs the target on
it. A call changes the buffer, the copy that collects what was found, and the status; the answers
of the target may depend on everything that was run before. The model is that of a 64-bit build
for a little-endian machine.
-/

namespace AflPlusPlus.Redqueen
open ByteWords CheckedPrograms MemoryPatches

abbrev Buffer := List Byte

/-- Why a call does not return `0`: `common_fuzz_stuff` asks to stop. Calls that are nested more
deeply than is allowed have no result. -/
inductive Halt
  | stopped | depth
  deriving DecidableEq

/-- What `common_fuzz_stuff` says of a run, and whether something new is counted. -/
inductive Outcome
  | stop | find | nothing
  deriving DecidableEq

/-- The floating-point operations that are used, on the bits of their operands. -/
structure Floats where
  floatAdd1 : BitVec 32 → BitVec 32
  floatSub1 : BitVec 32 → BitVec 32
  doubleAdd1 : BitVec 64 → BitVec 64
  doubleSub1 : BitVec 64 → BitVec 64
  doubleToFloat : BitVec 64 → BitVec 32

/-- What a call does not change. -/
structure Fuzzer where
  len : ℕ
  origBuf : Mem
  lvl : BitVec 8
  cmplogEnableTransform : Bool := false
  cmplogEnableXtremeTransform : Bool := false
  cmplogEnableScale : Bool := false
  cmplogEnableArith : Bool := false
  /-- `CMPLOG_COMBINE` is defined. -/
  combine : Bool := false
  /-- The answer to the last of the runs so far. -/
  outcome : List Buffer → Outcome
  /-- Whether `errno` is `ERANGE` after the last of them. -/
  erange : List Buffer → Bool := fun _ => false
  /-- What the memory of `out_scratch_buf` holds then. -/
  scratch : List Buffer → Mem := fun _ _ => 0
  floats : Floats
  /-- A `u128` shifted to the right by a count that C leaves undefined. -/
  wideShift : BitVec 128 → ℕ → BitVec 128 := fun x _ => x

structure State where
  buf : Mem
  cbuf : Mem
  status : ℕ := 0
  hshape : ℕ
  /-- `errno` is `ERANGE`. -/
  erange : Bool := false
  /-- The inputs that were run, the last one at the end. -/
  runs : List Buffer := []

abbrev M := Program State Halt

/-- A position of the buffer, and how far the region around it reaches. -/
structure Place (len : ℕ) where
  idx : ℕ
  taintLen : ℕ
  idx_lt : idx < len

/-- `MIN(len - idx, taint_len)` -/
def Place.itsLen {len : ℕ} (p : Place len) : ℕ := min (len - p.idx) p.taintLen

def LVL1 : BitVec 8 := 1
def LVL3 : BitVec 8 := 4

def Fuzzer.isLvl3 (f : Fuzzer) : Bool := f.lvl &&& LVL3 ≠ 0

/-! ## Trying an input -/

def itsFuzz (f : Fuzzer) (input : Buffer) : M Unit := do
  let s ← get
  let runs := s.runs ++ [input]
  match f.outcome runs with
  | .stop => fail .stopped
  | .find => set { s with runs, erange := f.erange runs, status := 1 }
  | .nothing => set { s with runs, erange := f.erange runs, status := 2 }

def onlyIf (c : Prop) [Decidable c] (p : M Unit) : M Unit := if c then p else return ()

/-- `if (*status != 1)` -/
def unlessFound (p : M Unit) : M Unit := do
  onlyIf ((← get).status ≠ 1) p

/-- Bytes are written, and the target is run on the buffer. -/
def writeAndRun (f : Fuzzer) (idx n : ℕ) (src : Mem) : M Unit := do
  modify fun s => { s with buf := patch s.buf idx n src }
  itsFuzz f (bytes f.len (← get).buf)

/-- What was found goes to `cbuf` too. -/
def combineFound (f : Fuzzer) (idx n : ℕ) (src : Mem) : M Unit :=
  modify fun s => if f.combine ∧ s.status = 1 then { s with cbuf := patch s.cbuf idx n src } else s

/-- Bytes are written for one run. -/
def tryBytes (f : Fuzzer) (idx n : ℕ) (src : Mem) : M Unit := do
  let saved := window (← get).buf idx
  writeAndRun f idx n src
  combineFound f idx n src
  modify fun s => { s with buf := patch s.buf idx n saved }

/-- A fuzzer whose runs find nothing. -/
def silent (len : ℕ) (lvl : BitVec 8) : Fuzzer where
  len := len
  lvl := lvl
  origBuf _ := 0
  outcome _ := .nothing
  floats := ⟨id, id, id, id, fun x => x.setWidth 32⟩

/-! ## What the programs keep -/

section Keeps
variable {f : Fuzzer} {α β : Type} {p : M α} {s : State} {Q : Unit → State → Prop}
  {allowed : Halt → Prop}

/-- The status that some run leaves. -/
def Fuzzer.Leaves (f : Fuzzer) (status : ℕ) : Prop :=
  status = 2 ∨ status = 1 ∧ ∃ runs, f.outcome runs = .find

/-- The program halts only when the fuzzer stops, and leaves the buffer and the shape as they
were. -/
def Keeps (p : M α) : Prop :=
  ∀ s, wp (· = Halt.stopped) p (fun _ t => t.buf = s.buf ∧ t.hshape = s.hshape) s

end Keeps

end AflPlusPlus.Redqueen
