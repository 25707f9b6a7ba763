import AflPlusPlus.FavoredSet
import AflPlusPlus.VirginMap

/-!
# Running the target and calibrating an entry

The fuzzer state that `calibrate_case` and `save_if_interesting` work on. The target, the
sanitizer builds and the clock are outside: what they answer at each execution is given by
an `Environment`, indexed by the number of executions made so far.
-/

namespace AflPlusPlus.Fuzzer
open ByteWords CoverageMap FavoredSet VirginMap

/-- `fsrv_run_result_t`. -/
inductive Fault
  | ok | tmout | crash | error | noinst | nobits
  deriving DecidableEq, Repr

/-- `enum sanitizer_abstraction`. -/
inductive SanAbstraction
  | simplifyTrace | uniqueTrace | coverageIncrease
  deriving DecidableEq, Repr

structure RunResult where
  fault : Fault
  traceBits : Mem
  stopSoon : Bool := false

/-- What lies outside the fuzzer: the target and the sanitizer builds (by execution number),
the length that `write_to_testcase` returns after custom post-processing (by execution
number, length and `fix`), the time a calibration took, and the XXH3 hash of a buffer. -/
structure Environment where
  target : ℕ → ℕ → RunResult
  sanTarget : ℕ → ℕ → Fault
  writeToTestcase : ℕ → ℕ → Bool → ℕ
  diffUs : ℕ → ℕ
  xxh3 : List Byte → BitVec 64

/-- Settings that do not change while an input is processed. -/
structure Config where
  skimImpl : SkimImpl := .scalar
  crashMode : Fault := .ok
  sanBinaryLength : ℕ := 0
  sanAbstraction : SanAbstraction := .simplifyTrace
  cmplogMode : Bool := false
  calFast : Bool := false
  ignoreTimeouts : Bool := false
  keepTimeouts : Bool := false
  resumingFuzz : Bool := false
  switchFuzzMode : Bool := false
  execTmout : ℕ := 1000
  hangTmout : ℕ := 1000

structure AflState extends QueueState where
  virginBits : Mem := fun _ => 0xff
  virginTmout : Mem := fun _ => 0xff
  virginCrash : Mem := fun _ => 0xff
  varBytes : Mem := fun _ => 0
  firstTrace : Mem := fun _ => 0
  nFuzzDup : BitVec 32 → Bool := fun _ => false
  simplifiedNFuzz : BitVec 32 → Bool := fun _ => false
  execs : ℕ := 0
  sanExecs : ℕ := 0
  stopSoon : Bool := false
  fuzzMode : Bool := false
  stageCur : ℕ := 0
  queueCycle : ℕ := 1
  curDepth : ℕ := 0
  sanCaseStatus : BitVec 8 := 0
  totalCrashes : ℕ := 0
  totalTmouts : ℕ := 0
  savedCrashes : ℕ := 0
  savedHangs : ℕ := 0
  savedTmouts : ℕ := 0
  queuedWithCov : ℕ := 0
  queuedVariable : ℕ := 0
  varByteCount : ℕ := 0
  totalCalUs : ℕ := 0
  totalCalCycles : ℕ := 0
  totalBitmapSize : ℕ := 0
  totalBitmapEntries : ℕ := 0

namespace AflState

def modifyEntry (s : AflState) (q : ℕ) (f : QueueEntry → QueueEntry) : AflState :=
  { s with toQueueState := s.toQueueState.modifyEntry q f }

/-- `classify_counts(&afl->fsrv)`. -/
def classify (s : AflState) : AflState :=
  { s with traceBits := classifyCounts s.geometry s.traceBits }

/-- `has_new_bits(afl, afl->virgin_bits)`. -/
def scanVirgin (s : AflState) : ℕ × AflState :=
  let found := hasNewBits s.geometry s.traceBits s.virginBits
  (found.1, { s with virginBits := found.2 })

/-- `has_new_bits_unclassified(afl, afl->virgin_bits)`; the vectorized scan always ends. -/
def scanVirginUnclassified (impl : SkimImpl) (s : AflState) : ℕ × AflState :=
  match hasNewBitsUnclassified impl s.geometry s.traceBits s.virginBits with
  | none => (0, s)
  | some (ret, traceBits, virginBits) =>
    (ret, { s with traceBits := traceBits, virginBits := virginBits })

/-- `hash64(mem, map_size, HASH_CONST)`; the seed is not used. -/
def hash64 (s : AflState) (e : Environment) (mem : Mem) : BitVec 64 :=
  e.xxh3 ((List.range s.geometry.mapSize).map mem)

def hash32 (s : AflState) (e : Environment) (mem : Mem) : BitVec 32 :=
  (s.hash64 e mem).setWidth 32

/-- `count_bytes`, by 32-bit words. -/
def countBytes (s : AflState) (mem : Mem) : ℕ :=
  (List.range ((s.geometry.realMapSize + 3) >>> 2)).foldl (fun ret w =>
    ret + (List.range 4).countP (fun j => mem (4 * w + j) != 0)) 0

/-- `fuzz_run_target(afl, &afl->fsrv, timeout)`. -/
def fuzzRunTarget (e : Environment) (timeout : ℕ) (s : AflState) : Fault × AflState :=
  let r := e.target s.execs timeout
  (r.fault, { s with
    traceBits := r.traceBits
    execs := s.execs + 1
    stopSoon := s.stopSoon || r.stopSoon })

/-! ## `calibrate_case` -/

def calCyclesFast : ℕ := 3

def calCycles : ℕ := 7

def calCyclesLong : ℕ := 12

/-- The state with the local variables of `calibrate_case`. -/
structure Calibration where
  afl : AflState
  fault : Fault := .ok
  newBits : ℕ := 0
  varDetected : Bool := false
  stageMax : ℕ
  aborted : Bool := false

/-- A look at the virgin map that raises `new_bits`. -/
def Calibration.scan (c : Calibration) : Calibration :=
  { c with newBits := max c.newBits c.afl.scanVirgin.1, afl := c.afl.scanVirgin.2 }

/-- Execute the input and decide whether calibration goes on. -/
def Calibration.execute (cfg : Config) (e : Environment) (useTmout stageCur : ℕ)
    (c : Calibration) : Calibration :=
  let (fault, s) := c.afl.fuzzRunTarget e useTmout
  if s.stopSoon ∨ fault ≠ cfg.crashMode then { c with afl := s, fault := fault, aborted := true }
  else if !s.nonInstrumentedMode ∧ stageCur = 0 ∧ s.countBytes s.traceBits = 0 then
    { c with afl := s, fault := .noinst, aborted := true }
  else { c with afl := s, fault := fault }

/-- The trace differs from the first one: the bytes that differ are variable. -/
def Calibration.noteVariable (cfg : Config) (c : Calibration) : Calibration :=
  let s := c.afl
  let marked := markVariable s.geometry s.firstTrace s.traceBits (s.varBytes, s.virginBits)
  { c with
    afl := { s with varBytes := marked.1, virginBits := marked.2 }
    varDetected := true
    stageMax := if cfg.calFast then calCycles else calCyclesLong }

/-- The first trace of an entry without a checksum. -/
def Calibration.adoptTrace (q : ℕ) (cksum : BitVec 64) (c : Calibration) : Calibration :=
  let s := c.afl.modifyEntry q (fun entry => { entry with execCksum := cksum })
  { c with afl := { s with firstTrace := s.traceBits } }

/-- The comparison of a bucketed trace with the recorded checksum. -/
def Calibration.compare (cfg : Config) (e : Environment) (q : ℕ) (c : Calibration) :
    Calibration :=
  let cksum := c.afl.hash64 e c.afl.traceBits
  if (c.afl.queueBuf q).execCksum ≠ cksum then
    if (c.afl.queueBuf q).execCksum ≠ 0 then c.scan.noteVariable cfg
    else c.scan.adoptTrace q cksum
  else c

/-- One iteration of the calibration loop. -/
def Calibration.cycle (cfg : Config) (e : Environment) (q useTmout : ℕ) (c : Calibration)
    (stageCur : ℕ) : Calibration :=
  if c.aborted ∨ c.stageMax ≤ stageCur then c
  else
    let c := c.execute cfg e useTmout stageCur
    if c.aborted then c else { c with afl := c.afl.classify }.compare cfg e q

/-- The statistics of a calibration that went through. -/
def Calibration.finish (cfg : Config) (e : Environment) (q handicap : ℕ) (firstRun : Bool)
    (c : Calibration) : Calibration :=
  let s := c.afl
  let diffUs := if s.fixedSeed then (cfg.execTmout - 1) * c.stageMax
    else max (e.diffUs s.execs) 1
  let bitmapSize := s.countBytes s.traceBits
  let s := { s.modifyEntry q (fun entry => { entry with
      execUs := max (diffUs / c.stageMax) 1
      bitmapSize := bitmapSize
      handicap := handicap
      calFailed := 0 }) with
    totalCalUs := s.totalCalUs + diffUs
    totalCalCycles := s.totalCalCycles + c.stageMax
    totalBitmapSize := s.totalBitmapSize + bitmapSize
    totalBitmapEntries := s.totalBitmapEntries + 1 }
  let s := { s with toQueueState := s.toQueueState.updateBitmapScore q true }
  { c with
    afl := s
    fault := if !s.nonInstrumentedMode ∧ firstRun ∧ c.fault = .ok ∧ c.newBits = 0 then .nobits
      else c.fault }

/-- The part behind the label `abort_calibration`. -/
def Calibration.conclude (q : ℕ) (c : Calibration) : AflState :=
  let s := c.afl
  let s := if c.newBits = 2 ∧ !(s.queueBuf q).hasNewCov then
      { s.modifyEntry q (fun entry => { entry with hasNewCov := true }) with
        queuedWithCov := s.queuedWithCov + 1 }
    else s
  if c.varDetected then
    { s with
      varByteCount := s.countBytes s.varBytes
      queuedVariable := if (s.queueBuf q).varBehavior then s.queuedVariable
        else s.queuedVariable + 1 }
  else s

/-- The first look at the virgin map, when the caller has left the trace in place. -/
def Calibration.firstLook (q : ℕ) (c : Calibration) : Calibration :=
  if (c.afl.queueBuf q).execCksum ≠ 0 then
    { c with afl := { c.afl with firstTrace := c.afl.traceBits } }.scan
  else c

/-- The loop runs `stage_max` times, a number that grows once variable behaviour is seen and
never exceeds `CAL_CYCLES_LONG`. -/
def Calibration.cycles (cfg : Config) (e : Environment) (q useTmout : ℕ) (c : Calibration) :
    Calibration :=
  (List.range calCyclesLong).foldl (Calibration.cycle cfg e q useTmout) c

def useTmout (cfg : Config) (fromQueue : Bool) : ℕ :=
  if !fromQueue ∨ cfg.resumingFuzz then max (cfg.execTmout + 50) (cfg.execTmout * 125 / 100)
  else cfg.execTmout

/-- The state in which calibration of `q` begins. -/
def startCalibration (cfg : Config) (q : ℕ) (s : AflState) : Calibration where
  afl := s.modifyEntry q (fun entry => { entry with
    execCksum := if cfg.cmplogMode then 0 else entry.execCksum
    calFailed := entry.calFailed + 1 })
  stageMax := if cfg.calFast then calCyclesFast else calCycles

/-- The dummy run of an LTO target with cmplog. -/
def Calibration.dummyRun (cfg : Config) (e : Environment) (timeout : ℕ) (c : Calibration) :
    Calibration :=
  if cfg.cmplogMode then c.execute cfg e timeout c.afl.stageCur else c

/-- Skip `f` after a jump to `abort_calibration`. -/
def Calibration.unlessAborted (f : Calibration → Calibration) (c : Calibration) : Calibration :=
  if c.aborted then c else f c

def calibrateCase (cfg : Config) (e : Environment) (q handicap : ℕ) (fromQueue : Bool)
    (s : AflState) : Fault × AflState :=
  let firstRun := (s.queueBuf q).execCksum == 0
  let timeout := useTmout cfg fromQueue
  let c := (s.startCalibration cfg q).dummyRun cfg e timeout
  let c := c.unlessAborted (fun c => (c.firstLook q).cycles cfg e q timeout)
  let c := c.unlessAborted (fun c => c.finish cfg e q handicap firstRun)
  (c.fault, c.conclude q)

end AflState

end AflPlusPlus.Fuzzer
