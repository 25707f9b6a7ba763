import AflPlusPlus.Calibration

/-!
# `save_if_interesting`

The whole routine: the path frequency of the power schedules, the three abstractions that
decide whether an input goes to the sanitizer builds, the scan of the virgin map, the new
queue entry with its calibration, and the handling of timeouts and crashes with the jumps
back to `save_to_queue` and over to `keep_as_crash`.
-/

namespace AflPlusPlus.Fuzzer
open ByteWords CoverageMap FavoredSet VirginMap

def nFuzzSize : ℕ := 2 ^ 21

def keepUniqueHang : ℕ := 512

def keepUniqueCrash : ℕ := 25600

def sanCrashOnly : BitVec 8 := 1#8 <<< 4

def nonCovIncreaseBug : BitVec 8 := 1#8 <<< 5

/-- The schedules for which every input is bucketed and hashed first. -/
def Schedule.hashesInputs (schedule : Schedule) : Bool :=
  Schedule.fast.value ≤ schedule.value && schedule.value ≤ Schedule.rare.value

/-- The local variables that outlive one block of the routine. -/
structure Locals where
  len : ℕ
  fault : Fault
  newBits : ℕ := 0
  keeping : Bool := false
  needHash : Bool := true
  classified : Bool := false
  sanFault : Fault := .ok
  feedSan : Bool := false
  cksum : BitVec 64 := 0

/-- How a call ends: a return value, an abort of the fuzzer, or more jumps back to
`save_to_queue` than were allowed for. -/
inductive Ending
  | returned (keeping : Bool)
  | fatal (message : String)
  | unfinished
  deriving DecidableEq, Repr

namespace AflState

/-- The saturated increment of `n_fuzz`. -/
def noteFrequency (s : AflState) (cksum : BitVec 64) : AflState :=
  let slot := cksum.toNat % nFuzzSize
  if s.nFuzz slot < 0xFFFFFFFF then
    { s with nFuzz := Function.update s.nFuzz slot (s.nFuzz slot + 1) }
  else s

/-- The update of the path frequency. -/
def updateFrequency (e : Environment) (l : Locals) (s : AflState) : Locals × AflState :=
  if Schedule.hashesInputs s.schedule then
    let s := s.classify
    let cksum := s.hash64 e s.traceBits
    ({ l with classified := true, needHash := false, cksum := cksum }, s.noteFrequency cksum)
  else (l, s)

/-- The check against `virgin_bits`, through the routine that fits the `classified` flag. -/
def lookForNewBits (cfg : Config) (l : Locals) (s : AflState) : Locals × AflState :=
  let found := if l.classified then s.scanVirgin else s.scanVirginUnclassified cfg.skimImpl
  ({ l with newBits := found.1, classified := true }, found.2)

/-- The abstraction works on a copy of the trace in the memory of the first sanitizer build. -/
def feedSimplified (e : Environment) (l : Locals) (s : AflState) : Locals × AflState :=
  let cksum := s.hash32 e (simplifyTrace s.geometry s.traceBits)
  if s.simplifiedNFuzz cksum then (l, s)
  else ({ l with feedSan := true },
    { s with simplifiedNFuzz := Function.update s.simplifiedNFuzz cksum true })

def feedCoverageIncrease (cfg : Config) (l : Locals) (s : AflState) : Locals × AflState :=
  let (l, s) := lookForNewBits cfg l s
  (if l.newBits ≠ 0 then { l with feedSan := true } else l, s)

/-- The bitmap is read at the checksum of the schedules, which is zero unless one of them
is in use, and set at the checksum of this trace. -/
def feedUnique (e : Environment) (l : Locals) (s : AflState) : Locals × AflState :=
  let s := if l.classified then s else s.classify
  let l := { l with classified := true }
  let cksumUnique := s.hash32 e s.traceBits
  if s.nFuzzDup (l.cksum.setWidth 32) then (l, s)
  else ({ l with feedSan := true },
    { s with nFuzzDup := Function.update s.nFuzzDup cksumUnique true })

/-- The loop over the sanitizer builds, which ends at the first crash. -/
def runSanitizers (e : Environment) : List ℕ → Locals → AflState → Locals × AflState
  | [], l, s => (l, s)
  | k :: ks, l, s =>
    let l := { l with len := e.writeToTestcase (s.execs + s.sanExecs) l.len false }
    let fault := e.sanTarget s.sanExecs k
    let s := { s with
      sanExecs := s.sanExecs + 1
      sanCaseStatus := if fault ≠ .ok then s.sanCaseStatus ||| sanCrashOnly
        else s.sanCaseStatus }
    if fault = .crash then ({ l with sanFault := .crash }, s)
    else runSanitizers e ks { l with sanFault := .ok } s

/-- Whether the input goes to the sanitizer builds, by the abstraction in use. -/
def decideFeed (cfg : Config) (e : Environment) (l : Locals) (s : AflState) : Locals × AflState :=
  match cfg.sanAbstraction with
  | .simplifyTrace => feedSimplified e l s
  | .coverageIncrease => feedCoverageIncrease cfg l s
  | .uniqueTrace => feedUnique e l s

/-- The sanitizer block, entered when the fault is the expected one. -/
def consultSanitizers (cfg : Config) (e : Environment) (l : Locals) (s : AflState) :
    Locals × AflState :=
  if cfg.sanBinaryLength = 0 then (l, s)
  else
    let (l, s) := decideFeed cfg e l s
    if l.feedSan then runSanitizers e (List.range cfg.sanBinaryLength) l s else (l, s)

/-- `add_to_queue` and the return to exploration when something new is found. -/
def appendEntry (cfg : Config) (len : ℕ) (s : AflState) : AflState :=
  { s with
    toQueueState := s.toQueueState.addToQueue len (s.curDepth + 1)
    fuzzMode := s.fuzzMode && !(cfg.switchFuzzMode && !s.nonInstrumentedMode) }

def noteNewCov (top newBits : ℕ) (s : AflState) : AflState :=
  if newBits = 2 then
    { s.modifyEntry top (fun entry => { entry with hasNewCov := true }) with
      queuedWithCov := s.queuedWithCov + 1 }
  else s

/-- The checksum of the trace, when the schedule did not ask for it before. -/
def noteChecksum (e : Environment) (top : ℕ) (rehash : Bool) (s : AflState) : AflState :=
  if rehash then
    s.modifyEntry top (fun entry => { entry with execCksum := s.hash64 e s.traceBits })
  else s

/-- The frequency counter of the new entry starts again at one. -/
def linkFrequency (top : ℕ) (cksum : BitVec 64) (s : AflState) : AflState :=
  if cksum ≠ 0 then
    { s.modifyEntry top (fun entry => { entry with nFuzzEntry := cksum.toNat % nFuzzSize }) with
      nFuzz := Function.update s.nFuzz (cksum.toNat % nFuzzSize) 1 }
  else s

/-- The new queue entry as it goes into calibration. -/
def enqueue (cfg : Config) (e : Environment) (l : Locals) (s : AflState) : AflState :=
  let top := s.queuedItems
  let s := (s.appendEntry cfg l.len).noteNewCov top l.newBits
  (s.noteChecksum e top (l.needHash && l.newBits != 0)).linkFrequency top l.cksum

/-- The block behind the label `save_to_queue`. The flag tells whether calibration could
execute the target; if not, the fuzzer aborts. -/
def saveToQueue (cfg : Config) (e : Environment) (l : Locals) (s : AflState) :
    Bool × Locals × AflState :=
  let result := (s.enqueue cfg e l).calibrateCase cfg e s.queuedItems (s.queueCycle - 1) false
  (result.1 != .error,
    { l with keeping := true, needHash := l.needHash && l.newBits == 0 }, result.2)

/-- The crash case of the switch, behind the label `keep_as_crash`. -/
def keepAsCrash (l : Locals) (s : AflState) : Ending × AflState :=
  let s := { s with totalCrashes := s.totalCrashes + 1 }
  if s.savedCrashes ≥ keepUniqueCrash then (.returned l.keeping, s)
  else if s.nonInstrumentedMode then
    (.returned l.keeping, { s with savedCrashes := s.savedCrashes + 1 })
  else
    let s := { s with traceBits := simplifyTrace s.geometry s.traceBits }
    let found := hasNewBits s.geometry s.traceBits s.virginCrash
    let s := { s with virginCrash := found.2 }
    if found.1 = 0 then (.returned l.keeping, s)
    else (.returned l.keeping, { s with savedCrashes := s.savedCrashes + 1 })

/-- The switch behind the label `may_save_fault`. A timeout that a more generous run turns
into an ordinary input goes back to `save_to_queue`, and from there to this switch again. -/
def maySaveFault (cfg : Config) (e : Environment) : ℕ → Locals → AflState → Ending × AflState
  | fuel, l, s =>
    match l.fault with
    | .crash => keepAsCrash l s
    | .error => (.fatal "Unable to execute target application", s)
    | .ok | .noinst | .nobits => (.returned l.keeping, s)
    | .tmout =>
      let s := { s with totalTmouts := s.totalTmouts + 1 }
      if s.savedHangs ≥ keepUniqueHang then (.returned l.keeping, s)
      else
        let simplified := simplifyTrace s.geometry s.traceBits
        let found := hasNewBits s.geometry simplified s.virginTmout
        let s := if s.nonInstrumentedMode then s
          else { s with traceBits := simplified, virginTmout := found.2 }
        if !s.nonInstrumentedMode ∧ found.1 = 0 then (.returned l.keeping, s)
        else if cfg.hangTmout ≤ cfg.execTmout then
          (.returned l.keeping, { s with savedHangs := s.savedHangs + 1 })
        else
          let tmpLen := e.writeToTestcase (s.execs + s.sanExecs) l.len false
          let len := if tmpLen ≠ 0 then tmpLen
            else e.writeToTestcase (s.execs + s.sanExecs) l.len true
          let (newFault, s) := s.fuzzRunTarget e cfg.hangTmout
          let s := if l.classified then s else s.classify
          let l := { l with len := len, classified := true }
          if !s.stopSoon ∧ newFault = .crash then keepAsCrash l s
          else if s.stopSoon ∨ newFault ≠ .tmout then
            if cfg.keepTimeouts then
              match fuel with
              | 0 => (.unfinished, s)
              | fuel + 1 =>
                let (ran, l, s) :=
                  saveToQueue cfg e l { s with savedTmouts := s.savedTmouts + 1 }
                if ran then maySaveFault cfg e fuel l s
                else (.fatal "Unable to execute target application", s)
            else (.returned l.keeping, s)
          else (.returned l.keeping, { s with savedHangs := s.savedHangs + 1 })

/-- The block for the expected fault: keep the input only if there are new bits. -/
def keepIfNewBits (cfg : Config) (e : Environment) (fuel : ℕ) (l : Locals) (s : AflState) :
    Ending × AflState :=
  let (l, s) := if cfg.sanAbstraction = .coverageIncrease ∧ l.feedSan then (l, s)
    else lookForNewBits cfg l s
  if l.newBits = 0 then
    if l.sanFault = .ok then
      (.returned false, if cfg.crashMode ≠ .ok then { s with totalCrashes := s.totalCrashes + 1 }
        else s)
    else
      maySaveFault cfg e fuel { l with fault := l.sanFault }
        { s with sanCaseStatus := s.sanCaseStatus ||| nonCovIncreaseBug }
  else
    let (ran, l, s) := saveToQueue cfg e { l with fault := l.sanFault } s
    if ran then maySaveFault cfg e fuel l s
    else (.fatal "Unable to execute target application", s)

/-- `save_if_interesting(afl, mem, len, fault)` on the trace that the run left behind. -/
def saveIfInteresting (cfg : Config) (e : Environment) (fuel len : ℕ) (fault : Fault)
    (s : AflState) : Ending × AflState :=
  if len = 0 then (.returned false, s)
  else if fault = .tmout ∧ cfg.ignoreTimeouts then
    (.returned false,
      if Schedule.hashesInputs s.schedule then
        let s := s.classify
        s.noteFrequency (s.hash64 e s.traceBits)
      else s)
  else
    let (l, s) := updateFrequency e { len := len, fault := fault } { s with sanCaseStatus := 0 }
    if fault = cfg.crashMode then
      let (l, s) := consultSanitizers cfg e l s
      keepIfNewBits cfg e fuel l s
    else maySaveFault cfg e fuel l s

end AflState

end AflPlusPlus.Fuzzer
