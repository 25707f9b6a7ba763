import AflPlusPlus.SaveIfInteresting

/-!
# The dry run of the seeds

`add_to_queue` and `perform_dry_run` of `afl-fuzz-init.c`, with the counters of the queue. The dry
run calibrates every seed, takes those that crash or time out out of the queue, and then all but
one of the seeds that have the same trace.
-/

namespace AflPlusPlus.DryRun
open ByteWords CoverageMap FavoredSet Fuzzer

/-- The settings that the dry run reads. The crash mode is that of `-C` or none. -/
structure Options where
  config : Config := {}
  timeoutGiven : Bool := false
  inPlaceResume : Bool := false
  exitOnSeedIssues : Bool := false
  ignoreSeedProblems : Bool := false
  crashingSeedsAsNewCrash : Bool := false
  crashMode_mem : config.crashMode = .ok ∨ config.crashMode = .crash := by exact .inl rfl

/-- How a dry run ends that does not return. -/
inductive Stop
  | fatal (message : String)
  | endless
  deriving DecidableEq, Repr

/-- The fuzzer while it loads its seeds. The list `seedResults` is not in the source: it records
what the dry run has found out about each seed. -/
structure Startup extends AflState where
  activeItems : BitVec 32 := 0
  pendingNotFuzzed : BitVec 32 := 0
  maxDepth : ℕ := 0
  uselessAtStart : ℕ := 0
  calFailures : ℕ := 0
  queue : Option ℕ := none
  queueTop : Option ℕ := none
  seedResults : List (ℕ × Fault) := []

namespace Startup

def modifyEntry (s : Startup) (q : ℕ) (f : QueueEntry → QueueEntry) : Startup :=
  { s with toAflState := s.toAflState.modifyEntry q f }

def addToQueue (len : ℕ) (s : Startup) : Startup :=
  let q := s.queuedItems
  let depth := s.curDepth + 1
  { s with
    toQueueState := s.toQueueState.addToQueue len depth
    maxDepth := if depth > s.maxDepth then depth else s.maxDepth
    queue := if s.queueTop.isSome then s.queue else some q
    queueTop := some q
    activeItems := s.activeItems + 1
    pendingNotFuzzed := s.pendingNotFuzzed + 1 }

/-- The block that takes an entry out of the counters unless it was taken out before. -/
def retire (q : ℕ) (s : Startup) : Startup :=
  if (s.queueBuf q).wasFuzzed then s
  else { s.modifyEntry q (fun entry => { entry with wasFuzzed := true }) with
    reinitTable := true
    pendingNotFuzzed := s.pendingNotFuzzed - 1
    activeItems := s.activeItems - 1 }

def disable (q : ℕ) (s : Startup) : Startup :=
  s.modifyEntry q fun entry => { entry with disabled := true }

/-- The largest depth of an enabled entry. -/
def enabledDepth (s : Startup) : ℕ :=
  (List.range s.queuedItems).foldl (fun maxDepth i =>
    if !(s.queueBuf i).disabled ∧ (s.queueBuf i).depth > maxDepth then (s.queueBuf i).depth
    else maxDepth) 0

/-- Look for the first enabled entry. -/
def rewindQueue (s : Startup) : Startup :=
  { s with
    queue := some (((List.range s.queuedItems).find? fun i => !(s.queueBuf i).disabled).getD 0)
    maxDepth := s.enabledDepth }

def calChances : ℕ := 3

def timeoutSeed (o : Options) (q : ℕ) (s : Startup) : Except Stop Startup :=
  if o.timeoutGiven && !o.exitOnSeedIssues then
    let s := { s with calFailures := s.calFailures + 1 }
    let s := s.modifyEntry q fun entry => { entry with calFailed := calChances, disabled := true }
    .ok (s.retire q)
  else if !o.ignoreSeedProblems then .error (.fatal "Test case '%s' results in a timeout")
  else .ok ((s.retire q).disable q)

/-- `has_new_bits(afl, afl->virgin_crash)` on the simplified trace. -/
def scanCrash (s : Startup) : ℕ × Startup :=
  let s := { s with toAflState := s.toAflState.classify }
  let s := { s with traceBits := simplifyTrace s.geometry s.traceBits }
  let found := hasNewBits s.geometry s.traceBits s.virginCrash
  (found.1, { s with virginCrash := found.2 })

/-- A crash that shows nothing new leaves the switch before the seed is disabled. -/
def crashSeed (o : Options) (q : ℕ) (s : Startup) : Except Stop Startup :=
  if o.config.crashMode ≠ .ok then .ok s
  else if o.exitOnSeedIssues then
    .error (.fatal "As AFL_EXIT_ON_SEED_ISSUES is set, afl-fuzz exits.")
  else
    let s := s.retire q
    if o.crashingSeedsAsNewCrash then
      let s := { s with totalCrashes := s.totalCrashes + 1 }
      if s.nonInstrumentedMode then
        .ok (disable q { s with savedCrashes := s.savedCrashes + 1 })
      else
        let (newBits, s) := s.scanCrash
        if newBits = 0 then .ok s
        else .ok (disable q { s with savedCrashes := s.savedCrashes + 1 })
    else .ok (s.rewindQueue.disable q)

/-- The switch over the result of a seed. -/
def judge (o : Options) (q : ℕ) (res : Fault) (s : Startup) : Except Stop Startup :=
  match res with
  | .ok =>
    if o.config.crashMode ≠ .ok then .error (.fatal "Test case '%s' does *NOT* crash") else .ok s
  | .tmout => s.timeoutSeed o q
  | .crash => s.crashSeed o q
  | .error => .error (.fatal "Unable to execute target application ('%s')")
  | .noinst => .error (.fatal "No instrumentation detected")
  | .nobits => .ok { s with uselessAtStart := s.uselessAtStart + 1 }

/-- Calibrate a seed. For the AFLFast schedules its slot of `n_fuzz` is set. -/
def calibrateSeed (o : Options) (e : Environment) (q : ℕ) (s : Startup) : Fault × Startup :=
  let (res, afl) := s.toAflState.calibrateCase o.config e q 0 true
  let s := { s with toAflState := afl }
  let cksum := (s.queueBuf q).execCksum
  if Schedule.fast.value ≤ s.schedule.value ∧ s.schedule.value ≤ Schedule.rare.value ∧
      cksum ≠ 0 then
    (res, s.modifyEntry q fun entry => { entry with nFuzzEntry := cksum.toNat % nFuzzSize })
  else (res, s)

/-- One seed. When the user has stopped the fuzzer its result is not looked at. -/
def drySeed (o : Options) (e : Environment) (q : ℕ) (s : Startup) : Except Stop Startup :=
  let (res, s) := s.calibrateSeed o e q
  if s.stopSoon then .ok s
  else judge o q res { s with seedResults := s.seedResults ++ [(q, res)] }

/-- The loop over the seeds. A skipped entry does not advance the loop in queue order; in place
resume goes backwards and advances, but is not done when it has skipped entry 0. -/
def seedLoop (o : Options) (e : Environment) : List ℕ → Startup → Except Stop Startup
  | [], s => .ok s
  | q :: qs, s =>
    if (s.queueBuf q).disabled ∨ (s.queueBuf q).len = 0 then
      if o.inPlaceResume && !qs.isEmpty then seedLoop o e qs s else .error .endless
    else
      match s.drySeed o e q with
      | .error stop => .error stop
      | .ok s => if s.stopSoon then .ok s else seedLoop o e qs s

/-- The entries that the search for duplicates looks at. -/
def comparable (entry : QueueEntry) : Bool :=
  !entry.disabled && entry.calFailed == 0 && entry.execCksum != 0

/-- Compare entry `q` with the ones that follow it. The shorter file is kept; when that is the
other one, the loop ends. -/
def duplicatesOf (q : ℕ) : List ℕ → Bool × Startup → Bool × Startup
  | [], t => t
  | p :: ps, (duplicates, s) =>
    if comparable (s.queueBuf p) ∧ (s.queueBuf p).execCksum = (s.queueBuf q).execCksum then
      if (s.queueBuf p).len ≥ (s.queueBuf q).len then
        duplicatesOf q ps (true, (s.retire p).disable p)
      else (true, (s.retire q).disable q)
    else duplicatesOf q ps (duplicates, s)

/-- The loops over all pairs of entries. -/
def duplicateLoops (s : Startup) : Bool × Startup :=
  (List.range (s.queuedItems - 1)).foldl (fun t q =>
    if comparable (t.2.queueBuf q) then
      duplicatesOf q (List.range' (q + 1) (s.queuedItems - (q + 1))) t
    else t) (false, s)

def removeDuplicates (s : Startup) : Startup :=
  let (duplicates, s) := s.duplicateLoops
  if duplicates then { s with maxDepth := s.enabledDepth, queueTop := s.queue } else s

def performDryRun (o : Options) (e : Environment) (s : Startup) : Except Stop Startup :=
  if s.queuedItems = 0 then .error .endless
  else
    let seeds := List.range s.queuedItems
    match seedLoop o e (if o.inPlaceResume then seeds.reverse else seeds)
      { s with calFailures := 0 } with
    | .error stop => .error stop
    | .ok s =>
      if s.stopSoon then .ok s
      else if s.calFailures ≠ 0 ∧ s.calFailures = s.queuedItems then
        .error (.fatal "All test cases time out or crash, giving up!")
      else .ok s.removeDuplicates

/-- `cull_queue(afl)`. -/
def cullQueue (s : Startup) : Startup :=
  { s with toQueueState := s.toQueueState.cullQueue }

end Startup

end AflPlusPlus.DryRun
