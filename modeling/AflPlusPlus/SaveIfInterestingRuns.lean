import AflPlusPlus.CalibrationRuns
import AflPlusPlus.SaveIfInterestingSpec

/-!
# Sequences of `save_if_interesting` calls

The crash records and the bitmap of the unique-trace abstraction are written by this routine
only. Between two calls the rest of the fuzzer runs inputs and changes the queue and the
schedule, but hands the records on as they are.
-/

namespace AflPlusPlus.Fuzzer
open ByteWords CoverageMap FavoredSet VirginMap

/-- What one call hands on to the next. -/
structure Records where
  geometry : MapGeometry
  nonInstrumentedMode : Bool
  virginCrash : Mem
  savedCrashes : ℕ
  totalCrashes : ℕ
  nFuzzDup : BitVec 32 → Bool
  sanExecs : ℕ

namespace AflState

def records (s : AflState) : Records where
  geometry := s.geometry
  nonInstrumentedMode := s.nonInstrumentedMode
  virginCrash := s.virginCrash
  savedCrashes := s.savedCrashes
  totalCrashes := s.totalCrashes
  nFuzzDup := s.nFuzzDup
  sanExecs := s.sanExecs

/-! ## Calibration and the new entry keep the records -/

section Calibrate
variable (cfg : Config) (e : Environment)

theorem Ran.records {s t : AflState} (h : Ran s t) : t.records = s.records := by
  rw [h.state_eq]
  rfl

theorem updateBitmapScore_nonInstrumentedMode (s : QueueState) (q : ℕ) (haveTrace : Bool) :
    (s.updateBitmapScore q haveTrace).nonInstrumentedMode = s.nonInstrumentedMode := by
  refine QueueState.updateBitmapScore_induct
    (P := fun t => t.nonInstrumentedMode = s.nonInstrumentedMode) s q haveTrace rfl ?_
  intro t ht _ _ _ i _ _ _
  rw [← ht]
  unfold QueueState.contest
  split
  · rfl
  · split <;> rfl

theorem updateBitmapScore_geometry (s : QueueState) (q : ℕ) (haveTrace : Bool) :
    (s.updateBitmapScore q haveTrace).geometry = s.geometry :=
  QueueState.updateBitmapScore_induct (P := fun t => t.geometry = s.geometry) s q haveTrace rfl
    fun _ ht _ _ _ _ _ _ _ => (QueueState.contest_geometry ..).trans ht

theorem Calibration.finish_records (q handicap : ℕ) (firstRun : Bool) (c : Calibration) :
    (c.finish cfg e q handicap firstRun).afl.records = c.afl.records := by
  unfold Calibration.finish records
  dsimp only
  rw [updateBitmapScore_geometry, updateBitmapScore_nonInstrumentedMode]
  rfl

theorem Calibration.conclude_records (q : ℕ) (c : Calibration) :
    (c.conclude q).records = c.afl.records := by
  unfold Calibration.conclude
  dsimp only
  split <;> split <;> rfl

theorem calibrateCase_records (q handicap : ℕ) (fromQueue : Bool) (s : AflState) :
    (s.calibrateCase cfg e q handicap fromQueue).2.records = s.records := by
  have hran := (calibrated_ran cfg e q fromQueue s).records
  rw [calibrateCase_eq]
  refine (Calibration.conclude_records q _).trans ?_
  unfold Calibration.unlessAborted
  split
  · exact hran
  · exact (Calibration.finish_records cfg e q handicap _ _).trans hran

theorem noteNewCov_records (top newBits : ℕ) (s : AflState) :
    (s.noteNewCov top newBits).records = s.records := by
  unfold noteNewCov
  split <;> rfl

theorem noteChecksum_records (top : ℕ) (rehash : Bool) (s : AflState) :
    (s.noteChecksum e top rehash).records = s.records := by
  unfold noteChecksum
  split <;> rfl

theorem linkFrequency_records (top : ℕ) (cksum : BitVec 64) (s : AflState) :
    (s.linkFrequency top cksum).records = s.records := by
  unfold linkFrequency
  split <;> rfl

theorem enqueue_records (l : Locals) (s : AflState) : (s.enqueue cfg e l).records = s.records := by
  unfold enqueue
  dsimp only
  rw [linkFrequency_records, noteChecksum_records, noteNewCov_records]
  rfl

theorem saveToQueue_records (l : Locals) (s : AflState) :
    (saveToQueue cfg e l s).2.2.records = s.records := by
  unfold saveToQueue
  dsimp only
  rw [calibrateCase_records, enqueue_records]

end Calibrate

/-! ## The paths of one call -/

section Paths
variable (cfg : Config) (e : Environment)

theorem noteFrequency_records (cksum : BitVec 64) (s : AflState) :
    (s.noteFrequency cksum).records = s.records := by
  unfold noteFrequency
  dsimp only
  split <;> rfl

theorem updateFrequency_records (l : Locals) (s : AflState) :
    (updateFrequency e l s).2.records = s.records := by
  unfold updateFrequency
  split
  · exact noteFrequency_records ..
  · rfl

theorem lookForNewBits_records (l : Locals) (s : AflState) :
    (lookForNewBits cfg l s).2.records = s.records := by
  unfold lookForNewBits scanVirginUnclassified
  dsimp only
  split
  · rfl
  · split <;> rfl

/-- The switch leaves the records alone, or it ends in `keep_as_crash`. -/
theorem maySaveFault_cases (fuel : ℕ) (l : Locals) (s : AflState) :
    (maySaveFault cfg e fuel l s).2.records = s.records ∨
      ∃ l' t, t.records = s.records ∧ maySaveFault cfg e fuel l s = keepAsCrash l' t := by
  generalize hr : maySaveFault cfg e fuel l s = r
  induction fuel using Nat.strong_induction_on generalizing l s with
  | _ fuel ih =>
    unfold maySaveFault at hr
    cases hl : l.fault with
    | ok => exact .inl (by rw [← hr, hl])
    | noinst => exact .inl (by rw [← hr, hl])
    | nobits => exact .inl (by rw [← hr, hl])
    | error => exact .inl (by rw [← hr, hl])
    | crash => exact .inr ⟨l, s, rfl, by rw [← hr, hl]⟩
    | tmout =>
      rw [hl] at hr
      lift_lets at hr
      extract_lets s₁ simplified found s₂ tmpLen len l₁ at hr
      have hs₁ : s₁.records = s.records := rfl
      have hs₂ : s₂.records = s.records := by
        change (if s₁.nonInstrumentedMode then s₁ else _ : AflState).records = _
        split
        · exact hs₁
        · exact hs₁
      have hrun : (s₂.fuzzRunTarget e cfg.hangTmout).2.records = s.records := hs₂
      dsimp only at hr
      by_cases hfull : s₁.savedHangs ≥ keepUniqueHang
      · rw [if_pos hfull] at hr
        exact .inl (hr ▸ hs₁)
      rw [if_neg hfull] at hr
      by_cases hknown : !s₂.nonInstrumentedMode ∧ found.1 = 0
      · rw [if_pos hknown] at hr
        exact .inl (hr ▸ hs₂)
      rw [if_neg hknown] at hr
      by_cases hgenerous : cfg.hangTmout ≤ cfg.execTmout
      · rw [if_pos hgenerous] at hr
        exact .inl (hr ▸ hs₂)
      rw [if_neg hgenerous] at hr
      generalize hran : s₂.fuzzRunTarget e cfg.hangTmout = ran at hr hrun
      have ht : (if l.classified then ran.2 else ran.2.classify).records = s.records := by
        split <;> exact hrun
      generalize (if l.classified then ran.2 else ran.2.classify) = t at hr ht
      split at hr
      · exact .inr ⟨l₁, t, ht, hr.symm⟩
      split at hr
      · split at hr
        · cases fuel with
          | zero => exact .inl (hr ▸ ht)
          | succ fuel =>
            have hsaved := saveToQueue_records cfg e l₁
              { t with savedTmouts := t.savedTmouts + 1 }
            dsimp only at hr
            split at hr
            · have hrest := ih fuel (Nat.lt_succ_self fuel) _ _ hr
              rw [hsaved] at hrest
              exact ht ▸ hrest
            · exact .inl (hr ▸ hsaved.trans ht)
        · exact .inl (hr ▸ ht)
      · exact .inl (hr ▸ ht)

/-- Both routines that look at `virgin_bits` answer for the bucketed trace. -/
theorem lookForNewBits_newBits {l : Locals} {s : AflState} (traceBits : Mem)
    (htrace : s.traceBits = if l.classified then classifyCounts s.geometry traceBits
      else traceBits) :
    (lookForNewBits cfg l s).1.newBits =
      (hasNewBits s.geometry (classifyCounts s.geometry traceBits) s.virginBits).1 := by
  unfold lookForNewBits
  cases hl : l.classified with
  | true =>
    rw [hl, if_pos rfl] at htrace
    change (hasNewBits s.geometry s.traceBits s.virginBits).1 = _
    rw [htrace]
  | false =>
    rw [hl, if_neg Bool.false_ne_true] at htrace
    obtain ⟨traceBits', virgin', hret⟩ :=
      hasNewBitsUnclassified_ret cfg.skimImpl s.geometry traceBits s.virginBits
    change (s.scanVirginUnclassified cfg.skimImpl).1 = _
    unfold scanVirginUnclassified
    rw [htrace, hret]

/-- The block for the expected fault, when nothing was fed to a sanitizer build: the counter
is raised on the way out without new bits only. -/
theorem keepIfNewBits_records (fuel : ℕ) {l : Locals} (s : AflState) (hl : l.sanFault = .ok)
    (hfeed : l.feedSan = false) :
    (keepIfNewBits cfg e fuel l s).2.records =
      if (lookForNewBits cfg l s).1.newBits = 0 ∧ cfg.crashMode ≠ .ok then
        { s.records with totalCrashes := s.totalCrashes + 1 }
      else s.records := by
  have hrecords := lookForNewBits_records cfg l s
  have hok : (lookForNewBits cfg l s).1.sanFault = .ok := hl
  unfold keepIfNewBits
  rw [hfeed, if_neg (fun h => Bool.false_ne_true h.2)]
  generalize lookForNewBits cfg l s = looked at hrecords hok
  dsimp only
  by_cases hnone : looked.1.newBits = 0
  · rw [if_pos hnone, if_pos hok]
    by_cases hmode : cfg.crashMode = .ok
    · rw [if_neg (not_not.2 hmode), if_neg (fun h => h.2 hmode)]
      exact hrecords
    · rw [if_pos hmode, if_pos ⟨hnone, hmode⟩]
      exact congrArg (fun r : Records => { r with totalCrashes := r.totalCrashes + 1 }) hrecords
  · have hcount : ¬(looked.1.newBits = 0 ∧ cfg.crashMode ≠ .ok) := fun h => hnone h.1
    rw [if_neg hnone, if_neg hcount, ← hrecords]
    have hsaved := saveToQueue_records cfg e { looked.1 with fault := looked.1.sanFault } looked.2
    split
    · rw [maySaveFault_ok fuel (by exact hok)]
      exact hsaved
    · exact hsaved

/-- The first two blocks of a call that finds no sanitizer build to consult. -/
theorem saveIfInteresting_eq {cfg : Config} (hsan : cfg.sanBinaryLength = 0) {fuel len : ℕ}
    {fault : Fault} {s : AflState} (hlen : len ≠ 0)
    (hkeep : ¬(fault = .tmout ∧ cfg.ignoreTimeouts)) :
    s.saveIfInteresting cfg e fuel len fault =
      let start := updateFrequency e { len := len, fault := fault } { s with sanCaseStatus := 0 }
      if fault = cfg.crashMode then keepIfNewBits cfg e fuel start.1 start.2
      else maySaveFault cfg e fuel start.1 start.2 := by
  unfold saveIfInteresting consultSanitizers
  rw [if_neg hlen, if_neg hkeep]
  dsimp only
  rw [if_pos hsan]

/-- What the path frequency leaves of the locals and the trace. -/
theorem updateFrequency_start (len : ℕ) (fault : Fault) (s : AflState) :
    ∃ classified needHash cksum,
      (updateFrequency e { len := len, fault := fault } { s with sanCaseStatus := 0 }).1 =
        { len := len, fault := fault, classified := classified, needHash := needHash,
          cksum := cksum } ∧
      (updateFrequency e { len := len, fault := fault } { s with sanCaseStatus := 0 }).2.virginBits =
        s.virginBits ∧
      (updateFrequency e { len := len, fault := fault } { s with sanCaseStatus := 0 }).2.traceBits =
        if classified then classifyCounts s.geometry s.traceBits else s.traceBits := by
  unfold updateFrequency
  split
  · refine ⟨true, false, _, rfl, ?_, ?_⟩
    · unfold noteFrequency
      dsimp only
      split <;> rfl
    · unfold noteFrequency
      dsimp only
      split <;> rfl
  · exact ⟨false, true, 0, rfl, rfl, rfl⟩

end Paths

/-! ## `keep_as_crash` -/

theorem keepAsCrash_totalCrashes (l : Locals) (s : AflState) :
    (keepAsCrash l s).2.totalCrashes = s.totalCrashes + 1 := by
  unfold keepAsCrash
  dsimp only
  split
  · rfl
  · split
    · rfl
    · split <;> rfl

theorem keepAsCrash_savedCrashes (l : Locals) (s : AflState) :
    s.savedCrashes ≤ (keepAsCrash l s).2.savedCrashes := by
  unfold keepAsCrash
  dsimp only
  split
  · exact le_rfl
  · split
    · exact Nat.le_succ _
    · split
      · exact le_rfl
      · exact Nat.le_succ _

/-- Below the limit and with an instrumented target, the simplified trace stays in the buffer
and its comparison with `virgin_crash` decides. -/
theorem keepAsCrash_spec (l : Locals) (s : AflState) (hinst : s.nonInstrumentedMode = false)
    (hlimit : s.savedCrashes < keepUniqueCrash) :
    (keepAsCrash l s).2.traceBits = simplifyTrace s.geometry s.traceBits ∧
      (keepAsCrash l s).2.records = { s.records with
        totalCrashes := s.totalCrashes + 1
        virginCrash := (hasNewBits s.geometry (simplifyTrace s.geometry s.traceBits)
          s.virginCrash).2
        savedCrashes := if (hasNewBits s.geometry (simplifyTrace s.geometry s.traceBits)
          s.virginCrash).1 = 0 then s.savedCrashes else s.savedCrashes + 1 } := by
  have hmode : ¬s.nonInstrumentedMode = true := by
    rw [hinst]
    exact Bool.false_ne_true
  unfold keepAsCrash
  dsimp only
  rw [if_neg (Nat.not_le.2 hlimit), if_neg hmode]
  split
  · exact ⟨rfl, rfl⟩
  · exact ⟨rfl, rfl⟩

end AflState

/-! ## Sequences of calls -/

/-- A call, with the state it is made in. -/
structure Call where
  fuel : ℕ
  len : ℕ
  fault : Fault
  before : AflState

namespace Call
variable (cfg : Config) (e : Environment)

def after (c : Call) : AflState := (c.before.saveIfInteresting cfg e c.fuel c.len c.fault).2

/-- Every call is made on the records that the call before it has left. -/
def Chained : Records → List Call → Prop
  | _, [] => True
  | r, c :: cs => c.before.records = r ∧ Chained (c.after cfg e).records cs

end Call

end AflPlusPlus.Fuzzer
