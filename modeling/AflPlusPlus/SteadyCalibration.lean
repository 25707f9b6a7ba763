import AflPlusPlus.CalibrationRuns
import AflPlusPlus.SaveIfInterestingSpec

/-!
# Calibration under a steady target

A target whose runs all leave the same trace: the first cycle adopts the trace, the others find its
checksum again, and the calibration goes through.
-/

namespace AflPlusPlus.Fuzzer.AflState
open ByteWords CoverageMap FavoredSet

/-- A target that answers every run with the same bucketed trace, and an entry without a
checksum. -/
structure SteadyRuns (cfg : Config) (e : Environment) (trace : Mem) (q : ℕ) (s : AflState) :
    Prop where
  target_eq : ∀ execs timeout, e.target execs timeout = ⟨.ok, trace, false⟩
  crashMode_eq : cfg.crashMode = .ok
  cmplog_eq : cfg.cmplogMode = false
  bucketed : classifyCounts s.geometry trace = trace
  stopSoon_eq : s.stopSoon = false
  cksum_zero : (s.queueBuf q).execCksum = 0
  count_ne : s.countBytes trace ≠ 0
  hash_ne : s.hash64 e trace ≠ 0

/-- The calibration after `n` cycles. -/
def steady (cfg : Config) (e : Environment) (trace : Mem) (q : ℕ) (s : AflState) (n : ℕ) :
    Calibration :=
  let start := s.startCalibration cfg q
  let found := hasNewBits s.geometry trace s.virginBits
  { start with
    afl := { start.afl.modifyEntry q fun entry => { entry with execCksum := s.hash64 e trace } with
      traceBits := trace
      virginBits := found.2
      firstTrace := trace
      execs := s.execs + n
      stopSoon := false }
    newBits := max 0 found.1 }

section Steady
variable {cfg : Config} {e : Environment} {trace : Mem} {q timeout : ℕ} {s : AflState}

/-- One run of a steady target. -/
theorem SteadyRuns.execute (h : SteadyRuns cfg e trace q s) {c : Calibration}
    (hgeometry : c.afl.geometry = s.geometry) (hstop : c.afl.stopSoon = false) (stageCur : ℕ) :
    c.execute cfg e timeout stageCur = { c with
      afl := { c.afl with traceBits := trace, execs := c.afl.execs + 1, stopSoon := false }
      fault := .ok } := by
  have hcount : ({ c.afl with
      traceBits := trace, execs := c.afl.execs + 1, stopSoon := false } : AflState).countBytes
        trace ≠ 0 := by
    change (List.range ((c.afl.geometry.realMapSize + 3) >>> 2)).foldl _ 0 ≠ 0
    rw [hgeometry]
    exact h.count_ne
  unfold Calibration.execute fuzzRunTarget
  rw [h.target_eq]
  dsimp only
  rw [hstop, h.crashMode_eq, if_neg (by simp)]
  exact if_neg fun hnone => hcount hnone.2.2

theorem classify_of_bucketed {t : AflState}
    (h : classifyCounts t.geometry t.traceBits = t.traceBits) : t.classify = t := by
  rw [classify, h]

theorem SteadyRuns.cycle_first (h : SteadyRuns cfg e trace q s) :
    (s.startCalibration cfg q).cycle cfg e q timeout 0 = steady cfg e trace q s 1 := by
  have hmax : ¬((s.startCalibration cfg q).aborted = true ∨
      (s.startCalibration cfg q).stageMax ≤ 0) := by
    unfold startCalibration
    dsimp only
    split <;> decide
  have hcksum : ((s.startCalibration cfg q).afl.queueBuf q).execCksum = 0 := by
    rw [startCalibration_execCksum, h.cksum_zero, ite_self]
  rw [Calibration.cycle, if_neg hmax, h.execute rfl h.stopSoon_eq]
  set run : AflState := { (s.startCalibration cfg q).afl with
    traceBits := trace
    execs := (s.startCalibration cfg q).afl.execs + 1
    stopSoon := false } with hrun
  have hne : (run.queueBuf q).execCksum ≠ run.hash64 e run.traceBits := fun heq =>
    h.hash_ne (heq.symm.trans hcksum)
  dsimp only
  rw [if_neg (by exact Bool.false_ne_true), classify_of_bucketed h.bucketed, Calibration.compare,
    if_pos hne, if_neg (not_not.mpr hcksum)]
  rfl

/-- The cycles that follow find the same checksum again. -/
theorem SteadyRuns.cycle_next (h : SteadyRuns cfg e trace q s) {n stageCur : ℕ}
    (hmax : stageCur < (s.startCalibration cfg q).stageMax) :
    (steady cfg e trace q s n).cycle cfg e q timeout stageCur =
      steady cfg e trace q s (n + 1) := by
  have hgoes : ¬((steady cfg e trace q s n).aborted = true ∨
      (steady cfg e trace q s n).stageMax ≤ stageCur) := by
    refine not_or.mpr ⟨Bool.false_ne_true, not_le.mpr hmax⟩
  rw [Calibration.cycle, if_neg hgoes, h.execute rfl rfl]
  set run : AflState := { (steady cfg e trace q s n).afl with
    traceBits := trace
    execs := (steady cfg e trace q s n).afl.execs + 1
    stopSoon := false } with hrun
  have hsame : (run.queueBuf q).execCksum = run.hash64 e run.traceBits := by
    change (Function.update (s.startCalibration cfg q).afl.queueBuf q _ q).execCksum = _
    rw [Function.update_self]
    rfl
  dsimp only
  rw [if_neg (by exact Bool.false_ne_true), classify_of_bucketed h.bucketed, Calibration.compare,
    if_neg (not_not.mpr hsame)]
  rfl

theorem SteadyRuns.cycles (h : SteadyRuns cfg e trace q s) :
    (s.startCalibration cfg q).cycles cfg e q timeout =
      steady cfg e trace q s (s.startCalibration cfg q).stageMax := by
  have hrest : ∀ m n, n + m = calCyclesLong → 1 ≤ n →
      (List.range' n m).foldl (Calibration.cycle cfg e q timeout)
        (steady cfg e trace q s (min n (s.startCalibration cfg q).stageMax)) =
      steady cfg e trace q s (min calCyclesLong (s.startCalibration cfg q).stageMax) := by
    intro m
    induction m with
    | zero =>
      rintro n hn -
      rw [← hn]
      rfl
    | succ m ih =>
      intro n hn hpos
      rw [List.range'_succ, List.foldl_cons, ← ih (n + 1) (by omega) (by omega)]
      congr 1
      rcases lt_or_ge n (s.startCalibration cfg q).stageMax with hlt | hge
      · rw [min_eq_left hlt.le, min_eq_left hlt, h.cycle_next hlt]
      · rw [min_eq_right hge, min_eq_right (hge.trans n.le_succ), Calibration.cycle,
          if_pos (.inr hge)]
  have hstage : 1 ≤ (s.startCalibration cfg q).stageMax ∧
      (s.startCalibration cfg q).stageMax ≤ calCyclesLong := by
    unfold startCalibration
    dsimp only
    split <;> decide
  have hrange : List.range calCyclesLong = 0 :: List.range' 1 (calCyclesLong - 1) := rfl
  rw [Calibration.cycles, hrange, List.foldl_cons, h.cycle_first]
  have hall := hrest (calCyclesLong - 1) 1 rfl le_rfl
  rwa [min_eq_left hstage.1, min_eq_right hstage.2] at hall

/-- A steady target calibrates its entry. -/
theorem SteadyRuns.calibrateCase (h : SteadyRuns cfg e trace q s) (handicap : ℕ)
    (fromQueue : Bool) : s.calibrateCase cfg e q handicap fromQueue =
      let c := (steady cfg e trace q s (s.startCalibration cfg q).stageMax).finish cfg e q handicap
        true
      (c.fault, c.conclude q) := by
  have hcksum : ((s.startCalibration cfg q).afl.queueBuf q).execCksum = 0 := by
    rw [startCalibration_execCksum, h.cksum_zero, ite_self]
  have hcalibrated : s.calibrated cfg e q fromQueue =
      steady cfg e trace q s (s.startCalibration cfg q).stageMax := by
    unfold calibrated Calibration.dummyRun
    dsimp only
    rw [h.cmplog_eq, if_neg Bool.false_ne_true]
    have hlook : (s.startCalibration cfg q).firstLook q = s.startCalibration cfg q :=
      if_neg (not_not.mpr hcksum)
    unfold Calibration.unlessAborted
    rw [if_neg (by exact Bool.false_ne_true)]
    dsimp only
    rw [hlook]
    exact h.cycles
  rw [calibrateCase_eq, hcalibrated, h.cksum_zero]
  rfl

end Steady

end AflPlusPlus.Fuzzer.AflState
