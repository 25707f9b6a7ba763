import AflPlusPlus.Calibration
import AflPlusPlus.FavoredSetInvariants

/-!
# What a calibration changes

Up to the point where an entry is scored, a calibration executes the target and compares traces.
That leaves the state alone except for the maps, the number of executions and two fields of the
entry.
-/

namespace AflPlusPlus.Fuzzer
open ByteWords CoverageMap FavoredSet VirginMap

namespace AflState

/-- The runs of a calibration have taken `s` to `t`. -/
structure Ran (s t : AflState) : Prop where
  state_eq : t = { s with
    traceBits := t.traceBits
    virginBits := t.virginBits
    varBytes := t.varBytes
    firstTrace := t.firstTrace
    execs := t.execs
    stopSoon := t.stopSoon
    queueBuf := t.queueBuf }
  entry_eq : ∀ r, t.queueBuf r = { s.queueBuf r with
    execCksum := (t.queueBuf r).execCksum
    calFailed := (t.queueBuf r).calFailed }

theorem Ran.refl (s : AflState) : Ran s s := ⟨rfl, fun _ => rfl⟩

theorem Ran.trans {s t u : AflState} (h : Ran s t) (h' : Ran t u) : Ran s u := by
  refine ⟨h'.state_eq.trans ?_, fun r => (h'.entry_eq r).trans ?_⟩
  · rw [h.state_eq]
  · rw [h.entry_eq r]

theorem ran_modifyEntry (s : AflState) (q : ℕ) {f : QueueEntry → QueueEntry}
    (hf : ∀ entry, f entry = { entry with
      execCksum := (f entry).execCksum
      calFailed := (f entry).calFailed }) : Ran s (s.modifyEntry q f) := by
  refine ⟨rfl, fun r => ?_⟩
  by_cases hr : r = q
  · have hself : (s.modifyEntry q f).queueBuf r = f (s.queueBuf q) := by
      rw [hr]
      exact QueueState.modifyEntry_self ..
    rw [hself, hr]
    exact hf _
  · have hother : (s.modifyEntry q f).queueBuf r = s.queueBuf r :=
      QueueState.modifyEntry_of_ne _ _ hr
    rw [hother]

section Runs
variable (cfg : Config) (e : Environment) (q timeout stageCur : ℕ) (c : Calibration)

theorem startCalibration_ran (s : AflState) : Ran s (s.startCalibration cfg q).afl :=
  ran_modifyEntry s q fun _ => rfl

theorem Calibration.execute_ran : Ran c.afl (c.execute cfg e timeout stageCur).afl := by
  unfold Calibration.execute
  dsimp only
  split
  · exact ⟨rfl, fun _ => rfl⟩
  · split <;> exact ⟨rfl, fun _ => rfl⟩

theorem Calibration.compare_ran : Ran c.afl (c.compare cfg e q).afl := by
  unfold Calibration.compare
  dsimp only
  split
  · split
    · exact ⟨rfl, fun _ => rfl⟩
    · have hadopt : Ran c.scan.afl (c.scan.afl.modifyEntry q
          (fun entry => { entry with execCksum := c.afl.hash64 e c.afl.traceBits })) :=
        ran_modifyEntry _ q fun _ => rfl
      have hscan : Ran c.afl c.scan.afl := ⟨rfl, fun _ => rfl⟩
      exact (hscan.trans hadopt).trans ⟨rfl, fun _ => rfl⟩
  · exact Ran.refl _

theorem Calibration.cycle_ran : Ran c.afl (c.cycle cfg e q timeout stageCur).afl := by
  have hexec := c.execute_ran cfg e timeout stageCur
  unfold Calibration.cycle
  split
  · exact Ran.refl _
  · dsimp only
    split
    · exact hexec
    · set run := c.execute cfg e timeout stageCur
      have hclassify : Ran run.afl run.afl.classify := ⟨rfl, fun _ => rfl⟩
      exact (hexec.trans hclassify).trans
        (Calibration.compare_ran cfg e q { run with afl := run.afl.classify })

theorem Calibration.cycles_ran : Ran c.afl (c.cycles cfg e q timeout).afl :=
  List.foldlRecOn (motive := fun d : Calibration => Ran c.afl d.afl) _ _ (Ran.refl _)
    fun d hd k _ => hd.trans (d.cycle_ran cfg e q timeout k)

theorem Calibration.firstLook_ran : Ran c.afl (c.firstLook q).afl := by
  unfold Calibration.firstLook
  split <;> exact ⟨rfl, fun _ => rfl⟩

theorem Calibration.dummyRun_ran : Ran c.afl (c.dummyRun cfg e timeout).afl := by
  unfold Calibration.dummyRun
  split
  · exact c.execute_ran cfg e timeout _
  · exact Ran.refl _

/-- The calibration of `q` up to the point where its entry is scored. -/
def calibrated (fromQueue : Bool) (s : AflState) : Calibration :=
  let timeout := useTmout cfg fromQueue
  ((s.startCalibration cfg q).dummyRun cfg e timeout).unlessAborted fun c =>
    (c.firstLook q).cycles cfg e q timeout

theorem calibrated_ran (fromQueue : Bool) (s : AflState) :
    Ran s (s.calibrated cfg e q fromQueue).afl := by
  have hbegun := (startCalibration_ran cfg q s).trans
    (Calibration.dummyRun_ran cfg e (useTmout cfg fromQueue) _)
  unfold calibrated Calibration.unlessAborted
  dsimp only
  split
  · exact hbegun
  · exact hbegun.trans ((Calibration.firstLook_ran q _).trans (Calibration.cycles_ran cfg e q _ _))

end Runs

theorem calibrateCase_eq (cfg : Config) (e : Environment) (q handicap : ℕ) (fromQueue : Bool)
    (s : AflState) : s.calibrateCase cfg e q handicap fromQueue =
      let c := (s.calibrated cfg e q fromQueue).unlessAborted fun c =>
        c.finish cfg e q handicap ((s.queueBuf q).execCksum == 0)
      (c.fault, c.conclude q) := rfl

/-- The entry as a calibration that went through leaves it to be scored. -/
def Calibration.measured (cfg : Config) (e : Environment) (q handicap : ℕ) (c : Calibration) :
    AflState :=
  let diffUs := if c.afl.fixedSeed then (cfg.execTmout - 1) * c.stageMax
    else max (e.diffUs c.afl.execs) 1
  { c.afl.modifyEntry q (fun entry => { entry with
      execUs := max (diffUs / c.stageMax) 1
      bitmapSize := c.afl.countBytes c.afl.traceBits
      handicap := handicap
      calFailed := 0 }) with
    totalCalUs := c.afl.totalCalUs + diffUs
    totalCalCycles := c.afl.totalCalCycles + c.stageMax
    totalBitmapSize := c.afl.totalBitmapSize + c.afl.countBytes c.afl.traceBits
    totalBitmapEntries := c.afl.totalBitmapEntries + 1 }

end AflState

end AflPlusPlus.Fuzzer
