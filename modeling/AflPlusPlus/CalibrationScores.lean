import AflPlusPlus.CalibrationRuns
import AflPlusPlus.FavoredCover

/-!
# Calibration and the winners

A calibration that goes through scores its entry, once and with a trace of this entry. One that
is aborted leaves the winners and their mini-traces alone.
-/

namespace AflPlusPlus.FavoredSet
open ByteWords CoverageMap

/-- What the winners of the indices and their mini-traces consist of. -/
structure Scores where
  geometry : MapGeometry
  queuedItems : ℕ
  topRated : ℕ → Option ℕ
  candidates : ℕ → List ℕ
  underflow : Bool
  scoreChanged : Bool
  tcRef : ℕ → ℕ
  traceMini : ℕ → Option Mem

namespace QueueState

def scores (s : QueueState) : Scores where
  geometry := s.geometry
  queuedItems := s.queuedItems
  topRated := s.topRated
  candidates := s.topRatedCandidates
  underflow := s.tcRefUnderflow
  scoreChanged := s.scoreChanged
  tcRef q := (s.queueBuf q).tcRef
  traceMini q := (s.queueBuf q).traceMini

theorem keeps_of_scores {s t : QueueState} (h : t.scores = s.scores) : s.Keeps t where
  geometry_eq := congrArg Scores.geometry h
  topRated_eq := congrArg Scores.topRated h
  candidates_eq := congrArg Scores.candidates h
  queuedItems_eq := congrArg Scores.queuedItems h
  underflow_eq := congrArg Scores.underflow h
  tcRef_eq := congrFun (congrArg Scores.tcRef h)
  mini_of q _ hm := (congrFun (congrArg Scores.traceMini h) q).symm.trans hm

theorem modifyEntry_scores (s : QueueState) (q : ℕ) {f : QueueEntry → QueueEntry}
    (href : ∀ entry, (f entry).tcRef = entry.tcRef)
    (hmini : ∀ entry, (f entry).traceMini = entry.traceMini) :
    (s.modifyEntry q f).scores = s.scores := by
  have hentry : ∀ r, ((s.modifyEntry q f).queueBuf r).tcRef = (s.queueBuf r).tcRef ∧
      ((s.modifyEntry q f).queueBuf r).traceMini = (s.queueBuf r).traceMini := by
    intro r
    by_cases hr : r = q
    · rw [hr, modifyEntry_self]
      exact ⟨href _, hmini _⟩
    · rw [modifyEntry_of_ne _ _ hr]
      exact ⟨rfl, rfl⟩
  unfold scores
  simp only [hentry]
  rfl

end QueueState

end AflPlusPlus.FavoredSet

namespace AflPlusPlus.Fuzzer.AflState
open ByteWords CoverageMap FavoredSet QueueState

variable (cfg : Config) (e : Environment) (q timeout : ℕ)

theorem Ran.scores {s t : AflState} (h : Ran s t) : t.toQueueState.scores = s.scores := by
  have href : (fun r => (t.queueBuf r).tcRef) = fun r => (s.queueBuf r).tcRef := by
    funext r
    rw [h.entry_eq r]
  have hmini : (fun r => (t.queueBuf r).traceMini) = fun r => (s.queueBuf r).traceMini := by
    funext r
    rw [h.entry_eq r]
  rw [QueueState.scores, href, hmini, h.state_eq]
  rfl

/-! ## The result of a calibration that goes through -/

theorem Calibration.execute_fault (stageCur : ℕ) (c : Calibration)
    (h : (c.execute cfg e timeout stageCur).aborted = false) :
    (c.execute cfg e timeout stageCur).fault = cfg.crashMode := by
  unfold Calibration.execute at h ⊢
  dsimp only at h ⊢
  split at h
  · exact absurd h (by simp)
  · rename_i hstop
    split at h
    · exact absurd h (by simp)
    · rename_i hcount
      rw [if_neg hstop, if_neg hcount]
      exact not_not.mp (not_or.mp hstop).2

theorem Calibration.compare_fault (c : Calibration) : (c.compare cfg e q).fault = c.fault := by
  unfold Calibration.compare
  dsimp only
  split
  · split <;> rfl
  · rfl

theorem Calibration.cycle_fault (stageCur : ℕ) (c : Calibration)
    (hruns : stageCur < c.stageMax ∨ c.fault = cfg.crashMode)
    (h : (c.cycle cfg e q timeout stageCur).aborted = false) :
    (c.cycle cfg e q timeout stageCur).fault = cfg.crashMode := by
  unfold Calibration.cycle at h ⊢
  dsimp only at h ⊢
  split at h
  · rename_i hskip
    rw [if_pos hskip]
    rcases hskip with haborted | hpast
    · exact absurd haborted (by simp [h])
    · exact hruns.resolve_left (by omega)
  · rename_i hgo
    rw [if_neg hgo]
    split at h
    · exact absurd h (by simp_all)
    · rename_i haborted
      rw [if_neg haborted, compare_fault]
      exact c.execute_fault cfg e timeout stageCur (by simpa using haborted)

/-- The first cycle is always run. -/
theorem Calibration.cycles_fault (c : Calibration) (hmax : 0 < c.stageMax)
    (h : (c.cycles cfg e q timeout).aborted = false) :
    (c.cycles cfg e q timeout).fault = cfg.crashMode := by
  have hrest : ∀ (stages : List ℕ) (d : Calibration),
      (d.aborted = false → d.fault = cfg.crashMode) →
      (stages.foldl (Calibration.cycle cfg e q timeout) d).aborted = false →
      (stages.foldl (Calibration.cycle cfg e q timeout) d).fault = cfg.crashMode := by
    intro stages d hd
    refine List.foldlRecOn (motive := fun d : Calibration =>
      d.aborted = false → d.fault = cfg.crashMode) _ _ hd ?_
    intro d hd k _ hgoes
    cases haborted : d.aborted with
    | true =>
      unfold Calibration.cycle at hgoes
      rw [if_pos (.inl haborted)] at hgoes
      exact absurd hgoes (by simp [haborted])
    | false => exact d.cycle_fault cfg e q timeout k (.inr (hd haborted)) hgoes
  have hrange : List.range calCyclesLong = 0 :: List.range' 1 (calCyclesLong - 1) := rfl
  unfold Calibration.cycles at h ⊢
  rw [hrange, List.foldl_cons] at h ⊢
  exact hrest _ _ (c.cycle_fault cfg e q timeout 0 (.inl hmax)) h

theorem Calibration.execute_stageMax (stageCur : ℕ) (c : Calibration) :
    (c.execute cfg e timeout stageCur).stageMax = c.stageMax := by
  unfold Calibration.execute
  dsimp only
  split
  · rfl
  · split <;> rfl

theorem Calibration.firstLook_stageMax (c : Calibration) :
    (c.firstLook q).stageMax = c.stageMax := by
  unfold Calibration.firstLook
  split <;> rfl

theorem Calibration.dummyRun_stageMax (c : Calibration) :
    (c.dummyRun cfg e timeout).stageMax = c.stageMax := by
  unfold Calibration.dummyRun
  split
  · exact c.execute_stageMax cfg e timeout _
  · rfl

theorem calibrated_fault (fromQueue : Bool) (s : AflState)
    (h : (s.calibrated cfg e q fromQueue).aborted = false) :
    (s.calibrated cfg e q fromQueue).fault = cfg.crashMode := by
  have hmax : 0 < (s.startCalibration cfg q).stageMax := by
    unfold startCalibration
    dsimp only
    split_ifs <;> decide
  unfold calibrated Calibration.unlessAborted at h ⊢
  dsimp only at h ⊢
  split at h
  · rename_i haborted
    exact absurd haborted (by simp [h])
  · rename_i haborted
    rw [if_neg haborted]
    refine Calibration.cycles_fault cfg e q _ _ ?_ h
    rw [Calibration.firstLook_stageMax, Calibration.dummyRun_stageMax]
    exact hmax

theorem Calibration.finish_fault (handicap : ℕ) (firstRun : Bool) (c : Calibration) :
    (c.finish cfg e q handicap firstRun).fault = c.fault ∨
      (c.finish cfg e q handicap firstRun).fault = .nobits := by
  unfold Calibration.finish
  exact (ite_eq_or_eq _ _ _).symm

/-! ## The winners after a calibration -/

theorem Calibration.conclude_scores (c : Calibration) :
    (c.conclude q).toQueueState.scores = c.afl.scores := by
  unfold Calibration.conclude
  dsimp only
  set s := if c.newBits = 2 ∧ (!(c.afl.queueBuf q).hasNewCov) = true then _ else c.afl
  have hs : s.scores = c.afl.scores := by
    unfold s
    split
    · exact modifyEntry_scores c.afl.toQueueState q (fun _ => rfl) fun _ => rfl
    · rfl
  split <;> exact hs

theorem Calibration.measured_scores (handicap : ℕ) (c : Calibration) :
    (c.measured cfg e q handicap).toQueueState.scores = c.afl.scores :=
  modifyEntry_scores c.afl.toQueueState q (fun _ => rfl) fun _ => rfl

/-- Either no score changes, or the calibration went through and has scored the entry. -/
theorem calibrateCase_scores (handicap : ℕ) (fromQueue : Bool) (s : AflState) :
    (s.calibrateCase cfg e q handicap fromQueue).2.toQueueState.scores = s.scores ∨
    (((s.calibrateCase cfg e q handicap fromQueue).1 = cfg.crashMode ∨
        (s.calibrateCase cfg e q handicap fromQueue).1 = .nobits) ∧
      ∃ u : QueueState, u.scores = s.scores ∧
        (s.calibrateCase cfg e q handicap fromQueue).2.toQueueState.scores =
          (u.updateBitmapScore q true).scores) := by
  have hran := (calibrated_ran cfg e q fromQueue s).scores
  rw [calibrateCase_eq]
  unfold Calibration.unlessAborted
  dsimp only
  cases haborted : (s.calibrated cfg e q fromQueue).aborted with
  | true =>
    rw [if_pos rfl]
    exact .inl ((Calibration.conclude_scores q _).trans hran)
  | false =>
    rw [if_neg Bool.false_ne_true]
    refine .inr ⟨?_, _, (Calibration.measured_scores cfg e q handicap _).trans hran,
      Calibration.conclude_scores q _⟩
    rcases Calibration.finish_fault cfg e q handicap ((s.queueBuf q).execCksum == 0)
      (s.calibrated cfg e q fromQueue) with hsame | hnobits
    · exact .inl (hsame.trans (calibrated_fault cfg e q fromQueue s haborted))
    · exact .inr hnobits

theorem calibrateCase_counted {s : AflState} (h : s.Counted) {q : ℕ} (hq : q < s.queuedItems)
    (handicap : ℕ) (fromQueue : Bool) :
    (s.calibrateCase cfg e q handicap fromQueue).2.Counted := by
  rcases calibrateCase_scores cfg e q handicap fromQueue s with hsame | ⟨-, u, hu, hscored⟩
  · exact h.of_keeps (keeps_of_scores hsame)
  · have hcount : u.Counted := h.of_keeps (keeps_of_scores hu)
    have hitems : q < u.queuedItems := hq.trans_eq (congrArg Scores.queuedItems hu).symm
    refine Counted.of_keeps ?_ (keeps_of_scores hscored)
    exact updateBitmapScore_induct u q true hcount fun t ht hg hn _ i hi _ _ =>
      ht.contest _ (hg ▸ hi) (hn ▸ hitems)

end AflPlusPlus.Fuzzer.AflState
