import AflPlusPlus.SaveIfInterestingRuns

/-!
# Entries with variable behaviour

A calibration observes variable behaviour when the bucketed traces of its cycles do not all have
one checksum. It counts the entry unless the entry is marked, but leaves it unmarked.
-/

namespace AflPlusPlus.Fuzzer
open ByteWords CoverageMap FavoredSet

namespace AflState

/-! ## What a calibration observes -/

/-- Calibration goes on after a run that ended with `r`. -/
def completes (cfg : Config) (first : Bool) (s : AflState) (r : RunResult) : Bool :=
  !s.stopSoon && !r.stopSoon && r.fault = cfg.crashMode &&
    (s.nonInstrumentedMode || !first || s.countBytes r.traceBits != 0)

/-- The checksums of up to `n` cycles from the execution number `execs` on, until one of them
does not complete. -/
def cycleChecksums (cfg : Config) (e : Environment) (timeout : ℕ) (s : AflState) :
    ℕ → ℕ → ℕ → List (BitVec 64)
  | _, _, 0 => []
  | execs, stageCur, n + 1 =>
    let r := e.target execs timeout
    if s.completes cfg (stageCur = 0) r then
      s.hash64 e (classifyCounts s.geometry r.traceBits) ::
        cycleChecksums cfg e timeout s (execs + 1) (stageCur + 1) n
    else []

/-- The checksum that the entry brings along, and those of the regular number of cycles. -/
def calibrationChecksums (cfg : Config) (e : Environment) (q : ℕ) (fromQueue : Bool)
    (s : AflState) : List (BitVec 64) :=
  let timeout := useTmout cfg fromQueue
  let cycles := if cfg.calFast then calCyclesFast else calCycles
  if cfg.cmplogMode then
    if s.completes cfg (s.stageCur = 0) (e.target s.execs timeout) then
      s.cycleChecksums cfg e timeout (s.execs + 1) 0 cycles
    else []
  else (s.queueBuf q).execCksum :: s.cycleChecksums cfg e timeout s.execs 0 cycles

/-- From the first nonzero checksum on, not all are the same. -/
def differ (cksums : List (BitVec 64)) : Bool :=
  let rest := cksums.dropWhile (· == 0)
  rest.any fun c => rest.any fun d => c != d

def observes (cfg : Config) (e : Environment) (q : ℕ) (fromQueue : Bool) (s : AflState) : Bool :=
  differ (s.calibrationChecksums cfg e q fromQueue)

/-! ## The checksums and the loop -/

/-- What the loop makes of the checksums when `cksum` is the recorded one. -/
def detect (cksum : BitVec 64) : List (BitVec 64) → Bool
  | [] => false
  | c :: cksums =>
    if cksum = c then detect cksum cksums else if cksum ≠ 0 then true else detect c cksums

theorem detect_of_ne_zero {cksum : BitVec 64} (h : cksum ≠ 0) (cksums : List (BitVec 64)) :
    detect cksum cksums = true ↔ ∃ c ∈ cksums, cksum ≠ c := by
  induction cksums with
  | nil => simp [detect]
  | cons c cksums ih =>
    rw [detect]
    by_cases hc : cksum = c
    · rw [if_pos hc, ih]
      simp [hc]
    · rw [if_neg hc, if_pos h]
      exact iff_of_true rfl ⟨c, List.mem_cons_self, hc⟩

theorem differ_zero (cksums : List (BitVec 64)) : differ (0 :: cksums) = differ cksums := by
  rw [differ, List.dropWhile_cons_of_pos (by simp)]
  rfl

theorem differ_of_ne_zero {cksum : BitVec 64} (h : cksum ≠ 0) (cksums : List (BitVec 64)) :
    differ (cksum :: cksums) = true ↔ ∃ c ∈ cksums, cksum ≠ c := by
  rw [differ, List.dropWhile_cons_of_neg (by simpa using h)]
  simp only [List.any_eq_true, bne_iff_ne]
  constructor
  · rintro ⟨a, ha, b, hb, hne⟩
    by_contra hall
    push Not at hall
    have hsame : ∀ x ∈ cksum :: cksums, cksum = x := List.forall_mem_cons.mpr ⟨rfl, hall⟩
    exact hne ((hsame a ha).symm.trans (hsame b hb))
  · rintro ⟨c, hc, hne⟩
    exact ⟨cksum, List.mem_cons_self, c, List.mem_cons_of_mem _ hc, hne⟩

theorem detect_eq (cksum : BitVec 64) (cksums : List (BitVec 64)) :
    detect cksum cksums = differ (cksum :: cksums) := by
  induction cksums generalizing cksum with
  | nil =>
    by_cases hzero : cksum = 0
    · rw [hzero, differ_zero]
      rfl
    · rw [Bool.eq_iff_iff, detect_of_ne_zero hzero, differ_of_ne_zero hzero]
  | cons c cksums ih =>
    by_cases hzero : cksum = 0
    · rw [hzero, differ_zero, ← ih c, detect]
      by_cases hc : 0 = c
      · rw [if_pos hc, hc]
      · rw [if_neg hc, if_neg (not_not.mpr rfl)]
    · rw [Bool.eq_iff_iff, detect_of_ne_zero hzero, differ_of_ne_zero hzero]

variable {cfg : Config} {e : Environment} {q timeout : ℕ}

/-- The parts of the state that the cycles read and do not change. -/
structure SameTarget (s t : AflState) : Prop where
  geometry_eq : s.geometry = t.geometry
  mode_eq : s.nonInstrumentedMode = t.nonInstrumentedMode
  stopSoon_eq : s.stopSoon = t.stopSoon

theorem SameTarget.completes_eq {s t : AflState} (h : SameTarget s t) (first : Bool)
    (r : RunResult) : s.completes cfg first r = t.completes cfg first r := by
  simp only [completes, countBytes, h.geometry_eq, h.mode_eq, h.stopSoon_eq]

theorem SameTarget.cycleChecksums_eq {s t : AflState} (h : SameTarget s t)
    (execs stageCur n : ℕ) :
    s.cycleChecksums cfg e timeout execs stageCur n =
      t.cycleChecksums cfg e timeout execs stageCur n := by
  induction n generalizing execs stageCur with
  | zero => rfl
  | succ n ih =>
    rw [cycleChecksums, cycleChecksums]
    simp only [h.completes_eq, hash64, h.geometry_eq, ih]

theorem Calibration.execute_spec (cfg : Config) (e : Environment) (timeout stageCur : ℕ)
    (c : Calibration) :
    (c.execute cfg e timeout stageCur).aborted = (c.aborted ||
      !c.afl.completes cfg (stageCur = 0) (e.target c.afl.execs timeout)) ∧
    (c.execute cfg e timeout stageCur).varDetected = c.varDetected ∧
    (c.execute cfg e timeout stageCur).stageMax = c.stageMax ∧
    (c.execute cfg e timeout stageCur).afl.execs = c.afl.execs + 1 ∧
    (c.execute cfg e timeout stageCur).afl.traceBits =
      (e.target c.afl.execs timeout).traceBits ∧
    (c.execute cfg e timeout stageCur).afl.geometry = c.afl.geometry ∧
    ((c.execute cfg e timeout stageCur).aborted = false →
      SameTarget (c.execute cfg e timeout stageCur).afl c.afl) := by
  unfold Calibration.execute fuzzRunTarget completes
  dsimp only
  split_ifs with hstop hnoinst
  · refine ⟨?_, rfl, rfl, rfl, rfl, rfl, by simp⟩
    rcases hstop with hstop | hfault
    · rcases Bool.or_eq_true_iff.mp hstop with h | h <;> simp [h]
    · simp [hfault]
  · refine ⟨?_, rfl, rfl, rfl, rfl, rfl, by simp⟩
    obtain ⟨hmode, rfl, hcount⟩ := hnoinst
    change c.afl.countBytes (e.target c.afl.execs timeout).traceBits = 0 at hcount
    simp only [Bool.not_eq_true'] at hmode
    simp [hmode, hcount]
  · obtain ⟨hstop, hfault⟩ := not_or.mp hstop
    obtain ⟨hstop, hrun⟩ := Bool.or_eq_false_iff.mp (Bool.eq_false_iff.mpr hstop)
    refine ⟨?_, rfl, rfl, rfl, rfl, rfl, fun _ => ⟨rfl, rfl, by simp [hrun]⟩⟩
    change ¬ (_ ∧ _ ∧ c.afl.countBytes (e.target c.afl.execs timeout).traceBits = 0) at hnoinst
    simp only [Bool.not_eq_true'] at hnoinst
    cases hmode : c.afl.nonInstrumentedMode <;> simp_all

theorem SameTarget.trans {s t u : AflState} (h : SameTarget s t) (h' : SameTarget t u) :
    SameTarget s u :=
  ⟨h.geometry_eq.trans h'.geometry_eq, h.mode_eq.trans h'.mode_eq,
    h.stopSoon_eq.trans h'.stopSoon_eq⟩

/-- The three outcomes of a comparison. -/
theorem Calibration.compare_cases (cfg : Config) (e : Environment) (q : ℕ) (c : Calibration) :
    ((c.afl.queueBuf q).execCksum = c.afl.hash64 e c.afl.traceBits ∧ c.compare cfg e q = c) ∨
    ((c.afl.queueBuf q).execCksum ≠ c.afl.hash64 e c.afl.traceBits ∧
      (c.afl.queueBuf q).execCksum ≠ 0 ∧ (c.compare cfg e q).varDetected = true) ∨
    ((c.afl.queueBuf q).execCksum ≠ c.afl.hash64 e c.afl.traceBits ∧
      (c.afl.queueBuf q).execCksum = 0 ∧
      c.compare cfg e q = c.scan.adoptTrace q (c.afl.hash64 e c.afl.traceBits)) := by
  rw [Calibration.compare]
  split_ifs with hne hzero
  · exact Or.inr (Or.inl ⟨hne, hzero, rfl⟩)
  · exact Or.inr (Or.inr ⟨hne, not_not.mp hzero, rfl⟩)
  · exact Or.inl ⟨not_not.mp hne, rfl⟩

theorem Calibration.cycle_aborted {c : Calibration} (h : c.aborted = true) (stageCur : ℕ) :
    c.cycle cfg e q timeout stageCur = c := by
  rw [Calibration.cycle, if_pos (Or.inl h)]

theorem Calibration.cycle_past {c : Calibration} {stageCur : ℕ} (h : c.stageMax ≤ stageCur) :
    c.cycle cfg e q timeout stageCur = c := by
  rw [Calibration.cycle, if_pos (Or.inr h)]

theorem Calibration.cycle_detected {c : Calibration} (h : c.varDetected = true) (stageCur : ℕ) :
    (c.cycle cfg e q timeout stageCur).varDetected = true := by
  obtain ⟨-, hdetected, -⟩ := c.execute_spec cfg e timeout stageCur
  rw [h] at hdetected
  unfold Calibration.cycle
  split
  · exact h
  · dsimp only
    split
    · exact hdetected
    · unfold Calibration.compare
      dsimp only
      split
      · split
        · rfl
        · exact hdetected
      · exact hdetected

theorem foldl_cycle_aborted {c : Calibration} (h : c.aborted = true) (stages : List ℕ) :
    stages.foldl (Calibration.cycle cfg e q timeout) c = c := by
  induction stages with
  | nil => rfl
  | cons k stages ih => rw [List.foldl_cons, Calibration.cycle_aborted h, ih]

theorem foldl_cycle_past {c : Calibration} {stages : List ℕ} (h : ∀ k ∈ stages, c.stageMax ≤ k) :
    stages.foldl (Calibration.cycle cfg e q timeout) c = c := by
  induction stages with
  | nil => rfl
  | cons k stages ih =>
    obtain ⟨hk, hstages⟩ := List.forall_mem_cons.mp h
    rw [List.foldl_cons, Calibration.cycle_past hk, ih hstages]

theorem foldl_cycle_detected {c : Calibration} (h : c.varDetected = true) (stages : List ℕ) :
    (stages.foldl (Calibration.cycle cfg e q timeout) c).varDetected = true :=
  List.foldlRecOn (motive := fun d : Calibration => d.varDetected = true) _ _ h
    fun _ hd k _ => Calibration.cycle_detected hd k

/-- The induction is on the cycles that are left of the regular number. The number grows only
once a difference was seen, after which the result stands. -/
theorem foldl_cycle_varDetected (n : ℕ) : ∀ (m stageCur : ℕ) (c : Calibration), n ≤ m →
    c.aborted = false → c.varDetected = false → c.stageMax = stageCur + n →
    ((List.range' stageCur m).foldl (Calibration.cycle cfg e q timeout) c).varDetected =
      detect (c.afl.queueBuf q).execCksum
        (c.afl.cycleChecksums cfg e timeout c.afl.execs stageCur n) := by
  induction n with
  | zero =>
    intro m stageCur c _ _ hdetected hmax
    rw [foldl_cycle_past, hdetected, cycleChecksums, detect]
    intro k hk
    rw [hmax]
    exact (List.mem_range'_1.mp hk).1
  | succ n ih =>
    intro m stageCur c hm haborted hdetected hmax
    obtain ⟨m, rfl⟩ := Nat.exists_eq_add_of_le' (Nat.le_of_add_left_le hm)
    have hnm : n ≤ m := Nat.le_of_succ_le_succ hm
    obtain ⟨hrunAborted, hrunDetected, hrunMax, hexecs, htrace, hgeom, hsame⟩ :=
      c.execute_spec cfg e timeout stageCur
    have hqueue : (c.execute cfg e timeout stageCur).afl.queueBuf = c.afl.queueBuf :=
      c.execute_queueBuf timeout stageCur
    rw [haborted, Bool.false_or] at hrunAborted
    rw [List.range'_succ, List.foldl_cons, cycleChecksums, Calibration.cycle,
      if_neg (by simp [haborted, hmax])]
    dsimp only
    cases hcompletes : c.afl.completes cfg (stageCur = 0) (e.target c.afl.execs timeout) with
    | false =>
      rw [hcompletes] at hrunAborted
      rw [if_pos (by simpa using hrunAborted), if_neg Bool.false_ne_true,
        foldl_cycle_aborted (by simpa using hrunAborted), hrunDetected, hdetected, detect]
    | true =>
      rw [hcompletes] at hrunAborted
      have hgoesOn : (c.execute cfg e timeout stageCur).aborted = false := by
        simpa using hrunAborted
      rw [if_neg (by simp [hgoesOn]), if_pos rfl, detect]
      set run := c.execute cfg e timeout stageCur
      set d : Calibration := { run with afl := run.afl.classify }
      have hsameRun : SameTarget run.afl c.afl := hsame hgoesOn
      have hd : SameTarget d.afl c.afl :=
        { hsameRun with }
      have hcksum : d.afl.hash64 e d.afl.traceBits =
          c.afl.hash64 e
            (classifyCounts c.afl.geometry (e.target c.afl.execs timeout).traceBits) := by
        change run.afl.hash64 e (classifyCounts run.afl.geometry run.afl.traceBits) = _
        rw [htrace, hash64, hash64, hgeom]
      have hentry : (d.afl.queueBuf q).execCksum = (c.afl.queueBuf q).execCksum :=
        congrArg (fun buf => (buf q).execCksum) hqueue
      rcases d.compare_cases cfg e q with
        ⟨heq, hcompare⟩ | ⟨hne, hnonzero, hcompare⟩ | ⟨hne, hzero, hcompare⟩
      · rw [hcksum, hentry] at heq
        rw [hcompare, if_pos heq, ih m (stageCur + 1) d hnm hgoesOn
          (hrunDetected.trans hdetected) (hrunMax.trans (by omega)), hentry,
          hd.cycleChecksums_eq]
        exact congrArg _ (congrArg (fun k => c.afl.cycleChecksums cfg e timeout k _ n) hexecs)
      · rw [hcksum, hentry] at hne
        rw [hentry] at hnonzero
        rw [if_neg hne, if_pos hnonzero]
        exact foldl_cycle_detected hcompare _
      · rw [hcksum, hentry] at hne
        rw [hentry] at hzero
        set adopted := d.scan.adoptTrace q (d.afl.hash64 e d.afl.traceBits)
        have hadopted : SameTarget adopted.afl c.afl :=
          SameTarget.trans (t := d.afl) ⟨rfl, rfl, rfl⟩ hd
        have hcksumNew : (adopted.afl.queueBuf q).execCksum =
            d.afl.hash64 e d.afl.traceBits := Calibration.adoptTrace_execCksum _ _
        rw [hcompare, if_neg hne, if_neg (not_not.mpr hzero),
          ih m (stageCur + 1) adopted hnm hgoesOn
            (hrunDetected.trans hdetected) (hrunMax.trans (by omega)), hcksumNew, hcksum,
          hadopted.cycleChecksums_eq]
        exact congrArg _ (congrArg (fun k => c.afl.cycleChecksums cfg e timeout k _ n) hexecs)

theorem cycles_varDetected {c : Calibration} (hmax : c.stageMax ≤ calCyclesLong)
    (haborted : c.aborted = false) (hdetected : c.varDetected = false) :
    (c.cycles cfg e q timeout).varDetected = detect (c.afl.queueBuf q).execCksum
      (c.afl.cycleChecksums cfg e timeout c.afl.execs 0 c.stageMax) := by
  rw [Calibration.cycles, List.range_eq_range']
  exact foldl_cycle_varDetected c.stageMax _ 0 c hmax haborted hdetected (Nat.zero_add _).symm

theorem Calibration.firstLook_spec (q : ℕ) (c : Calibration) :
    (c.firstLook q).aborted = c.aborted ∧ (c.firstLook q).varDetected = c.varDetected ∧
      (c.firstLook q).stageMax = c.stageMax ∧ (c.firstLook q).afl.execs = c.afl.execs ∧
      (c.firstLook q).afl.queueBuf = c.afl.queueBuf ∧ SameTarget (c.firstLook q).afl c.afl := by
  rw [Calibration.firstLook]
  split_ifs
  · exact ⟨rfl, rfl, rfl, rfl, rfl, rfl, rfl, rfl⟩
  · exact ⟨rfl, rfl, rfl, rfl, rfl, rfl, rfl, rfl⟩

/-- From a state that can go on, the flag is decided by the checksums that follow. -/
theorem firstLook_cycles_varDetected {c : Calibration} (hmax : c.stageMax ≤ calCyclesLong)
    (haborted : c.aborted = false) (hdetected : c.varDetected = false) :
    ((c.firstLook q).cycles cfg e q timeout).varDetected =
      differ ((c.afl.queueBuf q).execCksum ::
        c.afl.cycleChecksums cfg e timeout c.afl.execs 0 c.stageMax) := by
  obtain ⟨hlookAborted, hlookDetected, hlookMax, hexecs, hqueue, hsame⟩ := c.firstLook_spec q
  rw [cycles_varDetected (hlookMax.trans_le hmax) (hlookAborted.trans haborted)
    (hlookDetected.trans hdetected), hsame.cycleChecksums_eq, hexecs, hqueue, hlookMax, detect_eq]

/-- The flag of the whole calibration is decided by the checksums alone. -/
theorem calibration_varDetected (fromQueue : Bool) (s : AflState) :
    (((s.startCalibration cfg q).dummyRun cfg e (useTmout cfg fromQueue)).unlessAborted
      (fun c => (c.firstLook q).cycles cfg e q (useTmout cfg fromQueue))).varDetected =
        s.observes cfg e q fromQueue := by
  set timeout := useTmout cfg fromQueue
  set start := s.startCalibration cfg q
  have hcksum : (start.afl.queueBuf q).execCksum =
      if cfg.cmplogMode then 0 else (s.queueBuf q).execCksum := startCalibration_execCksum cfg q s
  have hmax : start.stageMax = if cfg.calFast then calCyclesFast else calCycles := rfl
  have hle : start.stageMax ≤ calCyclesLong := by
    rw [hmax]
    split_ifs <;> decide
  have hstart : SameTarget start.afl s := ⟨rfl, rfl, rfl⟩
  rw [observes, calibrationChecksums, Calibration.dummyRun, ← hmax]
  cases hmode : cfg.cmplogMode with
  | false =>
    rw [hmode, if_neg Bool.false_ne_true] at hcksum
    rw [if_neg Bool.false_ne_true, if_neg Bool.false_ne_true, Calibration.unlessAborted,
      if_neg (by exact Bool.false_ne_true), firstLook_cycles_varDetected hle rfl rfl, hcksum,
      hstart.cycleChecksums_eq]
    rfl
  | true =>
    rw [hmode, if_pos rfl] at hcksum
    rw [if_pos rfl, if_pos rfl]
    obtain ⟨hrunAborted, hrunDetected, hrunMax, hexecs, -, -, hsame⟩ :=
      start.execute_spec cfg e timeout start.afl.stageCur
    have hqueue : (start.execute cfg e timeout start.afl.stageCur).afl.queueBuf =
        start.afl.queueBuf := start.execute_queueBuf timeout start.afl.stageCur
    set run := start.execute cfg e timeout start.afl.stageCur
    change run.aborted = (false || !start.afl.completes cfg (s.stageCur = 0)
      (e.target s.execs timeout)) at hrunAborted
    rw [Bool.false_or, hstart.completes_eq] at hrunAborted
    rw [Calibration.unlessAborted]
    cases hcompletes : s.completes cfg (s.stageCur = 0) (e.target s.execs timeout) with
    | false =>
      rw [hcompletes] at hrunAborted
      rw [if_pos (by simpa using hrunAborted), if_neg Bool.false_ne_true, hrunDetected]
      rfl
    | true =>
      rw [hcompletes] at hrunAborted
      have hgoesOn : run.aborted = false := by simpa using hrunAborted
      have hsameRun : SameTarget run.afl s := (hsame hgoesOn).trans hstart
      rw [if_neg (by simp [hgoesOn]), if_pos rfl,
        firstLook_cycles_varDetected (hrunMax.trans_le hle) hgoesOn hrunDetected, hqueue, hcksum,
        hsameRun.cycleChecksums_eq, hexecs, hrunMax, differ_zero]
      rfl

/-! ## What a calibration leaves -/

end AflState

/-- The fields of an entry that calibration does not write. -/
structure KeptFields where
  len : ℕ
  depth : ℕ
  fuzzLevel : ℕ
  wasFuzzed : Bool
  varBehavior : Bool
  favored : Bool
  fsRedundant : Bool
  disabled : Bool

def keptFields (entry : QueueEntry) : KeptFields where
  len := entry.len
  depth := entry.depth
  fuzzLevel := entry.fuzzLevel
  wasFuzzed := entry.wasFuzzed
  varBehavior := entry.varBehavior
  favored := entry.favored
  fsRedundant := entry.fsRedundant
  disabled := entry.disabled

/-- What a calibration hands on, the counter apart. -/
structure Frame where
  geometry : MapGeometry
  schedule : Schedule
  fixedSeed : Bool
  nonInstrumentedMode : Bool
  disableRedundant : Bool
  queuedItems : ℕ
  pendingFavored : ℕ
  smallestFavored : ℤ
  queuedVariable : ℕ
  entries : ℕ → KeptFields

namespace AflState

def frame (s : AflState) : Frame where
  geometry := s.geometry
  schedule := s.schedule
  fixedSeed := s.fixedSeed
  nonInstrumentedMode := s.nonInstrumentedMode
  disableRedundant := s.disableRedundant
  queuedItems := s.queuedItems
  pendingFavored := s.pendingFavored
  smallestFavored := s.smallestFavored
  queuedVariable := s.queuedVariable
  entries q := keptFields (s.queueBuf q)

theorem modifyEntry_frame {s : AflState} {f : QueueEntry → QueueEntry}
    (hf : ∀ entry, keptFields (f entry) = keptFields entry) :
    (s.modifyEntry q f).frame = s.frame := by
  refine congrArg (fun entries => { s.frame with entries := entries }) (funext fun r => ?_)
  change keptFields (Function.update s.queueBuf q (f (s.queueBuf q)) r) = _
  by_cases hr : r = q
  · rw [hr, Function.update_self, hf]
  · rw [Function.update_of_ne hr]

theorem Ran.frame {s t : AflState} (h : Ran s t) : t.frame = s.frame := by
  have hentries : (fun q => keptFields (t.queueBuf q)) = fun q => keptFields (s.queueBuf q) := by
    funext q
    rw [h.entry_eq q]
    rfl
  rw [AflState.frame, hentries, h.state_eq]
  rfl

theorem contest_kept (s : QueueState) (mine : ℕ × ℕ) (q i r : ℕ) :
    keptFields ((s.contest mine q i).queueBuf r) = keptFields (s.queueBuf r) := by
  have hinsert : ∀ s : QueueState,
      keptFields ((s.insertWinner q i).queueBuf r) = keptFields (s.queueBuf r) := by
    intro s
    by_cases hr : r = q
    · rw [hr, QueueState.insertWinner_self]
      dsimp only [keptFields]
    · rw [QueueState.insertWinner_of_ne s i hr]
  have hdrop : ∀ old,
      keptFields ((s.dropWinner old).queueBuf r) = keptFields (s.queueBuf r) := by
    intro old
    by_cases hr : r = old
    · rw [hr, QueueState.dropWinner_self]
      dsimp only [keptFields]
    · rw [QueueState.dropWinner_of_ne s hr]
  unfold QueueState.contest
  split
  · exact hinsert s
  · split
    · rw [hinsert, hdrop]
    · rfl

/-- The settings, and what the last cull has left. -/
theorem contest_settings (s : QueueState) (mine : ℕ × ℕ) (q i : ℕ) :
    (s.contest mine q i).schedule = s.schedule ∧ (s.contest mine q i).fixedSeed = s.fixedSeed ∧
      (s.contest mine q i).nonInstrumentedMode = s.nonInstrumentedMode ∧
      (s.contest mine q i).disableRedundant = s.disableRedundant ∧
      (s.contest mine q i).pendingFavored = s.pendingFavored ∧
      (s.contest mine q i).smallestFavored = s.smallestFavored := by
  unfold QueueState.contest
  split
  · exact ⟨rfl, rfl, rfl, rfl, rfl, rfl⟩
  · split <;> exact ⟨rfl, rfl, rfl, rfl, rfl, rfl⟩

theorem updateBitmapScore_frame (s : AflState) (q : ℕ) (haveTrace : Bool) :
    ({ s with toQueueState := s.toQueueState.updateBitmapScore q haveTrace } : AflState).frame =
      s.frame := by
  refine QueueState.updateBitmapScore_induct
    (P := fun t => ({ s with toQueueState := t } : AflState).frame = s.frame)
    s.toQueueState q haveTrace rfl ?_
  intro t ht _ _ _ i _ _ _
  rw [← ht]
  obtain ⟨hschedule, hseed, hmode, hredundant, hpending, hsmallest⟩ :=
    contest_settings t (s.toQueueState.rating q) q i
  simp only [frame, QueueState.contest_geometry, QueueState.contest_queuedItems, contest_kept,
    hschedule, hseed, hmode, hredundant, hpending, hsmallest]

theorem Calibration.finish_frame (handicap : ℕ) (firstRun : Bool) (c : Calibration) :
    (c.finish cfg e q handicap firstRun).afl.frame = c.afl.frame := by
  unfold Calibration.finish
  dsimp only
  refine (updateBitmapScore_frame _ q true).trans ?_
  refine modifyEntry_frame (s := c.afl) (q := q) ?_
  exact fun _ => rfl

/-- A variable entry is counted when it is not marked, and stays as it is. -/
theorem Calibration.conclude_frame (c : Calibration) : (c.conclude q).frame =
    { c.afl.frame with queuedVariable :=
        if c.varDetected = true ∧ (c.afl.queueBuf q).varBehavior = false then
          c.afl.queuedVariable + 1
        else c.afl.queuedVariable } := by
  unfold Calibration.conclude
  dsimp only
  set s := if c.newBits = 2 ∧ (!(c.afl.queueBuf q).hasNewCov) = true then _ else c.afl
  have hs : s.frame = c.afl.frame := by
    unfold s
    split
    · exact modifyEntry_frame (s := c.afl) (q := q)
        (f := fun entry => { entry with hasNewCov := true }) fun _ => rfl
    · rfl
  have hcount : s.queuedVariable = c.afl.queuedVariable := congrArg Frame.queuedVariable hs
  have hflag : (s.queueBuf q).varBehavior = (c.afl.queueBuf q).varBehavior :=
    congrArg (fun f => (f.entries q).varBehavior) hs
  have hset : ∀ n, ({ s.frame with queuedVariable := n } : Frame) =
      { c.afl.frame with queuedVariable := n } := fun n => by rw [hs]
  rw [hflag, hcount]
  split_ifs with hdetected hmarked hboth hboth hboth
  · exact absurd hboth.2 (by simp [hmarked])
  · exact hset _
  · exact hset _
  · exact absurd ⟨hdetected, by simpa using hmarked⟩ hboth
  · exact absurd hboth.1 hdetected
  · exact hs

theorem Calibration.unlessAborted_finish_varDetected (handicap : ℕ) (firstRun : Bool)
    (c : Calibration) :
    (c.unlessAborted (fun c => c.finish cfg e q handicap firstRun)).varDetected =
      c.varDetected := by
  unfold Calibration.unlessAborted
  split <;> rfl

/-- What one call does to the counter, and that it leaves the rest alone. -/
theorem calibrateCase_frame (handicap : ℕ) (fromQueue : Bool) (s : AflState) :
    (s.calibrateCase cfg e q handicap fromQueue).2.frame =
      { s.frame with queuedVariable :=
          if s.observes cfg e q fromQueue = true ∧ (s.queueBuf q).varBehavior = false then
            s.queuedVariable + 1
          else s.queuedVariable } := by
  have hran := (calibrated_ran cfg e q fromQueue s).frame
  set c := s.calibrated cfg e q fromQueue
  set finished := c.unlessAborted
    (fun c => c.finish cfg e q handicap ((s.queueBuf q).execCksum == 0)) with hfinished
  have hdetected : finished.varDetected = s.observes cfg e q fromQueue :=
    (Calibration.unlessAborted_finish_varDetected _ _ _).trans (calibration_varDetected _ _)
  have hframe : finished.afl.frame = s.frame := by
    rw [hfinished]
    unfold Calibration.unlessAborted
    split
    · exact hran
    · exact (Calibration.finish_frame _ _ _).trans hran
  have hcount : finished.afl.queuedVariable = s.queuedVariable :=
    congrArg Frame.queuedVariable hframe
  have hflag : (finished.afl.queueBuf q).varBehavior = (s.queueBuf q).varBehavior :=
    congrArg (fun f => (f.entries q).varBehavior) hframe
  rw [calibrateCase_eq]
  refine (Calibration.conclude_frame finished).trans ?_
  rw [hdetected, hflag, hcount, hframe]

/-- The counter of variable entries and the flags that it stands for. -/
def marks (s : AflState) : ℕ × (ℕ → Bool) :=
  (s.queuedVariable, fun q => (s.queueBuf q).varBehavior)

theorem calibrateCase_marks (handicap : ℕ) (fromQueue : Bool) (s : AflState) :
    (s.calibrateCase cfg e q handicap fromQueue).2.marks =
      (if s.observes cfg e q fromQueue = true ∧ (s.queueBuf q).varBehavior = false then
        s.queuedVariable + 1 else s.queuedVariable, s.marks.2) := by
  have hframe := @calibrateCase_frame cfg e q handicap fromQueue s
  exact Prod.ext (congrArg Frame.queuedVariable hframe)
    (congrArg (fun f => fun r => (Frame.entries f r).varBehavior) hframe)

end AflState

end AflPlusPlus.Fuzzer
