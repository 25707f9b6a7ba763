import AflPlusPlus.FavoredSetInvariants
import AflPlusPlus.SaveIfInteresting

/-!
# The score of an entry

`calculate_score` decides how long an entry is fuzzed. What the source computes with doubles is
computed with doubles here, rounded after each operation and cut off where it is stored in the `u32`
`perf_score`.
-/

namespace AflPlusPlus.Fuzzer
open ByteWords CoverageMap FavoredSet
open Float.Model (Format UnpackedFloat)

/-- What `calculate_score` reads besides the queue and the counters. -/
structure ScoreState extends AflState where
  maxDepth : ℕ := 0
  limitTimeSig : ℤ := 0
  havocMaxMult : ℕ := 64

/-- How a call ends without a score. -/
inductive ScoreStop
  | fatal (message : String)
  | divisionByZero
  deriving DecidableEq, Repr

/-- What the language leaves to the platform. -/
structure Platform where
  log2 : Float → Float
  longDouble : Format
  /-- The `u32` for a double whose part before the point is none. -/
  outOfRange : Float → BitVec 32

/-- `MAX_FACTOR` -/
def maxFactor : Float := 32

/-- `POWER_BETA` -/
def powerBeta : ℕ := 1

def divide (a b : ℕ) : Except ScoreStop ℕ :=
  if b = 0 then .error .divisionByZero else .ok (a / b)

/-- A product of a `u32` with an integer. -/
def scaleU32 (x n : ℕ) : ℕ := x * n % 2 ^ 32

/-- The average of a total that the calibration has added up. -/
def average (total count : ℕ) : Except ScoreStop ℕ := do
  let count := count % 2 ^ 32
  let avg ← divide total (if count = 0 then 1 else count)
  return avg % 2 ^ 32

/-- By execution time, between 0.1 and 3. -/
def timeScore (execUs avgExecUs : ℕ) : ℕ :=
  if Float.ofNat execUs * 0.1 > Float.ofNat avgExecUs then 10
  else if Float.ofNat execUs * 0.25 > Float.ofNat avgExecUs then 25
  else if Float.ofNat execUs * 0.5 > Float.ofNat avgExecUs then 50
  else if Float.ofNat execUs * 0.75 > Float.ofNat avgExecUs then 75
  else if execUs * 4 % 2 ^ 64 < avgExecUs then 300
  else if execUs * 3 % 2 ^ 64 < avgExecUs then 200
  else if execUs * 2 % 2 ^ 64 < avgExecUs then 150
  else 100

/-- By the number of cycles that the entry has missed. -/
def handicapScore (handicap perfScore : ℕ) : ℕ :=
  if handicap ≥ 4 then scaleU32 perfScore 4
  else if handicap ≠ 0 then scaleU32 perfScore 2
  else perfScore

/-- The handicap is used up. -/
def takeHandicap (handicap : ℕ) : ℕ := if handicap ≥ 4 then handicap - 4 else handicap - 1

/-- By the depth of the path. -/
def depthScore (depth perfScore : ℕ) : ℕ :=
  if depth ≤ 3 then perfScore
  else if depth ≤ 7 then scaleU32 perfScore 2
  else if depth ≤ 13 then scaleU32 perfScore 3
  else if depth ≤ 25 then scaleU32 perfScore 4
  else scaleU32 perfScore 5

namespace Platform

variable (p : Platform)

/-- A double that is stored in a `u32`. The part after the point is dropped. -/
def toU32 (x : Float) : ℕ :=
  if -1 < x ∧ x < 4294967296 then x.toUInt32.toNat else (p.outOfRange x).toNat

/-- A `u32` that is multiplied in place with a double. -/
def scale (x : ℕ) (factor : Float) : ℕ := p.toU32 (Float.ofNat x * factor)

/-- A double as a `long double`. -/
def widen (x : Float) : UnpackedFloat :=
  match x.toModel.unpack with
  | .finite sign mantissa exponent _ => .round p.longDouble sign mantissa exponent
  | x => x

/-- By the size of the bitmap, between 0.25 and 3. -/
def bitmapScore (bitmapSize avgBitmapSize perfScore : ℕ) : ℕ :=
  if Float.ofNat bitmapSize * 0.3 > Float.ofNat avgBitmapSize then scaleU32 perfScore 3
  else if Float.ofNat bitmapSize * 0.5 > Float.ofNat avgBitmapSize then scaleU32 perfScore 2
  else if Float.ofNat bitmapSize * 0.75 > Float.ofNat avgBitmapSize then p.scale perfScore 1.5
  else if scaleU32 bitmapSize 3 < avgBitmapSize then p.scale perfScore 0.25
  else if scaleU32 bitmapSize 2 < avgBitmapSize then p.scale perfScore 0.5
  else if Float.ofNat bitmapSize * 1.5 < Float.ofNat avgBitmapSize then p.scale perfScore 0.75
  else perfScore

/-- The factor of the schedule `FAST`. The logarithm of zero is minus infinity, which is no
`u32`. -/
def fastFactor (hits : ℕ) (favored : Bool) : Float :=
  let factor : Float :=
    match p.toU32 (p.log2 (Float.ofNat hits)) with
    | 0 | 1 => 4
    | 2 | 3 => 3
    | 4 => 2
    | 5 => 1
    | 6 => if favored then 1 else 0.8
    | 7 => if favored then 1 else 0.6
    | _ => if favored then 1 else 0.4
  if favored then factor * 1.15 else factor

/-- The processors convert to 64 bits, of which the lower ones are kept. -/
def x86_64 : Platform where
  log2 := Float.log2
  longDouble := { mantissaBitsWithoutImplicit := 63, exponentBits := 15 }
  outOfRange x := BitVec.ofInt 32 (x.toModel.unpack.toInt (-2 ^ 63) (-2 ^ 63))

end Platform

namespace ScoreState

variable (p : Platform) (s : ScoreState) (q : ℕ)

/-- `n_fuzz[q->n_fuzz_entry]` -/
def hits : ℕ := s.nFuzz (s.queueBuf q).nFuzzEntry

/-- `max_depth - q->depth`, in 64 bits. -/
def depthBehind : ℕ := (s.maxDepth + 2 ^ 64 - (s.queueBuf q).depth) % 2 ^ 64

/-- The entries that are not disabled. -/
def enabled : List ℕ := (List.range s.queuedItems).filter fun i => !(s.queueBuf i).disabled

/-- The mean of the logarithms of all counters. -/
def fuzzMu : UnpackedFloat :=
  let sum := s.enabled.foldl (fun mu i =>
    .add p.longDouble mu (p.widen (p.log2 (Float.ofNat (s.hits i))))) (.zero .positive)
  .div p.longDouble sum (.ofNat p.longDouble s.enabled.length)

/-- The logarithm of the entry's counter is above the mean. -/
def aboveMean : Bool := (s.fuzzMu p).lt (p.widen (p.log2 (Float.ofNat (s.hits q))))

/-- The score and the factor by the schedule, and the integers by which a double was divided, which
is no reason to stop when they are zero. -/
def scheduleScore (perfScore : ℕ) : Except ScoreStop (ℕ × Float × List ℕ) :=
  let e := s.queueBuf q
  match s.schedule with
  | .explore | .seek => .ok (perfScore, 1, [])
  | .exploit => .ok (perfScore, maxFactor, [])
  | .coe =>
    if e.fuzzLevel = 0 then .ok (perfScore, 1, [])
    else if s.enabled = [] then .error (.fatal "Queue state corrupt")
    else if s.aboveMean p q then
      .ok (perfScore, if e.favored then 1 else 0, [s.enabled.length])
    else .ok (perfScore, p.fastFactor (s.hits q) e.favored, [s.enabled.length])
  | .fast =>
    .ok (perfScore, if e.fuzzLevel = 0 then 1 else p.fastFactor (s.hits q) e.favored, [])
  | .lin =>
    if e.fuzzLevel = 0 then .ok (perfScore, 1, [])
    else do
      let factor ← divide e.fuzzLevel (incU32 (s.hits q))
      return (perfScore, Float.ofNat factor, [])
  | .quad =>
    if e.fuzzLevel = 0 then .ok (perfScore, 1, [])
    else do
      let factor ← divide (scaleU32 e.fuzzLevel e.fuzzLevel) (incU32 (s.hits q))
      return (perfScore, Float.ofNat factor, [])
  | .mmopt => .ok (if s.depthBehind q < 5 then scaleU32 perfScore 2 else perfScore, 1, [])
  | .rare =>
    let perfScore := (perfScore + scaleU32 e.tcRef 10) % 2 ^ 32
    .ok (p.scale perfScore (1 - Float.ofNat (s.hits q) / Float.ofNat s.execs), 1, [s.execs])

/-- The factor is only used by the schedules from `EXPLOIT` to `QUAD`. -/
def applyFactor (perfScore : ℕ) (factor : Float) (divisors : List ℕ) : ℕ × List ℕ :=
  if Schedule.exploit.value ≤ s.schedule.value ∧ s.schedule.value ≤ Schedule.quad.value then
    let factor := if factor > maxFactor then maxFactor else factor
    (p.scale perfScore (factor / Float.ofNat powerBeta), powerBeta :: divisors)
  else (perfScore, divisors)

/-- The mode of `MOpt`, or a lower bound. -/
def boundBelow (perfScore : ℕ) : ℕ :=
  if s.limitTimeSig ≠ 0 ∧ s.depthBehind q < 3 then scaleU32 perfScore 2
  else if s.schedule ≠ .coe ∧ perfScore < 1 then 1
  else perfScore

def boundAbove (perfScore : ℕ) : ℕ :=
  if perfScore > s.havocMaxMult * 100 then s.havocMaxMult * 100 else perfScore

/-- The score that is returned, and the divisors on the way to it. -/
def scoreRun : Except ScoreStop (ℕ × List ℕ) := do
  let e := s.queueBuf q
  let avgExecUs ← average s.totalCalUs s.totalCalCycles
  let avgBitmapSize ← average s.totalBitmapSize s.totalBitmapEntries
  let perfScore :=
    if s.schedule.value < Schedule.rare.value ∧ !s.fixedSeed then timeScore e.execUs avgExecUs
    else 100
  let perfScore := p.bitmapScore e.bitmapSize avgBitmapSize perfScore
  let perfScore := depthScore e.depth (handicapScore e.handicap perfScore)
  let (perfScore, factor, divisors) ← s.scheduleScore p q perfScore
  let (perfScore, divisors) := s.applyFactor p perfScore factor divisors
  return (s.boundAbove (s.boundBelow q perfScore), divisors)

def finalScore : Except ScoreStop ℕ := (s.scoreRun p q).map Prod.fst

def calculateScore : Except ScoreStop (ℕ × ScoreState) := do
  let perfScore ← s.finalScore p q
  return (perfScore, { s with toAflState := s.toAflState.modifyEntry q fun e =>
    { e with handicap := takeHandicap e.handicap } })

/-! ## When a score is returned -/

variable {p s q}

theorem divide_eq_ok {a b : ℕ} (h : b ≠ 0) : divide a b = .ok (a / b) := if_neg h

theorem average_eq (total count : ℕ) : ∃ avg, average total count = .ok avg := by
  unfold average
  dsimp only
  rw [divide_eq_ok (by split <;> omega)]
  exact ⟨_, rfl⟩

theorem boundAbove_le (perfScore : ℕ) : s.boundAbove perfScore ≤ s.havocMaxMult * 100 := by
  unfold boundAbove
  split <;> omega

theorem zero_mem_applyFactor (perfScore : ℕ) (factor : Float) (divisors : List ℕ) :
    0 ∈ (s.applyFactor p perfScore factor divisors).2 ↔ 0 ∈ divisors := by
  unfold applyFactor
  split
  · exact List.mem_cons.trans (or_iff_right (by decide))
  · exact Iff.rfl

/-- A score is at most the bound, and a call ends without one where the schedule does. -/
theorem scoreRun_cases (p : Platform) (s : ScoreState) (q : ℕ) : ∃ perfScore,
    (∃ r score divisors, s.scheduleScore p q perfScore = .ok r ∧
      s.scoreRun p q = .ok (score, divisors) ∧ (0 ∈ divisors ↔ 0 ∈ r.2.2) ∧
        score ≤ s.havocMaxMult * 100) ∨
    ∃ stop, s.scheduleScore p q perfScore = .error stop ∧ s.scoreRun p q = .error stop := by
  obtain ⟨avgExecUs, hexec⟩ := average_eq s.totalCalUs s.totalCalCycles
  obtain ⟨avgBitmapSize, hsize⟩ := average_eq s.totalBitmapSize s.totalBitmapEntries
  unfold scoreRun
  rw [hexec, hsize]
  simp only [bind, Except.bind, pure, Except.pure]
  generalize depthScore _ _ = perfScore
  refine ⟨perfScore, ?_⟩
  cases hschedule : s.scheduleScore p q perfScore with
  | error stop => exact Or.inr ⟨stop, rfl, rfl⟩
  | ok r => exact Or.inl ⟨r, _, _, rfl, rfl, zero_mem_applyFactor _ _ _, boundAbove_le _⟩

theorem calculateScore_of_ok {score : ℕ} (h : s.finalScore p q = .ok score) :
    s.calculateScore p q = .ok (score, { s with toAflState := s.toAflState.modifyEntry q fun e =>
      { e with handicap := takeHandicap e.handicap } }) := by
  rw [calculateScore, h]
  rfl

theorem calculateScore_of_error {stop : ScoreStop} (h : s.finalScore p q = .error stop) :
    s.calculateScore p q = .error stop := by
  rw [calculateScore, h]
  rfl

theorem finalScore_of_run {r : Except ScoreStop (ℕ × List ℕ)} (h : s.scoreRun p q = r) :
    s.finalScore p q = r.map Prod.fst := by
  rw [finalScore, h]

/-- The counter is saturated, and the schedule divides by the number after it. -/
def DividesByCounter (s : ScoreState) (q : ℕ) : Prop :=
  (s.schedule = .lin ∨ s.schedule = .quad) ∧ (s.queueBuf q).fuzzLevel ≠ 0 ∧
    s.hits q = 0xFFFFFFFF

theorem incU32_eq_zero {n : ℕ} (h : n < 2 ^ 32) : incU32 n = 0 ↔ n = 0xFFFFFFFF := by
  unfold incU32
  omega

theorem bind_divide_ok {β : Type} {a b : ℕ} {f : ℕ → β} {r : β}
    (h : divide a b >>= (fun n => pure (f n)) = Except.ok r) : ∃ n, r = f n := by
  by_cases hb : b = 0
  · rw [divide, if_pos hb] at h
    exact absurd h (by simp [bind, Except.bind])
  · rw [divide_eq_ok hb] at h
    exact ⟨a / b, (Except.ok.inj h).symm⟩

theorem bind_divide_error {β : Type} {a b : ℕ} {f : ℕ → β} {stop : ScoreStop}
    (h : divide a b >>= (fun n => pure (f n)) = Except.error stop) :
    b = 0 ∧ stop = .divisionByZero := by
  by_cases hb : b = 0
  · rw [divide, if_pos hb] at h
    exact ⟨hb, (Except.error.inj h).symm⟩
  · rw [divide_eq_ok hb] at h
    exact absurd h (by simp [bind, Except.bind, pure, Except.pure])

/-- The schedule by which a call ends without a score. -/
theorem scheduleScore_error {perfScore : ℕ} {stop : ScoreStop} (hhits : s.hits q < 2 ^ 32)
    (h : s.scheduleScore p q perfScore = .error stop) :
    (stop = .divisionByZero ∧ DividesByCounter s q) ∨
      (stop = .fatal "Queue state corrupt" ∧ s.enabled = []) := by
  unfold scheduleScore at h
  cases hschedule : s.schedule with
  | explore | seek | exploit | mmopt | fast | rare => simp [hschedule] at h
  | coe =>
    simp only [hschedule] at h
    split_ifs at h with _ hnone
    exact Or.inr ⟨(Except.error.inj h).symm, hnone⟩
  | lin =>
    simp only [hschedule] at h
    split_ifs at h with hlevel
    obtain ⟨hzero, rfl⟩ := bind_divide_error h
    exact Or.inl ⟨rfl, Or.inl hschedule, hlevel, (incU32_eq_zero hhits).mp hzero⟩
  | quad =>
    simp only [hschedule] at h
    split_ifs at h with hlevel
    obtain ⟨hzero, rfl⟩ := bind_divide_error h
    exact Or.inl ⟨rfl, Or.inr hschedule, hlevel, (incU32_eq_zero hhits).mp hzero⟩

theorem scheduleScore_of_divides (perfScore : ℕ) (h : DividesByCounter s q) :
    s.scheduleScore p q perfScore = .error .divisionByZero := by
  obtain ⟨hschedule, hlevel, hhits⟩ := h
  have hzero : incU32 (s.hits q) = 0 := by
    rw [hhits]
    rfl
  unfold scheduleScore
  rcases hschedule with hschedule | hschedule <;>
    simp [hschedule, hlevel, hzero, divide, bind, Except.bind]

/-- The only schedule that may divide a double by zero. -/
theorem zero_mem_scheduleScore {perfScore : ℕ} {r : ℕ × Float × List ℕ}
    (h : s.scheduleScore p q perfScore = .ok r) :
    0 ∈ r.2.2 ↔ s.schedule = .rare ∧ s.execs = 0 := by
  unfold scheduleScore at h
  cases hschedule : s.schedule with
  | explore | seek | exploit | mmopt | fast =>
    simp only [hschedule] at h
    obtain rfl := Except.ok.inj h
    simp
  | rare =>
    simp only [hschedule] at h
    obtain rfl := Except.ok.inj h
    simp [eq_comm]
  | coe =>
    simp only [hschedule] at h
    have hlen : s.enabled ≠ [] → 0 ∉ [s.enabled.length] := fun hne hmem =>
      hne (List.length_eq_zero_iff.mp (List.mem_singleton.mp hmem).symm)
    split_ifs at h with _ hnone
    · obtain rfl := Except.ok.inj h
      simp
    all_goals
      obtain rfl := Except.ok.inj h
      exact iff_of_false (hlen hnone) fun hrare => absurd hrare.1 (by decide)
  | lin =>
    simp only [hschedule] at h
    split_ifs at h
    · obtain rfl := Except.ok.inj h
      simp
    · obtain ⟨factor, rfl⟩ := bind_divide_ok h
      simp
  | quad =>
    simp only [hschedule] at h
    split_ifs at h
    · obtain rfl := Except.ok.inj h
      simp
    · obtain ⟨factor, rfl⟩ := bind_divide_ok h
      simp

/-- The call is not stopped by a division, and its score is at most the bound. It may end with
`FATAL` when all entries of the queue are disabled. -/
def Returns (p : Platform) (s : ScoreState) (q : ℕ) : Prop :=
  match s.calculateScore p q with
  | .ok (score, _) => score ≤ s.havocMaxMult * 100
  | .error (.fatal _) => ∀ i < s.queuedItems, (s.queueBuf i).disabled = true
  | .error .divisionByZero => False

/-- There is no division by zero at all, and a score is at most the bound. -/
structure Scored (p : Platform) (s : ScoreState) (q : ℕ) : Prop where
  returns : Returns p s q
  divisors : ∀ r, s.scoreRun p q = .ok r → 0 ∉ r.2

theorem disabled_of_enabled_eq_nil (h : s.enabled = []) :
    ∀ i < s.queuedItems, (s.queueBuf i).disabled = true := by
  intro i hi
  have hnot := List.filter_eq_nil_iff.mp h i (List.mem_range.mpr hi)
  simpa using hnot

theorem not_returns (h : DividesByCounter s q) : ¬Returns p s q := by
  obtain ⟨perfScore, ⟨r, score, divisors, hr, -⟩ | ⟨stop, herror, hrun⟩⟩ := scoreRun_cases p s q
  · exact absurd ((scheduleScore_of_divides perfScore h).symm.trans hr) (by simp)
  · obtain rfl := Except.error.inj ((scheduleScore_of_divides perfScore h).symm.trans herror)
    unfold Returns
    rw [calculateScore_of_error (finalScore_of_run hrun)]
    exact id

theorem returns_iff (hhits : s.hits q < 2 ^ 32) : Returns p s q ↔ ¬DividesByCounter s q := by
  refine ⟨fun h hdivides => not_returns hdivides h, fun h => ?_⟩
  unfold Returns
  obtain ⟨perfScore, ⟨r, score, divisors, -, hrun, -, hle⟩ | ⟨stop, hstop, hrun⟩⟩ :=
    scoreRun_cases p s q
  · rw [calculateScore_of_ok (finalScore_of_run hrun)]
    exact hle
  · rw [calculateScore_of_error (finalScore_of_run hrun)]
    rcases scheduleScore_error hhits hstop with ⟨-, hdivides⟩ | ⟨rfl, hnone⟩
    · exact absurd hdivides h
    · exact disabled_of_enabled_eq_nil hnone

/-- The score is computed without a division by zero, and bounded, except with a saturated counter
under `LIN` and `QUAD`, and before the first execution under `RARE`. Only the former stops the
call. Under `RARE` it is doubles that are divided, and the score is bounded nevertheless. -/
theorem scored_iff (p : Platform) (s : ScoreState) (q : ℕ) (hhits : ∀ k, s.nFuzz k < 2 ^ 32) :
    (Scored p s q ↔ ¬DividesByCounter s q ∧ ¬(s.schedule = .rare ∧ s.execs = 0)) ∧
      (Returns p s q ↔ ¬DividesByCounter s q) := by
  have hreturns : Returns p s q ↔ ¬DividesByCounter s q := returns_iff (hhits _)
  refine ⟨?_, hreturns⟩
  obtain ⟨perfScore, ⟨r, score, divisors, hr, hrun, hzero, -⟩ | ⟨stop, hstop, hrun⟩⟩ :=
    scoreRun_cases p s q
  · rw [zero_mem_scheduleScore hr] at hzero
    constructor
    · intro h
      exact ⟨hreturns.mp h.returns, fun hrare => h.divisors _ hrun (hzero.mpr hrare)⟩
    · rintro ⟨hcounter, hrare⟩
      refine ⟨hreturns.mpr hcounter, fun r' hr' hmem => ?_⟩
      obtain rfl := Except.ok.inj (hrun.symm.trans hr')
      exact hrare (hzero.mp hmem)
  · constructor
    · intro h
      refine ⟨hreturns.mp h.returns, fun hrare => ?_⟩
      unfold scheduleScore at hstop
      simp [hrare.1] at hstop
    · rintro ⟨hcounter, -⟩
      refine ⟨hreturns.mpr hcounter, fun r' hr' => ?_⟩
      exact absurd (hrun.symm.trans hr') (by simp)

/-! ## Saturated counters -/

/-- The fuzzer after `n` inputs that time out. -/
def afterTimeouts (cfg : Config) (e : Environment) (s : ScoreState) : ℕ → ScoreState
  | 0 => s
  | n + 1 =>
    let s := afterTimeouts cfg e s n
    { s with toAflState := (s.toAflState.saveIfInteresting cfg e 0 1 .tmout).2 }

/-- With `AFL_IGNORE_TIMEOUTS` each of them is counted only. When all traces have the same
checksum, its counter goes up to the greatest `u32` and stays there. -/
theorem afterTimeouts_hits (cfg : Config) (e : Environment) (cksum : BitVec 64)
    (hcfg : cfg.ignoreTimeouts = true) (hhash : ∀ mem, e.xxh3 mem = cksum)
    (hschedule : Schedule.hashesInputs s.schedule = true)
    (hslot : (s.queueBuf q).nFuzzEntry = cksum.toNat % nFuzzSize) (hzero : s.hits q = 0) (n : ℕ) :
    (afterTimeouts cfg e s n).schedule = s.schedule ∧
      (afterTimeouts cfg e s n).queueBuf = s.queueBuf ∧
      (afterTimeouts cfg e s n).hits q = min n 0xFFFFFFFF := by
  induction n with
  | zero => exact ⟨rfl, rfl, hzero⟩
  | succ n ih =>
    rw [afterTimeouts]
    generalize afterTimeouts cfg e s n = t at ih ⊢
    obtain ⟨htschedule, htqueue, hthits⟩ := ih
    have hcall : t.toAflState.saveIfInteresting cfg e 0 1 .tmout =
        (.returned false, t.toAflState.classify.noteFrequency cksum) := by
      rw [AflState.saveIfInteresting, if_neg one_ne_zero, if_pos ⟨rfl, hcfg⟩, htschedule,
        if_pos hschedule]
      exact congrArg (fun c => (Ending.returned false, t.toAflState.classify.noteFrequency c))
        (hhash _)
    have htslot : t.nFuzz (cksum.toNat % nFuzzSize) = min n 0xFFFFFFFF := by
      rw [← hslot, ← htqueue]
      exact hthits
    have hclassify : t.toAflState.classify.nFuzz = t.nFuzz := rfl
    dsimp only
    rw [hcall]
    unfold AflState.noteFrequency
    dsimp only
    rw [hclassify, htslot]
    split
    · refine ⟨htschedule, htqueue, ?_⟩
      change Function.update t.nFuzz (cksum.toNat % nFuzzSize) (min n 0xFFFFFFFF + 1)
        (t.queueBuf q).nFuzzEntry = _
      rw [htqueue, hslot, Function.update_self]
      omega
    · refine ⟨htschedule, htqueue, ?_⟩
      change t.nFuzz (t.queueBuf q).nFuzzEntry = _
      rw [htqueue, hslot, htslot]
      omega

/-- An entry that was fuzzed once, under the schedule `LIN`. -/
def fuzzedOnce : ScoreState where
  toQueueState := { QueueState.emptyQueue with
    schedule := .lin
    queueBuf := fun _ => { fuzzLevel := 1 }
    queuedItems := 1 }
  execs := 1

theorem scored_fuzzedOnce : Scored .x86_64 fuzzedOnce 0 :=
  (scored_iff .x86_64 fuzzedOnce 0 fun _ => Nat.pos_of_ne_zero (by decide)).1.mpr
    ⟨fun h => absurd h.2.2 (by decide), fun h => absurd h.2 (by decide)⟩

/-- Four times 1.15, the factor of a favored entry that was hit once, is less than 4.6. -/
example : Platform.x86_64.scale 100 (4 * 1.15) = 459 := by
  decide

/-- Under `RARE` a score of zero times infinity is no number. -/
example : ({ fuzzedOnce with schedule := .rare, execs := 0 } : ScoreState).finalScore .x86_64 0 =
    .ok 1 := by
  decide

/-- A target whose traces are never looked at. -/
def sameTraces : Environment where
  target _ _ := ⟨.tmout, fun _ => 0, false⟩
  sanTarget _ _ := .ok
  writeToTestcase _ len _ := len
  diffUs _ := 1
  xxh3 _ := 0

theorem not_scored_afterTimeouts (p : Platform) {n : ℕ} (hn : n = 0xFFFFFFFF) :
    ¬Scored p (afterTimeouts { ignoreTimeouts := true } sameTraces fuzzedOnce n) 0 := by
  obtain ⟨hschedule, hqueue, hhits⟩ := @afterTimeouts_hits fuzzedOnce 0
    { ignoreTimeouts := true } sameTraces 0 rfl (fun _ => rfl) rfl rfl rfl n
  have hmin : min n 0xFFFFFFFF = 0xFFFFFFFF := by omega
  refine fun h => not_returns ⟨Or.inl hschedule, ?_, hhits.trans hmin⟩ h.returns
  rw [hqueue]
  exact one_ne_zero

/-- After as many inputs as a `u32` can count, the score of the entry has no value. -/
theorem not_scored_saturated : ¬∀ (p : Platform) (cfg : Config) (e : Environment) (s : ScoreState)
    (n q : ℕ), (∀ k, s.nFuzz k = 0) → 0 < s.execs → Scored p (afterTimeouts cfg e s n) q := by
  intro h
  obtain ⟨n, hn⟩ : ∃ n : ℕ, n = 0xFFFFFFFF := ⟨_, rfl⟩
  exact not_scored_afterTimeouts .x86_64 hn
    (h .x86_64 { ignoreTimeouts := true } sameTraces fuzzedOnce n 0 (fun _ => rfl) Nat.one_pos)

end ScoreState

end AflPlusPlus.Fuzzer
