import AflPlusPlus.DuplicateSeeds
import AflPlusPlus.SeedScores
import AflPlusPlus.SteadyCalibration

/-!
# The cull after the dry run

The winner loop does not look at `disabled`. What it favors after the dry run is enabled if and only
if no seed that it picks was removed as a duplicate.
-/

namespace AflPlusPlus.DryRun.Startup
open ByteWords CoverageMap FavoredSet Fuzzer GreedyCovers

/-- The seeds are added to the queue. -/
def addSeeds (lens : List ℕ) (s : Startup) : Startup :=
  lens.foldl (fun s len => s.addToQueue len) s

/-- The calibrations of the dry run. -/
def calibrateSeeds (o : Options) (e : Environment) (s : Startup) : Except Stop Startup :=
  seedLoop o e (seedOrder o s) { s with calFailures := 0 }

/-- The favored entries are enabled, and hit every index that has a winner. -/
structure FavorsEnabled (s : Startup) : Prop where
  enabled : ∀ q < s.queuedItems, (s.queueBuf q).favored = true → (s.queueBuf q).disabled = false
  covered : ∀ i < s.geometry.mapSize, s.topRated i ≠ none → ∃ q < s.queuedItems,
    (s.queueBuf q).favored = true ∧ (s.queueBuf q).disabled = false ∧
      ∃ m, (s.queueBuf q).traceMini = some m ∧ bitSet m i = true

/-- In the state after the calibrations: no seed that the winner loop will pick has the trace of a
shorter one, or of an equally short one before it. Without instrumentation nothing is picked, and
after a stop nothing is removed. -/
def WinnersStay (s : Startup) : Prop :=
  if s.nonInstrumentedMode then ∀ i < s.geometry.mapSize, s.topRated i = none
  else s.stopSoon = true ∨ ∀ w ∈ s.winners, ¬s.Superseded w

section Cull
variable {s t : Startup}

theorem winners_of_scores (h : t.toQueueState.scores = s.scores) : t.winners = s.winners := by
  have hcandidate : t.candidate = s.candidate := by
    funext i
    have htop := congrFun (congrArg Scores.topRated h) i
    change t.topRated i = s.topRated i at htop
    rw [QueueState.candidate, QueueState.candidate, htop]
    refine congrArg (fun p => (s.topRated i).filter p) (funext fun w => ?_)
    exact congrArg Option.isSome (congrFun (congrArg Scores.traceMini h) w)
  have hrecorded : t.recorded = s.recorded := by
    funext w i
    exact congrArg (fun m : Option Mem => m.any fun m => bitSet m i)
      (congrFun (congrArg Scores.traceMini h) w)
  have hgeometry : t.geometry = s.geometry := congrArg Scores.geometry h
  rw [QueueState.winners, hcandidate, hrecorded, hgeometry]
  rfl

theorem winners_eq_nil (h : ∀ i, s.topRated i = none) : s.winners = [] := by
  refine List.eq_nil_iff_forall_not_mem.mpr fun w hw => ?_
  obtain ⟨i, -, hi⟩ := exists_candidate hw
  exact absurd ((h i).symm.trans (QueueState.candidate_eq_some.mp hi).1) nofun

/-- A favored entry keeps its flag and its mini-trace in the last loop of the cull. -/
theorem marked_favored (disableRedundant : Bool) {entry : QueueEntry}
    (h : entry.favored = true) :
    (QueueState.marked disableRedundant entry).disabled = entry.disabled ∧
      (QueueState.marked disableRedundant entry).traceMini = entry.traceMini := by
  unfold QueueState.marked
  split
  · exact ⟨rfl, rfl⟩
  · simp [h]

theorem marked_favored_eq (disableRedundant : Bool) (entry : QueueEntry) :
    (QueueState.marked disableRedundant entry).favored = entry.favored := by
  unfold QueueState.marked
  split <;> rfl

/-- What a cull that takes effect favors. -/
theorem cullQueue_favorsEnabled (h : t.Wins) (hchanged : t.scoreChanged = true)
    (hmode : t.nonInstrumentedMode = false) :
    FavorsEnabled t.cullQueue ↔ ∀ w ∈ t.winners, (t.queueBuf w).disabled = false := by
  have hkeeps := QueueState.cullQueue_keeps t.toQueueState
  have hentry : ∀ q < t.queuedItems, t.cullQueue.queueBuf q = QueueState.marked
      t.disableRedundant { t.queueBuf q with favored := decide (q ∈ t.winners) } := fun q hq =>
    QueueState.cullQueue_entry h.counted.addressed hchanged hmode hq
  have hfavored : ∀ q < t.queuedItems,
      ((t.cullQueue.queueBuf q).favored = true ↔ q ∈ t.winners) := by
    intro q hq
    rw [hentry q hq, marked_favored_eq]
    exact decide_eq_true_iff
  have hdisabled : ∀ q < t.queuedItems, q ∈ t.winners →
      (t.cullQueue.queueBuf q).disabled = (t.queueBuf q).disabled := by
    intro q hq hw
    rw [hentry q hq]
    exact (marked_favored _ (decide_eq_true_iff.mpr hw)).1
  have hitems : t.cullQueue.queuedItems = t.queuedItems := hkeeps.queuedItems_eq
  constructor
  · intro hfavors w hw
    have hlt := QueueState.mem_winners h.counted.addressed hw
    rw [← hdisabled w hlt hw]
    exact hfavors.enabled w (hlt.trans_eq hitems.symm) ((hfavored w hlt).mpr hw)
  · intro henabled
    have hon : ∀ q < t.queuedItems, (t.cullQueue.queueBuf q).favored = true →
        (t.cullQueue.queueBuf q).disabled = false := by
      intro q hq hfav
      have hw := (hfavored q hq).mp hfav
      exact (hdisabled q hq hw).trans (henabled q hw)
    obtain ⟨hits, hown⟩ := h.owned
    have hcovers := QueueState.cullQueue_covers h.counted hown hchanged hmode fun i w hw => by
      refine h.recorded.mini w ?_
      rw [h.counted.tcRef_eq]
      exact Finset.card_pos.mpr ⟨i, QueueState.mem_slots.mpr ⟨(hown.winner_hits i w hw).1, hw⟩⟩
    refine ⟨fun q hq hfav => hon q (hq.trans_eq hitems) hfav, fun i hi hne => ?_⟩
    obtain ⟨q, hq, hfav, hmini⟩ := QueueState.covered_iff.mp (hcovers i hi hne)
    exact ⟨q, hq, hfav, hon q (hq.trans_eq hitems) hfav, hmini⟩

end Cull

/-! ## From the seeds to the cull -/

section Run
variable {o : Options} {e : Environment} {s t u : Startup} {lens : List ℕ}

/-- Seeds come into the queue without scores and not favored. -/
structure Unscored (s : Startup) : Prop where
  fresh : s.Fresh
  unfavored : ∀ q < s.queuedItems, (s.queueBuf q).favored = false

theorem Initial.unscored (h : s.Initial) : s.Unscored where
  fresh := h.fresh
  unfavored q hq := by
    rw [h.queuedItems_eq] at hq
    exact absurd hq (Nat.not_lt_zero q)

theorem Unscored.addToQueue (h : s.Unscored) (len : ℕ) : (s.addToQueue len).Unscored := by
  have hentry : ∀ {P : QueueEntry → Prop}, P { len := len, depth := s.curDepth + 1 } →
      ∀ q, (q ≠ s.queuedItems → P (s.queueBuf q)) → P ((s.addToQueue len).queueBuf q) := by
    intro P hnew q hold
    change P (Function.update s.queueBuf s.queuedItems _ q)
    by_cases hq : q = s.queuedItems
    · rw [hq, Function.update_self]
      exact hnew
    · rw [Function.update_of_ne hq]
      exact hold hq
  refine ⟨⟨h.fresh.topRated_eq, h.fresh.candidates_eq, fun q => ?_, fun q => ?_,
    h.fresh.underflow_eq⟩, fun q hq => ?_⟩
  · exact hentry (P := fun entry => entry.tcRef = 0) rfl q fun _ => h.fresh.tcRef_eq q
  · exact hentry (P := fun entry => entry.traceMini = none) rfl q fun _ => h.fresh.traceMini_eq q
  · refine hentry (P := fun entry => entry.favored = false) rfl q fun hne => ?_
    exact h.unfavored q (Nat.lt_of_le_of_ne (Nat.le_of_lt_succ hq) hne)

theorem Unscored.addSeeds (h : s.Unscored) (lens : List ℕ) : (s.addSeeds lens).Unscored :=
  List.foldlRecOn (motive := Unscored) _ _ h fun _ ht len _ => ht.addToQueue len

theorem Unscored.loaded (h : s.Unscored) (o : Options) :
    Loaded (seedOrder o s) { s with calFailures := 0 } where
  wins := h.fresh.wins
  rest_lt _ hq := mem_seedOrder.mp hq
  rest_nodup := seedOrder_nodup o s
  rest_fresh _ _ i hi := absurd ((h.fresh.topRated_eq i).symm.trans hi) nofun
  winner_enabled i _ hw := absurd ((h.fresh.topRated_eq i).symm.trans hw) nofun

/-- A picked seed is disabled only if it was removed as a duplicate. -/
theorem winners_enabled_iff {rest : List ℕ} (hu : Loaded rest u)
    (ht : (u.stopSoon = true ∧ t = u) ∨ (u.stopSoon = false ∧ t = u.removeDuplicates)) :
    (∀ w ∈ t.winners, (t.queueBuf w).disabled = false) ↔
      u.stopSoon = true ∨ ∀ w ∈ u.winners, ¬u.Superseded w := by
  have henabled : ∀ w ∈ u.winners, (u.queueBuf w).disabled = false := by
    intro w hw
    obtain ⟨i, -, hi⟩ := exists_candidate hw
    exact hu.winner_enabled i w (QueueState.candidate_eq_some.mp hi).1
  rcases ht with ⟨hstop, rfl⟩ | ⟨hgoes, rfl⟩
  · exact iff_of_true henabled (.inl hstop)
  · rw [winners_of_scores (removeDuplicates_scores u), hgoes]
    simp only [Bool.false_eq_true, false_or]
    refine forall₂_congr fun w hw => ?_
    have hlt := QueueState.mem_winners hu.wins.counted.addressed hw
    rw [← Bool.not_eq_true, removeDuplicates_disabled u hlt, henabled w hw]
    simp

theorem dryRun_cull_favorsEnabled_iff (hinit : s.Initial)
    (hcal : (s.addSeeds lens).calibrateSeeds o e = .ok u)
    (hdry : (s.addSeeds lens).performDryRun o e = .ok t) :
    FavorsEnabled t.cullQueue ↔ WinnersStay u := by
  have hseeds := hinit.unscored.addSeeds lens
  obtain ⟨rest, hu⟩ := (hseeds.loaded o).seedLoop hcal
  obtain ⟨v, hloop, ht⟩ := performDryRun_cases hdry
  obtain rfl : v = u := Except.ok.inj (hloop.symm.trans hcal)
  have hscores : t.toQueueState.scores = v.scores := by
    rcases ht with ⟨-, rfl⟩ | ⟨-, rfl⟩
    · rfl
    · exact removeDuplicates_scores v
  have hselection : t.selection = v.selection := by
    rcases ht with ⟨-, rfl⟩ | ⟨-, rfl⟩
    · rfl
    · exact removeDuplicates_selection v
  have hmode : t.nonInstrumentedMode = v.nonInstrumentedMode :=
    congrArg Selection.nonInstrumentedMode hselection
  have htop : t.topRated = v.topRated := congrArg Scores.topRated hscores
  have hgeometry : t.geometry = v.geometry := congrArg Scores.geometry hscores
  have hunfavored : ∀ q < t.queuedItems, (t.queueBuf q).favored = false := by
    intro q hq
    have hkept : t.selection = (s.addSeeds lens).selection := performDryRun_selection hdry
    have hitems : t.queuedItems = (s.addSeeds lens).queuedItems :=
      congrArg Selection.queuedItems hkept
    exact (congrFun (congrArg Selection.favored hkept) q).trans
      (hseeds.unfavored q (hq.trans_eq hitems))
  have hwins : t.Wins := hu.wins.of_scores hscores
  have hidle : t.scoreChanged = false ∨ t.nonInstrumentedMode = true →
      (FavorsEnabled t.cullQueue ↔ ∀ i < v.geometry.mapSize, v.topRated i = none) := by
    intro hidle
    have hsame : t.cullQueue = t := by
      unfold cullQueue
      rw [QueueState.cullQueue_idle hidle]
    rw [hsame, ← hgeometry, ← htop]
    constructor
    · intro hfavors i hi
      by_contra hne
      obtain ⟨q, hq, hfav, -⟩ := hfavors.covered i hi hne
      exact absurd ((hunfavored q hq).symm.trans hfav) (by decide)
    · intro hnone
      exact ⟨fun q hq hfav => absurd ((hunfavored q hq).symm.trans hfav) (by decide),
        fun i hi hne => absurd (hnone i hi) hne⟩
  unfold WinnersStay
  split
  · exact hidle (.inr (hmode.trans ‹_›))
  · rename_i hinstrumented
    cases hchanged : t.scoreChanged with
    | true =>
      rw [cullQueue_favorsEnabled hwins hchanged
        (hmode.trans (Bool.eq_false_iff.mpr hinstrumented))]
      exact winners_enabled_iff hu ht
    | false =>
      have hnone : ∀ i, v.topRated i = none := by
        rw [← htop]
        exact hwins.recorded.changed hchanged
      rw [hidle (.inl hchanged), winners_eq_nil hnone]
      exact iff_of_true (fun i _ => hnone i) (.inr fun w hw => absurd hw List.not_mem_nil)

end Run

/-! ## Two seeds with one trace -/

def oneHit : Mem := fun i => if i = 0 then 1 else 0

/-- A target that hits the first index and takes longer each time it is calibrated. -/
def slowTarget : Environment where
  target _ _ := ⟨.ok, oneHit, false⟩
  sanTarget _ _ := .ok
  writeToTestcase _ len _ := len
  diffUs execs := 1000 * execs
  xxh3 bytes := (bytes.headD 0).setWidth 64

theorem classifyCounts_oneHit (g : MapGeometry) : classifyCounts g oneHit = oneHit := by
  funext i
  rw [classifyCounts_apply]
  unfold oneHit
  split <;> split <;> rfl

/-- The calibration of a seed whose runs all leave this trace. -/
def slowCalibration (q : ℕ) (s : Startup) : AflState.Calibration :=
  (AflState.steady {} slowTarget oneHit q s.toAflState AflState.calCycles).finish {} slowTarget q 0
    true

theorem okMode_mem : ({} : Fuzzer.Config).crashMode = .ok ∨
    ({} : Fuzzer.Config).crashMode = .crash :=
  .inl rfl

def plainOptions : Options := { crashMode_mem := okMode_mem }

/-- A seed goes through the dry run. -/
def slowSeed (q : ℕ) (s : Startup) : Except Stop Startup :=
  let c := slowCalibration q s
  judge plainOptions q c.fault { s with
    toAflState := c.conclude q
    seedResults := s.seedResults ++ [(q, c.fault)] }

/-- What a seed has to meet for that. -/
def ready (q : ℕ) (s : Startup) : Bool :=
  s.schedule == .explore && !s.stopSoon && (s.queueBuf q).execCksum == 0 &&
    s.countBytes oneHit != 0 && s.hash64 slowTarget oneHit != 0

theorem conclude_stopSoon (q : ℕ) (c : AflState.Calibration) :
    (c.conclude q).stopSoon = c.afl.stopSoon := by
  unfold AflState.Calibration.conclude
  dsimp only
  split <;> split <;> rfl

theorem drySeed_slowTarget {q : ℕ} {s : Startup} (h : ready q s = true) :
    s.drySeed plainOptions slowTarget q = slowSeed q s := by
  simp only [ready, Bool.and_eq_true, beq_iff_eq, bne_iff_ne, Bool.not_eq_true'] at h
  obtain ⟨⟨⟨⟨hschedule, hstop⟩, hcksum⟩, hcount⟩, hhash⟩ := h
  have hsteady : AflState.SteadyRuns {} slowTarget oneHit q s.toAflState :=
    ⟨fun _ _ => rfl, rfl, rfl, classifyCounts_oneHit _, hstop, hcksum, hcount, hhash⟩
  have hcase : s.calibrateCase plainOptions.config slowTarget q 0 true =
      ((slowCalibration q s).fault, (slowCalibration q s).conclude q) :=
    hsteady.calibrateCase 0 true
  have hkept : ((slowCalibration q s).conclude q).schedule = .explore := by
    have hframe := @AflState.calibrateCase_frame plainOptions.config slowTarget q 0 true
      s.toAflState
    rw [hcase] at hframe
    exact (congrArg Fuzzer.Frame.schedule hframe).trans hschedule
  have hgoes : ((slowCalibration q s).conclude q).stopSoon = false := conclude_stopSoon q _
  have hseed : s.calibrateSeed plainOptions slowTarget q =
      ((slowCalibration q s).fault, { s with toAflState := (slowCalibration q s).conclude q }) := by
    unfold calibrateSeed
    rw [hcase]
    dsimp only
    rw [hkept]
    exact if_neg (by simp [Schedule.value])
  unfold drySeed slowSeed
  rw [hseed]
  dsimp only
  rw [hgoes]
  exact if_neg Bool.false_ne_true

/-- The first seed of two. -/
def slowFirst (lens : List ℕ) : Except Stop Startup :=
  slowSeed 0 { noSeeds.addSeeds lens with calFailures := 0 }

def slowSeeds (lens : List ℕ) : Except Stop Startup := (slowFirst lens).bind (slowSeed 1)

/-- Both seeds go through, and their number is two. -/
def slowReady (lens : List ℕ) : Bool :=
  (noSeeds.addSeeds lens).queuedItems == 2 &&
    ((noSeeds.addSeeds lens).queueBuf 0).len != 0 &&
    !((noSeeds.addSeeds lens).queueBuf 0).disabled &&
    ready 0 { noSeeds.addSeeds lens with calFailures := 0 } &&
    (slowFirst lens).toOption.any (fun s =>
      !s.stopSoon && !(s.queueBuf 1).disabled && (s.queueBuf 1).len != 0 && ready 1 s) &&
    (slowSeeds lens).toOption.any fun t => !t.stopSoon && t.calFailures == 0

theorem eq_ok_of_toOption {x : Except Stop Startup} {u : Startup} (h : x.toOption = some u) :
    x = .ok u := by
  cases x with
  | error stop => exact absurd h nofun
  | ok v => exact congrArg Except.ok (Option.some.inj h)

theorem slowReady_dryRun {lens : List ℕ} (h : slowReady lens = true) :
    ∃ u, slowSeeds lens = .ok u ∧
      (noSeeds.addSeeds lens).calibrateSeeds plainOptions slowTarget = .ok u ∧
      (noSeeds.addSeeds lens).performDryRun plainOptions slowTarget = .ok u.removeDuplicates := by
  simp only [slowReady, Bool.and_eq_true, beq_iff_eq, bne_iff_ne, Bool.not_eq_true',
    Option.any_eq_true] at h
  obtain ⟨⟨⟨⟨⟨hitems, hlen⟩, henabled⟩, hready⟩, s, hs, ⟨⟨hgoes, hon⟩, hne⟩, hnext⟩,
    u, hu, hend, hfailures⟩ := h
  have hfirst : slowFirst lens = .ok s := eq_ok_of_toOption hs
  have hboth : slowSeeds lens = .ok u := eq_ok_of_toOption hu
  have hsecond : slowSeed 1 s = .ok u := by
    rw [slowSeeds, hfirst] at hboth
    exact hboth
  have hloop : seedLoop plainOptions slowTarget [0, 1]
      { noSeeds.addSeeds lens with calFailures := 0 } = .ok u := by
    rw [seedLoop, if_neg (not_or.mpr ⟨Bool.eq_false_iff.mp henabled, hlen⟩),
      drySeed_slowTarget hready]
    unfold slowFirst at hfirst
    rw [hfirst]
    dsimp only
    rw [hgoes, if_neg Bool.false_ne_true, seedLoop,
      if_neg (not_or.mpr ⟨Bool.eq_false_iff.mp hon, hne⟩), drySeed_slowTarget hnext, hsecond]
    dsimp only
    rw [hend, if_neg Bool.false_ne_true]
    rfl
  have hrange : List.range (noSeeds.addSeeds lens).queuedItems = [0, 1] := by
    rw [hitems]
    rfl
  have hforward : plainOptions.inPlaceResume = false := rfl
  refine ⟨u, hboth, ?_, ?_⟩
  · unfold calibrateSeeds seedOrder
    rw [hforward, if_neg Bool.false_ne_true, hrange]
    exact hloop
  · unfold performDryRun
    dsimp only
    rw [if_neg (by rw [hitems]; decide), hforward, if_neg Bool.false_ne_true, hrange, hloop]
    dsimp only
    rw [hend, hfailures, if_neg Bool.false_ne_true, if_neg (fun hnone => hnone.1 rfl)]

theorem slowReady_shorterFirst : slowReady [9, 10] = true := by
  decide +kernel

theorem slowReady_longerFirst : slowReady [10, 9] = true := by
  decide +kernel

/-- The faster seed is the shorter one too. -/
theorem dryRun_cull_favorsEnabled_shorterFirst : ∃ u t : Startup,
    (noSeeds.addSeeds [9, 10]).calibrateSeeds plainOptions slowTarget = .ok u ∧
      (noSeeds.addSeeds [9, 10]).performDryRun plainOptions slowTarget = .ok t ∧
        (FavorsEnabled t.cullQueue ↔ WinnersStay u) := by
  obtain ⟨u, -, hcal, hdry⟩ := slowReady_dryRun slowReady_shorterFirst
  exact ⟨u, _, hcal, hdry, dryRun_cull_favorsEnabled_iff noSeeds_initial hcal hdry⟩

/-- The faster seed has won the index and is removed, because the other one is shorter. -/
theorem longerFirst_favors_disabled : ¬ ∀ (s t : Startup) (o : Options) (e : Environment)
    (lens : List ℕ), s.Initial → (s.addSeeds lens).performDryRun o e = .ok t →
      FavorsEnabled t.cullQueue := by
  intro hclaim
  obtain ⟨u, hu, -, hdry⟩ := slowReady_dryRun slowReady_longerFirst
  have hfavors := hclaim noSeeds _ plainOptions slowTarget [10, 9] noSeeds_initial hdry
  have hchecks : (slowSeeds [10, 9]).toOption.any (fun u =>
      let t := u.removeDuplicates.cullQueue
      t.queuedItems == 2 && (t.queueBuf 0).favored && (t.queueBuf 0).disabled) = true := by
    decide +kernel
  rw [hu] at hchecks
  simp only [Except.toOption, Option.any_some, Bool.and_eq_true, beq_iff_eq] at hchecks
  obtain ⟨⟨hitems, hfavored⟩, hdisabled⟩ := hchecks
  have henabled := hfavors.enabled 0 (by rw [hitems]; decide) hfavored
  exact absurd (hdisabled.symm.trans henabled) (by decide)

end AflPlusPlus.DryRun.Startup
