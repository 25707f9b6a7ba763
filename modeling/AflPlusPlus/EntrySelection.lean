import AflPlusPlus.DuplicateSeedsCull
import AflPlusPlus.FastResumeScheduling

/-!
# The choice of the next entry

The main loop of `afl-fuzz.c` goes to the entry `smallest_favored` as long as favored entries are
pending. The index is set by `cull_queue`, given up by `fuzz_one` when it has fuzzed a favored
entry, and zero before the first cull.
-/

namespace AflPlusPlus.EntrySelection
open ByteWords CoverageMap FavoredSet Fuzzer DryRun FastResume TransitionSystems

/-- The fuzzer in its main loop. -/
structure MainLoop extends AflState where
  pendingNotFuzzed : BitVec 32 := 0
  activeItems : BitVec 32 := 0
  oldSeedSelection : Bool := false
  currentEntry : ℕ := 0
  queueCur : Option ℕ := none

namespace MainLoop

def modifyEntry (s : MainLoop) (q : ℕ) (f : QueueEntry → QueueEntry) : MainLoop :=
  { s with toAflState := s.toAflState.modifyEntry q f }

def addToQueue (len : ℕ) (s : MainLoop) : MainLoop :=
  { s with
    toQueueState := s.toQueueState.addToQueue len (s.curDepth + 1)
    pendingNotFuzzed := s.pendingNotFuzzed + 1
    activeItems := s.activeItems + 1 }

/-- The end of `trim_case` for an input that has become shorter. -/
def trimmed (q len : ℕ) (cleanTrace : Mem) (s : MainLoop) : MainLoop :=
  let s := s.modifyEntry q fun entry => { entry with len := len }
  let s := { s with traceBits := cleanTrace }
  { s with toQueueState := s.toQueueState.updateBitmapScore q true }

/-- The schedule of the next cycle. -/
def cycleSchedule (schedule : Schedule) (traceOf : ℕ → Mem) (s : MainLoop) : MainLoop :=
  { s with toQueueState :=
      { s.toQueueState with schedule := schedule }.recalculateAllScores traceOf }

/-- The first entry of a cycle when the seeds are taken in their order. -/
def rewind (seekTo : ℕ) (s : MainLoop) : MainLoop :=
  let first := ((List.range s.queuedItems).find? fun i => !(s.queueBuf i).disabled).getD 0
  let entry := if seekTo ≠ 0 then seekTo else first
  { s with currentEntry := entry, queueCur := some entry }

/-- The entry after the current one when the seeds are taken in their order. -/
def advance (s : MainLoop) : MainLoop :=
  let rest := List.range' (s.currentEntry + 1) (s.queuedItems - (s.currentEntry + 1))
  match rest.find? fun i => !(s.queueBuf i).disabled with
  | some i => { s with currentEntry := i, queueCur := some i }
  | none => { s with currentEntry := s.queuedItems, queueCur := none }

/-- The favored entries decide where the loop goes next. -/
def Consults (s : MainLoop) : Prop :=
  s.oldSeedSelection = false ∧ s.pendingFavored ≠ 0 ∧ 0 ≤ s.smallestFavored

instance (s : MainLoop) : Decidable s.Consults := inferInstanceAs (Decidable (_ ∧ _ ∧ _))

/-- The choice of an entry; `drawn` is taken from the alias table. -/
def selectEntry (drawn : ℕ) (s : MainLoop) : MainLoop :=
  if s.oldSeedSelection then s
  else
    let entry := if s.Consults then s.smallestFavored.toNat else drawn
    { s with currentEntry := entry, queueCur := some entry }

/-- The part of `fuzz_one` behind the label `abandon_entry`. -/
def abandonEntry (q : ℕ) (s : MainLoop) : MainLoop :=
  let s :=
    if !s.stopSoon ∧ (s.queueBuf q).calFailed = 0 ∧ !(s.queueBuf q).wasFuzzed ∧
        !(s.queueBuf q).disabled then
      let s := { s.modifyEntry q (fun entry => { entry with wasFuzzed := true }) with
        pendingNotFuzzed := s.pendingNotFuzzed - 1
        reinitTable := true }
      if (s.queueBuf q).favored then
        { s with pendingFavored := decU32 s.pendingFavored, smallestFavored := -1 }
      else s
    else s
  s.modifyEntry q fun entry => { entry with fuzzLevel := entry.fuzzLevel + 1 }

/-! ## How the main loop is entered -/

/-- A fresh start or a resume in place with its dry run, the same without the dry run, and a
session that finds `fastresume.bin`. -/
inductive Start
  | dryRun (s : Startup) (lens : List ℕ)
  | uncalibrated (s : Startup) (lens : List ℕ)
  | fastResume (s : Session) (options : ScanOptions) (depth : ℕ) (dir : Directory)
      (bin : FastResumeBin)

def ofStartup (oldSeedSelection : Bool) (s : Startup) : MainLoop :=
  { toAflState := s.toAflState
    pendingNotFuzzed := s.pendingNotFuzzed
    activeItems := s.activeItems
    oldSeedSelection := oldSeedSelection }

def ofSession (oldSeedSelection : Bool) (s : Session) : MainLoop :=
  { toQueueState := s.queue
    virginBits := s.virginBits
    virginTmout := s.virginTmout
    virginCrash := s.virginCrash
    varBytes := s.varBytes
    queuedVariable := s.queuedVariable
    totalBitmapSize := s.totalBitmapSize
    totalBitmapEntries := s.totalBitmapEntries
    pendingNotFuzzed := BitVec.ofNat 32 s.pendingNotFuzzed
    activeItems := BitVec.ofNat 32 s.activeItems
    oldSeedSelection := oldSeedSelection }

/-- The state before the first `cull_queue`. -/
def Start.state (o : Options) (e : Environment) (oldSeedSelection : Bool) :
    Start → Option MainLoop
  | .dryRun s lens =>
    ((s.addSeeds lens).performDryRun o e).toOption.map (ofStartup oldSeedSelection)
  | .uncalibrated s lens => some (ofStartup oldSeedSelection (s.addSeeds lens))
  | .fastResume s options depth dir bin =>
    (s.resume options depth dir bin).map (ofSession oldSeedSelection)

/-- `afl_state_init` clears the whole state. -/
def Start.Initialised : Start → Prop
  | .dryRun s _ | .uncalibrated s _ =>
    s.Initial ∧ s.pendingFavored = 0 ∧ s.smallestFavored = 0
  | .fastResume s _ _ _ _ => s.Starting ∧ s.queue.smallestFavored = 0

/-! ## Steps -/

/-- What happens to the queue in the main loop. -/
inductive Op
  | cull
  | add (len : ℕ)
  | calibrate (q handicap : ℕ) (fromQueue : Bool)
  | trim (q len : ℕ) (cleanTrace : Mem)
  | cycle (schedule : Schedule) (traceOf : ℕ → Mem)
  | noteFrequency (cksum : BitVec 64)
  | rewind (seekTo : ℕ)
  | advance
  | select (drawn : ℕ)
  | abandon

def step (cfg : Config) (e : Environment) (s : MainLoop) : Op → Option MainLoop
  | .cull => some { s with toQueueState := s.toQueueState.cullQueue }
  | .add len => some (s.addToQueue len)
  | .calibrate q handicap fromQueue =>
    if q < s.queuedItems then
      some { s with toAflState := (s.calibrateCase cfg e q handicap fromQueue).2 }
    else none
  | .trim q len cleanTrace =>
    if q < s.queuedItems then some (s.trimmed q len cleanTrace) else none
  | .cycle schedule traceOf => some (s.cycleSchedule schedule traceOf)
  | .noteFrequency cksum => some { s with toAflState := s.toAflState.noteFrequency cksum }
  | .rewind seekTo => some (s.rewind seekTo)
  | .advance => some s.advance
  | .select drawn => if drawn < s.queuedItems then some (s.selectEntry drawn) else none
  | .abandon => s.queueCur.map fun q => s.abandonEntry q

end MainLoop

/-! ## What the choice depends on -/

/-- An entry that the main loop should go to. -/
structure Pickable (s : QueueState) (q : ℕ) : Prop where
  lt : q < s.queuedItems
  favored : (s.queueBuf q).favored = true
  unfuzzed : (s.queueBuf q).wasFuzzed = false
  enabled : (s.queueBuf q).disabled = false

structure Steering where
  queuedItems : ℕ
  pendingFavored : ℕ
  smallestFavored : ℤ
  favored : ℕ → Bool
  wasFuzzed : ℕ → Bool
  disabled : ℕ → Bool

def steering (s : QueueState) : Steering where
  queuedItems := s.queuedItems
  pendingFavored := s.pendingFavored
  smallestFavored := s.smallestFavored
  favored q := (s.queueBuf q).favored
  wasFuzzed q := (s.queueBuf q).wasFuzzed
  disabled q := (s.queueBuf q).disabled

/-- The invariant of the main loop. -/
structure Steered (s : QueueState) : Prop where
  addressed : s.Addressed
  pick : s.smallestFavored < 0 ∨ s.pendingFavored = 0 ∨ Pickable s s.smallestFavored.toNat

section Steering
variable {s t : QueueState} {q i : ℕ}

theorem Pickable.of_steering (h : Pickable s q) (hst : steering t = steering s) :
    Pickable t q where
  lt := h.lt.trans_eq (congrArg Steering.queuedItems hst).symm
  favored := (congrFun (congrArg Steering.favored hst) q).trans h.favored
  unfuzzed := (congrFun (congrArg Steering.wasFuzzed hst) q).trans h.unfuzzed
  enabled := (congrFun (congrArg Steering.disabled hst) q).trans h.enabled

theorem Steered.of_steering (h : Steered s) (hst : steering t = steering s)
    (hin : t.Addressed) : Steered t where
  addressed := hin
  pick := by
    have hsmallest : t.smallestFavored = s.smallestFavored :=
      congrArg Steering.smallestFavored hst
    have hpending : t.pendingFavored = s.pendingFavored := congrArg Steering.pendingFavored hst
    rw [hsmallest, hpending]
    exact h.pick.imp_right (Or.imp_right fun hp => hp.of_steering hst)

theorem steering_of_kept (hitems : t.queuedItems = s.queuedItems)
    (hpending : t.pendingFavored = s.pendingFavored)
    (hsmallest : t.smallestFavored = s.smallestFavored)
    (hkept : ∀ r, keptFields (t.queueBuf r) = keptFields (s.queueBuf r)) :
    steering t = steering s := by
  have hfavored : (fun r => (t.queueBuf r).favored) = fun r => (s.queueBuf r).favored :=
    funext fun r => congrArg KeptFields.favored (hkept r)
  have hfuzzed : (fun r => (t.queueBuf r).wasFuzzed) = fun r => (s.queueBuf r).wasFuzzed :=
    funext fun r => congrArg KeptFields.wasFuzzed (hkept r)
  have hdisabled : (fun r => (t.queueBuf r).disabled) = fun r => (s.queueBuf r).disabled :=
    funext fun r => congrArg KeptFields.disabled (hkept r)
  rw [steering, hfavored, hfuzzed, hdisabled, hitems, hpending, hsmallest]
  rfl

theorem modifyEntry_steering (s : QueueState) (q : ℕ) {f : QueueEntry → QueueEntry}
    (hf : ∀ entry, (f entry).favored = entry.favored ∧ (f entry).wasFuzzed = entry.wasFuzzed ∧
      (f entry).disabled = entry.disabled) : steering (s.modifyEntry q f) = steering s := by
  have hentry : ∀ r, ((s.modifyEntry q f).queueBuf r).favored = (s.queueBuf r).favored ∧
      ((s.modifyEntry q f).queueBuf r).wasFuzzed = (s.queueBuf r).wasFuzzed ∧
      ((s.modifyEntry q f).queueBuf r).disabled = (s.queueBuf r).disabled := by
    intro r
    by_cases hr : r = q
    · rw [hr, QueueState.modifyEntry_self]
      exact hf _
    · rw [QueueState.modifyEntry_of_ne _ _ hr]
      exact ⟨rfl, rfl, rfl⟩
  unfold steering
  simp only [hentry]
  rfl

theorem contest_steering (s : QueueState) (mine : ℕ × ℕ) (q i : ℕ) :
    steering (s.contest mine q i) = steering s := by
  obtain ⟨-, -, -, -, hpending, hsmallest⟩ := AflState.contest_settings s mine q i
  exact steering_of_kept (QueueState.contest_queuedItems ..) hpending hsmallest
    (AflState.contest_kept s mine q i)

theorem addressed_contest (h : s.Addressed) (mine : ℕ × ℕ) (hq : q < s.queuedItems) :
    (s.contest mine q i).Addressed where
  winner_lt j w hw := by
    rw [QueueState.contest_queuedItems]
    rcases QueueState.contest_winner hw with rfl | hold
    · exact hq
    · exact h.winner_lt j w hold
  candidate_lt j w hw := by
    rw [QueueState.contest_queuedItems]
    rw [QueueState.contest_candidates] at hw
    exact h.candidate_lt j w hw

theorem Steered.contest (h : Steered s) (mine : ℕ × ℕ) (hq : q < s.queuedItems) :
    Steered (s.contest mine q i) :=
  h.of_steering (contest_steering s mine q i) (addressed_contest h.addressed mine hq)

theorem Steered.updateBitmapScore (h : Steered s) (hq : q < s.queuedItems) (haveTrace : Bool) :
    Steered (s.updateBitmapScore q haveTrace) :=
  QueueState.updateBitmapScore_induct s q haveTrace h fun _ ht _ hn _ _ _ _ _ =>
    ht.contest _ (hn ▸ hq)

theorem addressed_updateBitmapScore (h : s.Addressed) (hq : q < s.queuedItems)
    (haveTrace : Bool) : (s.updateBitmapScore q haveTrace).Addressed :=
  QueueState.updateBitmapScore_induct s q haveTrace h fun _ ht _ hn _ _ _ _ _ =>
    addressed_contest ht _ (hn ▸ hq)

theorem addressed_of_scores (h : s.Addressed) (hs : t.scores = s.scores) : t.Addressed where
  winner_lt i w hw := by
    have htop : t.topRated = s.topRated := congrArg Scores.topRated hs
    have hitems : t.queuedItems = s.queuedItems := congrArg Scores.queuedItems hs
    rw [hitems]
    exact h.winner_lt i w (htop ▸ hw)
  candidate_lt i w hw := by
    have hcandidates : t.topRatedCandidates = s.topRatedCandidates :=
      congrArg Scores.candidates hs
    have hitems : t.queuedItems = s.queuedItems := congrArg Scores.queuedItems hs
    rw [hitems]
    exact h.candidate_lt i w (hcandidates ▸ hw)

theorem Steered.calibrateCase {s : AflState} (h : Steered s.toQueueState) (cfg : Config)
    (e : Environment) (hq : q < s.queuedItems) (handicap : ℕ) (fromQueue : Bool) :
    Steered (s.calibrateCase cfg e q handicap fromQueue).2.toQueueState := by
  have hframe := @AflState.calibrateCase_frame cfg e q handicap fromQueue s
  refine h.of_steering (steering_of_kept (congrArg Fuzzer.Frame.queuedItems hframe :)
    (congrArg Fuzzer.Frame.pendingFavored hframe :)
    (congrArg Fuzzer.Frame.smallestFavored hframe :)
    fun r => (congrFun (congrArg Fuzzer.Frame.entries hframe) r :)) ?_
  rcases AflState.calibrateCase_scores cfg e q handicap fromQueue s with
    hsame | ⟨-, u, hu, hscored⟩
  · exact addressed_of_scores h.addressed hsame
  · have hitems : q < u.queuedItems := hq.trans_eq (congrArg Scores.queuedItems hu).symm
    exact addressed_of_scores
      (addressed_updateBitmapScore (addressed_of_scores h.addressed hu) hitems true) hscored

theorem Steered.enroll (h : Steered s) (traceOf : ℕ → Mem) (hq : q < s.queuedItems) :
    Steered (QueueState.enroll traceOf s q) := by
  refine h.of_steering ?_ ⟨?_, fun i r hr => ?_⟩
  · unfold QueueState.enroll
    split <;> rfl
  · simpa using h.addressed.winner_lt
  · rw [QueueState.enroll_queuedItems]
    rcases QueueState.mem_enroll_candidates hr with hold | ⟨rfl, -⟩
    · exact h.addressed.candidate_lt i r hold
    · exact hq

theorem Steered.recalculate (h : Steered s) (traceOf : ℕ → Mem) :
    Steered (s.recalculateAllScores traceOf) := by
  unfold QueueState.recalculateAllScores
  have henrolled : Steered (s.unscored.foldl (QueueState.enroll traceOf) s) := by
    refine (List.foldlRecOn (motive := fun t : QueueState =>
      Steered t ∧ t.queuedItems = s.queuedItems) _ _ ⟨h, rfl⟩ ?_).1
    intro t ht q hq
    have hlt : q < s.queuedItems := List.mem_range.mp (List.mem_filter.mp hq).1
    exact ⟨ht.1.enroll traceOf (hlt.trans_eq ht.2.symm),
      (QueueState.enroll_queuedItems ..).trans ht.2⟩
  generalize s.unscored.foldl (QueueState.enroll traceOf) s = t at henrolled
  refine (List.foldlRecOn (motive := fun u : QueueState =>
    Steered u ∧ u.topRatedCandidates = t.topRatedCandidates) _ _ ⟨henrolled, rfl⟩ ?_).1
  intro u hu p hp
  have hq := hu.1.addressed.candidate_lt p.2 p.1 (hu.2 ▸ (QueueState.mem_rescorings.mp hp).2)
  exact ⟨hu.1.contest _ hq, (QueueState.contest_candidates ..).trans hu.2⟩

/-- The first of the picks that is still to be fuzzed is not disabled. -/
def FirstPickEnabled (s : QueueState) : Prop :=
  s.scoreChanged = true → s.nonInstrumentedMode = false →
    ∀ w, (s.winners.find? fun w => !(s.queueBuf w).wasFuzzed) = some w →
      (s.queueBuf w).disabled = false

theorem Steered.cullQueue (h : Steered s) (hmeet : FirstPickEnabled s) :
    Steered s.cullQueue := by
  have hkeeps := QueueState.cullQueue_keeps s
  have hin : s.cullQueue.Addressed := by
    refine ⟨fun i w hw => ?_, fun i w hw => ?_⟩
    · rw [hkeeps.topRated_eq] at hw
      rw [hkeeps.queuedItems_eq]
      exact h.addressed.winner_lt i w hw
    · rw [hkeeps.candidates_eq] at hw
      rw [hkeeps.queuedItems_eq]
      exact h.addressed.candidate_lt i w hw
  by_cases heffect : s.scoreChanged = true ∧ s.nonInstrumentedMode = false
  · obtain ⟨hchanged, hmode⟩ := heffect
    refine ⟨hin, ?_⟩
    rw [QueueState.cullQueue_smallest h.addressed hchanged hmode, QueueState.firstPending]
    cases hfind : s.winners.find? fun w => !(s.queueBuf w).wasFuzzed with
    | none => exact .inl (by decide)
    | some w =>
      have hmem := List.mem_of_find?_eq_some hfind
      have hlt := QueueState.mem_winners h.addressed hmem
      have hentry := QueueState.cullQueue_entry h.addressed hchanged hmode hlt
      have hfavored : decide (w ∈ s.winners) = true := decide_eq_true hmem
      have hunfuzzed : (s.queueBuf w).wasFuzzed = false := by
        simpa using List.find?_some hfind
      refine .inr (.inr ?_)
      dsimp only
      rw [Int.toNat_natCast]
      refine ⟨hlt.trans_eq hkeeps.queuedItems_eq.symm, ?_, ?_, ?_⟩
      · rw [hentry, Startup.marked_favored_eq]
        exact hfavored
      · rw [hentry]
        unfold QueueState.marked
        split <;> exact hunfuzzed
      · rw [hentry, (Startup.marked_favored _ hfavored).1]
        exact hmeet hchanged hmode w hfind
  · have hidle : s.scoreChanged = false ∨ s.nonInstrumentedMode = true := by
      by_contra hcontra
      obtain ⟨hchanged, hmode⟩ := not_or.mp hcontra
      exact heffect ⟨by simpa using hchanged, by simpa using hmode⟩
    rwa [QueueState.cullQueue_idle hidle]

theorem Steered.addToQueue (h : Steered s) (len depth : ℕ) :
    Steered (s.addToQueue len depth) where
  addressed := ⟨fun i w hw => (h.addressed.winner_lt i w hw).trans s.queuedItems.lt_succ_self,
    fun i w hw => (h.addressed.candidate_lt i w hw).trans s.queuedItems.lt_succ_self⟩
  pick := by
    refine h.pick.imp_right (Or.imp_right fun hp => ?_)
    have hold : (s.addToQueue len depth).queueBuf s.smallestFavored.toNat =
        s.queueBuf s.smallestFavored.toNat := Function.update_of_ne hp.lt.ne ..
    change Pickable _ s.smallestFavored.toNat
    refine ⟨hp.lt.trans s.queuedItems.lt_succ_self, ?_, ?_, ?_⟩
    · rw [hold]
      exact hp.favored
    · rw [hold]
      exact hp.unfuzzed
    · rw [hold]
      exact hp.enabled

end Steering

namespace MainLoop

section Step
variable {o : Options} {cfg : Config} {e : Environment} {s t : MainLoop} {q : ℕ}

/-- When an entry has been fuzzed the index is given up, unless it is that of another entry. -/
theorem steered_abandonEntry (h : Steered s.toQueueState) :
    Steered (s.abandonEntry q).toQueueState := by
  have hlevel : ∀ u : MainLoop, Steered u.toQueueState → Steered (u.modifyEntry q
      fun entry => { entry with fuzzLevel := entry.fuzzLevel + 1 }).toQueueState := by
    intro u hu
    exact hu.of_steering (modifyEntry_steering u.toQueueState q fun _ => ⟨rfl, rfl, rfl⟩)
      ⟨hu.addressed.winner_lt, hu.addressed.candidate_lt⟩
  unfold abandonEntry
  refine hlevel _ ?_
  split
  · rename_i hfuzz
    have hin : ∀ pending smallest, QueueState.Addressed { s.toQueueState.modifyEntry q
        (fun entry => { entry with wasFuzzed := true }) with
          reinitTable := true, pendingFavored := pending, smallestFavored := smallest } :=
      fun _ _ => ⟨h.addressed.winner_lt, h.addressed.candidate_lt⟩
    dsimp only
    split
    · exact ⟨hin _ _, .inl (show (-1 : ℤ) < 0 by decide)⟩
    · rename_i hunfavored
      refine ⟨hin _ _, h.pick.imp_right (Or.imp_right fun hp => ?_)⟩
      have hne : s.smallestFavored.toNat ≠ q := by
        rintro rfl
        have hother : ¬(s.queueBuf s.smallestFavored.toNat).favored = true := by
          change ¬(Function.update s.queueBuf s.smallestFavored.toNat _ _).favored = true
            at hunfavored
          rwa [Function.update_self] at hunfavored
        exact hother hp.favored
      have hold := QueueState.modifyEntry_of_ne s.toQueueState
        (fun entry => { entry with wasFuzzed := true }) hne
      refine ⟨hp.lt, ?_, ?_, ?_⟩
      · exact (congrArg QueueEntry.favored hold).trans hp.favored
      · exact (congrArg QueueEntry.wasFuzzed hold).trans hp.unfuzzed
      · exact (congrArg QueueEntry.disabled hold).trans hp.enabled
  · exact h

/-- The condition on a step: a cull does not send the loop to a disabled entry. -/
def Meets (s : MainLoop) : Op → Prop
  | .cull => FirstPickEnabled s.toQueueState
  | _ => True

theorem steered_step {op : Op} (h : Steered s.toQueueState) (hmeet : Meets s op)
    (ht : step cfg e s op = some t) : Steered t.toQueueState := by
  cases op with
  | cull =>
    obtain rfl := Option.some.inj ht
    exact h.cullQueue hmeet
  | add len =>
    obtain rfl := Option.some.inj ht
    exact h.addToQueue len _
  | calibrate q handicap fromQueue =>
    obtain ⟨hq, ht⟩ := Option.ite_none_right_eq_some.mp ht
    obtain rfl := Option.some.inj ht
    exact h.calibrateCase cfg e hq handicap fromQueue
  | trim q len cleanTrace =>
    obtain ⟨hq, ht⟩ := Option.ite_none_right_eq_some.mp ht
    obtain rfl := Option.some.inj ht
    have hlen : Steered { s.toQueueState.modifyEntry q
        (fun entry => { entry with len := len }) with traceBits := cleanTrace } :=
      h.of_steering (modifyEntry_steering s.toQueueState q
        (f := fun entry => { entry with len := len }) fun _ => ⟨rfl, rfl, rfl⟩)
        ⟨h.addressed.winner_lt, h.addressed.candidate_lt⟩
    exact hlen.updateBitmapScore hq true
  | cycle schedule traceOf =>
    obtain rfl := Option.some.inj ht
    have hschedule : Steered { s.toQueueState with schedule := schedule } :=
      h.of_steering rfl ⟨h.addressed.winner_lt, h.addressed.candidate_lt⟩
    exact hschedule.recalculate traceOf
  | noteFrequency cksum =>
    obtain rfl := Option.some.inj ht
    change Steered (s.toAflState.noteFrequency cksum).toQueueState
    unfold AflState.noteFrequency
    dsimp only
    split
    · exact h.of_steering rfl ⟨h.addressed.winner_lt, h.addressed.candidate_lt⟩
    · exact h
  | rewind seekTo =>
    obtain rfl := Option.some.inj ht
    exact h
  | advance =>
    obtain rfl := Option.some.inj ht
    unfold advance
    dsimp only
    split <;> exact h
  | select drawn =>
    obtain ⟨-, ht⟩ := Option.ite_none_right_eq_some.mp ht
    obtain rfl := Option.some.inj ht
    unfold selectEntry
    split <;> exact h
  | abandon =>
    obtain ⟨q, -, rfl⟩ := Option.map_eq_some_iff.mp ht
    exact steered_abandonEntry h

end Step

/-! ## The starts -/

/-- The condition on a saved session: nothing is pending in it, or its first entry is. -/
def FirstPending (bin : FastResumeBin) : Prop :=
  (∀ r ∈ bin.entries, r.1.favored = true → r.1.wasFuzzed = true) ∨
    ∃ r, bin.entries.head? = some r ∧ r.1.favored = true ∧ r.1.wasFuzzed = false ∧
      r.1.disabled = false

def Start.Meets : Start → Prop
  | .fastResume _ _ _ _ bin => FirstPending bin
  | _ => True

theorem addSeeds_pending (s : Startup) (lens : List ℕ) :
    (s.addSeeds lens).pendingFavored = s.pendingFavored :=
  List.foldlRecOn (motive := fun t : Startup => t.pendingFavored = s.pendingFavored) _ _ rfl
    fun _ ht _ _ => ht

/-- What a resumed session has from its file, and what it has from before. -/
structure FromFile (start : Session) (bin : FastResumeBin) (t : Session) : Prop where
  topRated_eq : t.queue.topRated = start.queue.topRated
  candidates_eq : t.queue.topRatedCandidates = start.queue.topRatedCandidates
  smallest_eq : t.queue.smallestFavored = start.queue.smallestFavored
  queuedItems_eq : t.queue.queuedItems = bin.entries.length
  pending_eq : t.queue.pendingFavored = start.queue.pendingFavored +
    bin.entries.countP fun r => r.1.favored && !r.1.wasFuzzed
  first_eq : ∀ r, bin.entries.head? = some r → t.record 0 = r.1

theorem fromFile {start t : Session} {options : ScanOptions} {depth : ℕ} {dir : Directory}
    {bin : FastResumeBin} (h : start.resume options depth dir bin = some t) :
    FromFile start bin t := by
  unfold Session.resume Session.loadEntries at h
  have hadded := Session.added (s := start) (readTestcases options depth dir)
  generalize readTestcases options depth dir = files at h hadded
  have hfound : (files.foldl Session.addTestcase start).queue.topRatedCandidates =
        start.queue.topRatedCandidates ∧
      (files.foldl Session.addTestcase start).queue.smallestFavored =
        start.queue.smallestFavored :=
    List.foldlRecOn (motive := fun u : Session =>
      u.queue.topRatedCandidates = start.queue.topRatedCandidates ∧
        u.queue.smallestFavored = start.queue.smallestFavored) _ _ ⟨rfl, rfl⟩ fun u hu _ _ => hu
  obtain ⟨hitems, ht⟩ := Option.ite_none_right_eq_some.mp h
  obtain rfl := Option.some.inj ht
  have hloaded := Session.loaded
    (s := (files.foldl Session.addTestcase start).readMaps bin) bin.entries 0
  have hrest : ∀ (entries : List ((EntryRecord × Option (List Byte)) × ℕ)) (u : Session),
      (entries.foldl Session.loadEntry u).queue.topRatedCandidates =
          u.queue.topRatedCandidates ∧
        (entries.foldl Session.loadEntry u).queue.smallestFavored = u.queue.smallestFavored :=
    fun entries u => List.foldlRecOn (motive := fun v : Session =>
      v.queue.topRatedCandidates = u.queue.topRatedCandidates ∧
        v.queue.smallestFavored = u.queue.smallestFavored) _ _ ⟨rfl, rfl⟩ fun _ hv _ _ => hv
  exact
    { topRated_eq := hloaded.scores.topRated_eq.trans hadded.scores.topRated_eq
      candidates_eq := (hrest _ _).1.trans hfound.1
      smallest_eq := (hrest _ _).2.trans hfound.2
      queuedItems_eq := hloaded.queuedItems_eq.trans hitems.symm
      pending_eq := hloaded.pendingFavored_eq.trans
        (congrArg (· + _) hadded.pendingFavored_eq)
      first_eq := fun r hr => hloaded.record_eq 0 r (List.head?_eq_getElem? ▸ hr) }

theorem steered_start {o : Options} {e : Environment} {start : Start} {s : MainLoop}
    {oldSeedSelection : Bool} (hinit : start.Initialised) (hmeet : start.Meets)
    (hs : start.state o e oldSeedSelection = some s) : Steered s.toQueueState := by
  cases start with
  | dryRun u lens =>
    obtain ⟨hinit, hpending, -⟩ := hinit
    obtain ⟨t, ht, rfl⟩ := Option.map_eq_some_iff.mp hs
    have ht : (u.addSeeds lens).performDryRun o e = .ok t := Startup.eq_ok_of_toOption ht
    have hcounted := Startup.performDryRun_counted
      (hinit.unscored.addSeeds lens).fresh.counted ht
    have hkept : t.pendingFavored = (u.addSeeds lens).pendingFavored :=
      congrArg Startup.Selection.pendingFavored (Startup.performDryRun_selection ht)
    have hzero := hkept.trans ((addSeeds_pending u lens).trans hpending)
    exact ⟨hcounted.addressed, .inr (.inl hzero)⟩
  | uncalibrated u lens =>
    obtain ⟨hinit, hpending, -⟩ := hinit
    obtain rfl := Option.some.inj hs
    exact ⟨(hinit.unscored.addSeeds lens).fresh.counted.addressed,
      .inr (.inl ((addSeeds_pending u lens).trans hpending))⟩
  | fastResume u options depth dir bin =>
    obtain ⟨hinit, hsmallest⟩ := hinit
    obtain ⟨t, ht, rfl⟩ := Option.map_eq_some_iff.mp hs
    have hfile := fromFile ht
    refine ⟨⟨fun i w hw => ?_, fun i w hw => ?_⟩, .inr ?_⟩
    · change t.queue.topRated i = some w at hw
      rw [hfile.topRated_eq, hinit.fresh.topRated_eq] at hw
      exact absurd hw nofun
    · change w ∈ t.queue.topRatedCandidates i at hw
      rw [hfile.candidates_eq, hinit.fresh.candidates_eq] at hw
      exact absurd hw List.not_mem_nil
    · change t.queue.pendingFavored = 0 ∨ Pickable t.queue t.queue.smallestFavored.toNat
      rw [hfile.smallest_eq, hsmallest, hfile.pending_eq, hinit.pendingFavored_eq, Nat.zero_add]
      rcases hmeet with hfuzzed | ⟨r, hr, hfavored, hunfuzzed, henabled⟩
      · refine .inl (List.countP_eq_zero.mpr fun r hr => ?_)
        cases hfavored : r.1.favored with
        | false => simp
        | true => simp [hfuzzed r hr hfavored]
      · have hrecord := hfile.first_eq r hr
        have hlt : 0 < bin.entries.length := by
          rw [List.length_pos_iff]
          rintro hnil
          rw [hnil] at hr
          exact absurd hr nofun
        exact .inr ⟨hfile.queuedItems_eq ▸ hlt,
          (congrArg EntryRecord.favored hrecord).trans hfavored,
          (congrArg EntryRecord.wasFuzzed hrecord).trans hunfuzzed,
          (congrArg EntryRecord.disabled hrecord).trans henabled⟩

/-- In a run whose steps all meet the condition, an entry that the loop takes for favored is. -/
theorem run_consults {o : Options} {e : Environment} {start : Start} {s t : MainLoop}
    {oldSeedSelection : Bool} {ops : List Op} (hinit : start.Initialised) (hmeet : start.Meets)
    (hs : start.state o e oldSeedSelection = some s)
    (hsteps : Along (step o.config e) Meets s ops) (hrun : run (step o.config e) s ops = some t)
    (hconsults : t.Consults) : Pickable t.toQueueState t.smallestFavored.toNat := by
  have hsteered := run_invariant_along (P := fun s : MainLoop => Steered s.toQueueState)
    (fun _ _ _ h hC ht => steered_step h hC ht) (steered_start hinit hmeet hs) hsteps hrun
  obtain ⟨-, hpending, hsmallest⟩ := hconsults
  rcases hsteered.pick with hnone | hzero | hpick
  · exact absurd hsmallest (not_le.mpr hnone)
  · exact absurd hzero hpending
  · exact hpick

/-! ## Two resumed sessions -/

/-- A session after `afl_state_init`. -/
def cleared : Session where
  queue := { QueueState.emptyQueue with smallestFavored := 0 }

theorem cleared_starting : cleared.Starting :=
  ⟨⟨fun _ => rfl, fun _ => rfl, fun _ => rfl, fun _ => rfl, rfl⟩, rfl, rfl, rfl, rfl, rfl, rfl⟩

/-- The next session resumes what `ops` have left. -/
def resumeOf (ops : List QueueState.Op) : Start :=
  .fastResume cleared {} 1 (Session.sessionOf ops).directory
    (Session.sessionOf ops).writeFastResume

theorem resumeOf_state {ops : List QueueState.Op} {u : Session} (o : Options) (e : Environment)
    (hu : cleared.resume {} 1 (Session.sessionOf ops).directory
      (Session.sessionOf ops).writeFastResume = some u) :
    (resumeOf ops).state o e false = some (ofSession false u) := by
  unfold resumeOf Start.state
  dsimp only
  rw [hu]
  rfl

theorem writeFastResume_head {s : Session} (h : 0 < s.queue.queuedItems) :
    s.writeFastResume.entries.head? = some (s.record 0, s.savedMini 0) := by
  obtain ⟨n, hn⟩ := Nat.exists_eq_add_of_lt h
  rw [Session.writeFastResume, hn, List.range_succ_eq_map]
  rfl

/-- A target that is not run. -/
def noTarget : Environment where
  target _ _ := ⟨.ok, fun _ => 0, false⟩
  sanTarget _ _ := .ok
  writeToTestcase _ len _ := len
  diffUs _ := 1
  xxh3 _ := 0

theorem cull_resumed {s : Session} (hchanged : s.queue.scoreChanged = false) :
    step {} noTarget (ofSession false s) .cull = some (ofSession false s) := by
  have hidle : s.queue.cullQueue = s.queue := QueueState.cullQueue_idle (.inl hchanged)
  exact congrArg (fun queue => some { ofSession false s with toQueueState := queue }) hidle

/-- Both entries are still to be fuzzed. -/
theorem run_consults_bothFavored : ∃ s t : MainLoop,
    (resumeOf Session.bothFavored).state {} noTarget false = some s ∧
      run (step {} noTarget) s [.cull] = some t ∧ t.Consults ∧
        Pickable t.toQueueState t.smallestFavored.toNat := by
  obtain ⟨u, hu⟩ := Session.sessionOf_resumes cleared_starting Session.bothFavored
    (by decide +kernel) (by decide +kernel)
  have hfile := fromFile hu
  have hchanged : u.queue.scoreChanged = false :=
    (Session.resumed cleared_starting hu).scores.scoreChanged_eq
  have hs : (resumeOf Session.bothFavored).state {} noTarget false = some (ofSession false u) :=
    resumeOf_state {} noTarget hu
  have hmeet : (resumeOf Session.bothFavored).Meets := by
    refine .inr ⟨_, writeFastResume_head (by decide +kernel), ?_⟩
    decide +kernel
  have hrun : run (step {} noTarget) (ofSession false u) [.cull] = some (ofSession false u) := by
    rw [run_cons, cull_resumed hchanged]
    rfl
  have hsteps : Along (step {} noTarget) Meets (ofSession false u) [.cull] :=
    ⟨fun h => absurd (h.symm.trans hchanged) (by decide), fun _ _ => trivial⟩
  have hconsults : (ofSession false u).Consults := by
    refine ⟨rfl, ?_, ?_⟩
    · change u.queue.pendingFavored ≠ 0
      rw [hfile.pending_eq]
      decide +kernel
    · change 0 ≤ u.queue.smallestFavored
      rw [hfile.smallest_eq]
      decide
  exact ⟨_, _, hs, hrun, hconsults, @run_consults {} noTarget (resumeOf Session.bothFavored) _ _
    false [.cull] ⟨cleared_starting, rfl⟩ hmeet hs hsteps hrun hconsults⟩

/-- Two favored entries of which the first has been fuzzed. -/
def firstFuzzed : List QueueState.Op :=
  [.add 8 1, .score 0 (QueueState.traceOn [0]) true, .add 8 1,
    .score 1 (QueueState.traceOn [1]) true,
    .adjust .explore (fun _ => 0) (fun q => ⟨8, 0, 0, 0, q == 0, false⟩), .cull]

/-- The loop goes to the entry that has been fuzzed already. -/
theorem firstFuzzed_consults : ¬ ∀ (o : Options) (e : Environment) (start : Start)
    (s t : MainLoop) (oldSeedSelection : Bool) (ops : List Op), start.Initialised →
      start.state o e oldSeedSelection = some s → run (step o.config e) s ops = some t →
        t.Consults → Pickable t.toQueueState t.smallestFavored.toNat := by
  intro hclaim
  obtain ⟨u, hu⟩ := Session.sessionOf_resumes cleared_starting firstFuzzed
    (by decide +kernel) (by decide +kernel)
  have hfile := fromFile hu
  have hchanged : u.queue.scoreChanged = false :=
    (Session.resumed cleared_starting hu).scores.scoreChanged_eq
  have hsmallest : u.queue.smallestFavored = 0 := hfile.smallest_eq
  have hconsults : (ofSession false u).Consults := by
    refine ⟨rfl, ?_, hsmallest.ge⟩
    change u.queue.pendingFavored ≠ 0
    rw [hfile.pending_eq]
    decide +kernel
  have hrun : run (step {} noTarget) (ofSession false u) [.cull, .cull] =
      some (ofSession false u) := by
    rw [run_cons, cull_resumed hchanged, Option.bind_some, run_cons, cull_resumed hchanged]
    rfl
  have hpick := hclaim {} noTarget (resumeOf firstFuzzed) _ _ false [.cull, .cull]
    ⟨cleared_starting, rfl⟩ (resumeOf_state {} noTarget hu) hrun hconsults
  have hunfuzzed : (u.queue.queueBuf u.queue.smallestFavored.toNat).wasFuzzed = false :=
    hpick.unfuzzed
  rw [hsmallest] at hunfuzzed
  have hfuzzed : (u.record 0).wasFuzzed = true := by
    rw [hfile.first_eq _ (writeFastResume_head (by decide +kernel))]
    decide +kernel
  exact absurd (hfuzzed.symm.trans hunfuzzed) (by decide)

end MainLoop

end AflPlusPlus.EntrySelection
