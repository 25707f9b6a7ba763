import AflPlusPlus.CalibrationScores
import AflPlusPlus.DryRun
import AflPlusPlus.VariableEntries

/-!
# What a dry run changes

Rules for the loops of `perform_dry_run`, and what taking seeds out of the queue leaves alone.
-/

namespace AflPlusPlus.DryRun
open ByteWords CoverageMap FavoredSet Fuzzer

namespace Startup

/-! ## One entry is taken out -/

/-- Nothing but entry `q` has changed in the queue, and of it only whether it takes part. -/
structure Touched (q : ℕ) (s t : Startup) : Prop where
  state_eq : t.toQueueState = { s.toQueueState with
    traceBits := t.traceBits
    reinitTable := t.reinitTable
    queueBuf := t.queueBuf }
  entry_eq : t.queueBuf q = { s.queueBuf q with
    calFailed := (t.queueBuf q).calFailed
    wasFuzzed := (t.queueBuf q).wasFuzzed
    disabled := (t.queueBuf q).disabled }
  other_eq : ∀ r ≠ q, t.queueBuf r = s.queueBuf r

variable {o : Options} {e : Environment} {q : ℕ} {s t : Startup}

theorem Touched.refl (q : ℕ) (s : Startup) : Touched q s s := ⟨rfl, rfl, fun _ _ => rfl⟩

theorem Touched.trans {u : Startup} (h : Touched q s t) (h' : Touched q t u) :
    Touched q s u := by
  refine ⟨h'.state_eq.trans ?_, h'.entry_eq.trans ?_, fun r hr => ?_⟩
  · rw [h.state_eq]
  · rw [h.entry_eq]
  · exact (h'.other_eq r hr).trans (h.other_eq r hr)

theorem touched_modifyEntry (s : Startup) {f : QueueEntry → QueueEntry}
    (hf : ∀ entry, f entry = { entry with
      calFailed := (f entry).calFailed
      wasFuzzed := (f entry).wasFuzzed
      disabled := (f entry).disabled }) : Touched q s (s.modifyEntry q f) := by
  have hself : (s.modifyEntry q f).queueBuf q = f (s.queueBuf q) := Function.update_self ..
  refine ⟨rfl, ?_, fun r hr => Function.update_of_ne hr ..⟩
  rw [hself]
  exact hf _

theorem touched_retire (q : ℕ) (s : Startup) : Touched q s (s.retire q) := by
  have hmark : Touched q s (s.modifyEntry q fun entry => { entry with wasFuzzed := true }) :=
    touched_modifyEntry s fun _ => rfl
  unfold retire
  split
  · exact Touched.refl q s
  · exact ⟨rfl, hmark.entry_eq, hmark.other_eq⟩

theorem touched_disable (q : ℕ) (s : Startup) : Touched q s (s.disable q) :=
  touched_modifyEntry s fun _ => rfl

theorem timeoutSeed_touched (h : s.timeoutSeed o q = .ok t) : Touched q s t := by
  unfold timeoutSeed at h
  split at h
  · obtain rfl := Except.ok.inj h
    have hfail : Touched q s { s with calFailures := s.calFailures + 1 } :=
      ⟨rfl, rfl, fun _ _ => rfl⟩
    refine (hfail.trans (touched_modifyEntry _ ?_)).trans (touched_retire q _)
    exact fun _ => rfl
  · split at h
    · cases h
    · obtain rfl := Except.ok.inj h
      exact (touched_retire q s).trans (touched_disable q _)

theorem crashSeed_touched (h : s.crashSeed o q = .ok t) : Touched q s t := by
  have hretire := touched_retire q s
  have hoff : ∀ u : Startup, Touched q (s.retire q) u → Touched q s (u.disable q) := fun u hu =>
    (hretire.trans hu).trans (touched_disable q u)
  unfold crashSeed at h
  split at h
  · obtain rfl := Except.ok.inj h
    exact Touched.refl q s
  · split at h
    · cases h
    · dsimp only at h
      split at h
      · split at h
        · obtain rfl := Except.ok.inj h
          exact hoff _ ⟨rfl, rfl, fun _ _ => rfl⟩
        · split at h
          · obtain rfl := Except.ok.inj h
            exact hretire.trans ⟨rfl, rfl, fun _ _ => rfl⟩
          · obtain rfl := Except.ok.inj h
            exact hoff _ ⟨rfl, rfl, fun _ _ => rfl⟩
      · obtain rfl := Except.ok.inj h
        exact hoff _ ⟨rfl, rfl, fun _ _ => rfl⟩

/-- The switch touches the seed that it is about. -/
theorem judge_touched {res : Fault} (h : s.judge o q res = .ok t) : Touched q s t := by
  unfold judge at h
  cases res with
  | ok =>
    dsimp only at h
    split at h
    · cases h
    · obtain rfl := Except.ok.inj h
      exact Touched.refl q s
  | tmout => exact timeoutSeed_touched h
  | crash => exact crashSeed_touched h
  | error => cases h
  | noinst => cases h
  | nobits =>
    obtain rfl := Except.ok.inj h
    exact ⟨rfl, rfl, fun _ _ => rfl⟩

theorem Touched.scores (h : Touched q s t) : t.toQueueState.scores = s.scores := by
  have hentry : ∀ r, (t.queueBuf r).tcRef = (s.queueBuf r).tcRef ∧
      (t.queueBuf r).traceMini = (s.queueBuf r).traceMini := by
    intro r
    by_cases hr : r = q
    · rw [hr, h.entry_eq]
      exact ⟨rfl, rfl⟩
    · rw [h.other_eq r hr]
      exact ⟨rfl, rfl⟩
  rw [QueueState.scores, h.state_eq]
  simp only [hentry]
  rfl

/-! ## The loop over the seeds -/

/-- The calibration of a seed and the slot of `n_fuzz` that it gets. -/
theorem calibrateSeed_cases (o : Options) (e : Environment) (q : ℕ) (s : Startup) :
    (s.calibrateSeed o e q).1 = (s.calibrateCase o.config e q 0 true).1 ∧
    ∃ f : QueueEntry → QueueEntry,
      (∀ entry, f entry = { entry with nFuzzEntry := (f entry).nFuzzEntry }) ∧
      (s.calibrateSeed o e q).2 =
        modifyEntry { s with toAflState := (s.calibrateCase o.config e q 0 true).2 } q f := by
  unfold calibrateSeed
  dsimp only
  split
  · exact ⟨rfl, _, fun _ => rfl, rfl⟩
  · refine ⟨rfl, id, fun _ => rfl, ?_⟩
    unfold modifyEntry AflState.modifyEntry QueueState.modifyEntry
    rw [id, Function.update_eq_self]

/-- A rule for the loop: what is kept by every seed that is not skipped, with the list of the
seeds that are still to come. -/
theorem seedLoop_induct {P : List ℕ → Startup → Prop}
    (hskip : ∀ q qs s, ((s.queueBuf q).disabled = true ∨ (s.queueBuf q).len = 0) →
      P (q :: qs) s → P qs s)
    (hseed : ∀ q qs s t, ¬((s.queueBuf q).disabled = true ∨ (s.queueBuf q).len = 0) →
      P (q :: qs) s → s.drySeed o e q = .ok t → P qs t)
    {qs : List ℕ} (h : P qs s) (ht : seedLoop o e qs s = .ok t) : ∃ rest, P rest t := by
  induction qs generalizing s with
  | nil =>
    obtain rfl := Except.ok.inj ht
    exact ⟨[], h⟩
  | cons q qs ih =>
    unfold seedLoop at ht
    split at ht
    · split at ht
      · exact ih (hskip q qs s ‹_› h) ht
      · cases ht
    · rename_i hruns
      cases hdry : s.drySeed o e q with
      | error stop =>
        rw [hdry] at ht
        cases ht
      | ok u =>
        rw [hdry] at ht
        dsimp only at ht
        have hu := hseed q qs s u hruns h hdry
        split at ht
        · obtain rfl := Except.ok.inj ht
          exact ⟨qs, hu⟩
        · exact ih hu ht

/-- The two ways in which a seed is through. -/
theorem drySeed_cases (h : s.drySeed o e q = .ok t) :
    ((s.calibrateSeed o e q).2.stopSoon = true ∧ t = (s.calibrateSeed o e q).2) ∨
    ((s.calibrateSeed o e q).2.stopSoon = false ∧
      judge o q (s.calibrateSeed o e q).1 { (s.calibrateSeed o e q).2 with
        seedResults := (s.calibrateSeed o e q).2.seedResults ++ [(q, (s.calibrateSeed o e q).1)] } =
      .ok t) := by
  unfold drySeed at h
  dsimp only at h
  split at h
  · exact .inl ⟨‹_›, (Except.ok.inj h).symm⟩
  · exact .inr ⟨Bool.eq_false_iff.mpr ‹_›, h⟩

/-- The order in which the dry run takes the seeds. -/
def seedOrder (o : Options) (s : Startup) : List ℕ :=
  if o.inPlaceResume then (List.range s.queuedItems).reverse else List.range s.queuedItems

theorem mem_seedOrder : q ∈ seedOrder o s ↔ q < s.queuedItems := by
  unfold seedOrder
  split <;> simp

theorem seedOrder_nodup (o : Options) (s : Startup) : (seedOrder o s).Nodup := by
  unfold seedOrder
  split
  · exact List.nodup_reverse.mpr List.nodup_range
  · exact List.nodup_range

/-- The ways in which a dry run returns. -/
theorem performDryRun_cases (h : s.performDryRun o e = .ok t) :
    ∃ u, seedLoop o e (seedOrder o s) { s with calFailures := 0 } = .ok u ∧
      ((u.stopSoon = true ∧ t = u) ∨ (u.stopSoon = false ∧ t = u.removeDuplicates)) := by
  unfold performDryRun at h
  split at h
  · cases h
  · dsimp only at h
    cases hloop : seedLoop o e (seedOrder o s) { s with calFailures := 0 } with
    | error stop =>
      unfold seedOrder at hloop
      rw [hloop] at h
      cases h
    | ok u =>
      unfold seedOrder at hloop
      rw [hloop] at h
      dsimp only at h
      refine ⟨u, rfl, ?_⟩
      cases hstop : u.stopSoon with
      | true =>
        rw [if_pos hstop] at h
        exact .inl ⟨rfl, (Except.ok.inj h).symm⟩
      | false =>
        rw [if_neg (by simp [hstop])] at h
        split at h
        · cases h
        · exact .inr ⟨rfl, (Except.ok.inj h).symm⟩

/-! ## The search for duplicates -/

theorem takeOut_touched (q : ℕ) (s : Startup) : Touched q s ((s.retire q).disable q) :=
  (touched_retire q s).trans (touched_disable q _)

theorem duplicatesOf_induct {P : Startup → Prop} {n : ℕ}
    (hstep : ∀ t q, q < n → comparable (t.queueBuf q) = true → P t →
      P ((t.retire q).disable q)) (hq : q < n) :
    ∀ (ps : List ℕ) (t : Bool × Startup), (∀ p ∈ ps, p ≠ q ∧ p < n) →
      comparable (t.2.queueBuf q) = true → P t.2 → P (duplicatesOf q ps t).2 := by
  intro ps
  induction ps with
  | nil => exact fun _ _ _ h => h
  | cons p ps ih =>
    rintro ⟨duplicates, s⟩ hps hcomparable h
    obtain ⟨⟨hpq, hp⟩, hps⟩ := List.forall_mem_cons.mp hps
    unfold duplicatesOf
    split
    · rename_i hsame
      split
      · refine ih _ hps ?_ (hstep s p hp hsame.1 h)
        rw [(takeOut_touched p s).other_eq q hpq.symm]
        exact hcomparable
      · exact hstep s q hq hcomparable h
    · exact ih _ hps hcomparable h

/-- A rule for the removal: what taking out an entry that is compared keeps. -/
theorem removeDuplicates_induct {P : Startup → Prop}
    (hstep : ∀ t q, q < s.queuedItems → comparable (t.queueBuf q) = true → P t →
      P ((t.retire q).disable q))
    (hdone : ∀ t maxDepth queueTop, P t →
      P { t with maxDepth := maxDepth, queueTop := queueTop }) (h : P s) :
    P s.removeDuplicates := by
  have hloops : P s.duplicateLoops.2 := by
    refine List.foldlRecOn (motive := fun t : Bool × Startup => P t.2) _ _ h ?_
    intro t ht q hq
    have hlt : q < s.queuedItems - 1 := List.mem_range.mp hq
    split
    · refine duplicatesOf_induct hstep (by omega) _ _ (fun p hp => ?_) ‹_› ht
      have := List.mem_range'_1.mp hp
      omega
    · exact ht
  unfold removeDuplicates
  dsimp only
  split
  · exact hdone _ _ _ hloops
  · exact hloops

/-! ## The counts of the winners -/

theorem calibrateSeed_counted (h : s.Counted) (hq : q < s.queuedItems) :
    (s.calibrateSeed o e q).2.Counted := by
  obtain ⟨-, f, hf, heq⟩ := s.calibrateSeed_cases o e q
  rw [heq]
  refine (AflState.calibrateCase_counted o.config e h hq 0 true).of_keeps
    (QueueState.modifyEntry_keeps _ q ?_ ?_)
  · rw [hf]
  · rw [hf]
    exact fun _ => id

theorem drySeed_counted (h : s.Counted) (hq : q < s.queuedItems) (ht : s.drySeed o e q = .ok t) :
    t.Counted := by
  have hcal := calibrateSeed_counted (o := o) (e := e) h hq
  rcases drySeed_cases ht with ⟨-, rfl⟩ | ⟨-, hjudge⟩
  · exact hcal
  · exact hcal.of_keeps (QueueState.keeps_of_scores (judge_touched hjudge).scores)

theorem calibrateSeed_queuedItems (o : Options) (e : Environment) (q : ℕ) (s : Startup) :
    (s.calibrateSeed o e q).2.queuedItems = s.queuedItems := by
  obtain ⟨-, f, -, heq⟩ := s.calibrateSeed_cases o e q
  rw [heq]
  exact congrArg Frame.queuedItems
    (@AflState.calibrateCase_frame o.config e q 0 true s.toAflState)

theorem drySeed_queuedItems (ht : s.drySeed o e q = .ok t) : t.queuedItems = s.queuedItems := by
  have hcal := calibrateSeed_queuedItems o e q s
  rcases drySeed_cases ht with ⟨-, rfl⟩ | ⟨-, hjudge⟩
  · exact hcal
  · exact (congrArg Scores.queuedItems (judge_touched hjudge).scores).trans hcal

theorem removeDuplicates_scores (s : Startup) :
    s.removeDuplicates.toQueueState.scores = s.scores :=
  removeDuplicates_induct (P := fun t => t.toQueueState.scores = s.scores)
    (fun t q _ _ ht => (takeOut_touched q t).scores.trans ht) (fun _ _ _ ht => ht) rfl

theorem performDryRun_counted (h : s.Counted) (ht : s.performDryRun o e = .ok t) :
    t.Counted := by
  obtain ⟨u, hloop, hcases⟩ := performDryRun_cases ht
  obtain ⟨rest, hu, -⟩ := seedLoop_induct (s := { s with calFailures := 0 })
    (P := fun qs s => s.Counted ∧ ∀ q ∈ qs, q < s.queuedItems)
    (fun q qs s _ h => ⟨h.1, fun r hr => h.2 r (List.mem_cons_of_mem q hr)⟩)
    (fun q qs s t _ h ht => ⟨drySeed_counted h.1 (h.2 q List.mem_cons_self) ht, fun r hr =>
      (h.2 r (List.mem_cons_of_mem q hr)).trans_eq (drySeed_queuedItems ht).symm⟩)
    ⟨h, fun q hq => mem_seedOrder.mp hq⟩ hloop
  rcases hcases with ⟨-, rfl⟩ | ⟨-, rfl⟩
  · exact hu
  · exact hu.of_keeps (QueueState.keeps_of_scores (removeDuplicates_scores u))

/-! ## What the last cull has left -/

/-- The favored entries, the two values that the main loop reads besides them, and what the cull
reads of the settings. -/
structure Selection where
  queuedItems : ℕ
  favored : ℕ → Bool
  pendingFavored : ℕ
  smallestFavored : ℤ
  nonInstrumentedMode : Bool
  disableRedundant : Bool

def selection (s : Startup) : Selection where
  queuedItems := s.queuedItems
  favored q := (s.queueBuf q).favored
  pendingFavored := s.pendingFavored
  smallestFavored := s.smallestFavored
  nonInstrumentedMode := s.nonInstrumentedMode
  disableRedundant := s.disableRedundant

theorem modifyEntry_selection (s : Startup) (q : ℕ) {f : QueueEntry → QueueEntry}
    (hf : ∀ entry, (f entry).favored = entry.favored) :
    (s.modifyEntry q f).selection = s.selection := by
  have hfavored : (fun r => ((s.modifyEntry q f).queueBuf r).favored) =
      fun r => (s.queueBuf r).favored := by
    funext r
    by_cases hr : r = q
    · rw [hr]
      exact (congrArg QueueEntry.favored (Function.update_self ..)).trans (hf _)
    · exact congrArg QueueEntry.favored (Function.update_of_ne hr ..)
  rw [selection, hfavored]
  rfl

theorem Touched.selection (h : Touched q s t) : t.selection = s.selection := by
  have hfavored : (fun r => (t.queueBuf r).favored) = fun r => (s.queueBuf r).favored := by
    funext r
    by_cases hr : r = q
    · rw [hr, h.entry_eq]
    · rw [h.other_eq r hr]
  rw [Startup.selection, hfavored, h.state_eq]
  rfl

theorem calibrateSeed_selection (o : Options) (e : Environment) (q : ℕ) (s : Startup) :
    (s.calibrateSeed o e q).2.selection = s.selection := by
  obtain ⟨-, f, hf, heq⟩ := s.calibrateSeed_cases o e q
  rw [heq, modifyEntry_selection _ _ fun entry => by rw [hf]]
  exact congrArg (fun f : Frame => Selection.mk f.queuedItems (fun r => (f.entries r).favored)
    f.pendingFavored f.smallestFavored f.nonInstrumentedMode f.disableRedundant)
    (@AflState.calibrateCase_frame o.config e q 0 true s.toAflState)

theorem drySeed_selection (ht : s.drySeed o e q = .ok t) : t.selection = s.selection := by
  have hcal := calibrateSeed_selection o e q s
  rcases drySeed_cases ht with ⟨-, rfl⟩ | ⟨-, hjudge⟩
  · exact hcal
  · exact (judge_touched hjudge).selection.trans hcal

theorem seedLoop_selection {qs : List ℕ} (ht : seedLoop o e qs s = .ok t) :
    t.selection = s.selection := by
  obtain ⟨-, hsame⟩ := seedLoop_induct (P := fun _ t => t.selection = s.selection)
    (fun _ _ _ _ h => h) (fun _ _ _ _ _ h ht => (drySeed_selection ht).trans h) rfl ht
  exact hsame

theorem removeDuplicates_selection (s : Startup) : s.removeDuplicates.selection = s.selection :=
  removeDuplicates_induct (P := fun t => t.selection = s.selection)
    (fun t q _ _ ht => (takeOut_touched q t).selection.trans ht) (fun _ _ _ ht => ht) rfl

theorem performDryRun_selection (ht : s.performDryRun o e = .ok t) :
    t.selection = s.selection := by
  obtain ⟨u, hloop, hcases⟩ := performDryRun_cases ht
  have hu : u.selection = s.selection := (seedLoop_selection hloop :)
  rcases hcases with ⟨-, rfl⟩ | ⟨-, rfl⟩
  · exact hu
  · exact (removeDuplicates_selection u).trans hu

end Startup

end AflPlusPlus.DryRun
