import AflPlusPlus.AliasSelectionSpec
import AflPlusPlus.QueueWeights

/-!
# When the probabilities are normalised

Each entry that is not disabled adds its weight to the sum. The probabilities are the weights
divided by their sum when no weight is changed after that, and the sum is not zero.
-/

namespace AflPlusPlus.QueueWeights
open ByteWords CoverageMap FavoredSet Fuzzer AliasSelection

/-! ## Handicaps

The loops change nothing of an entry but its handicap. -/

def withHandicaps (s : ScoreState) (h : ℕ → ℕ) : ScoreState :=
  { s with queueBuf := fun i => { s.queueBuf i with handicap := h i } }

section Handicaps
variable {p : Platform} {s : ScoreState} {h : ℕ → ℕ} {q : ℕ}

theorem withHandicaps_self (s : ScoreState) :
    withHandicaps s (fun i => (s.queueBuf i).handicap) = s := rfl

@[simp] theorem disabled_withHandicaps (s : ScoreState) (h : ℕ → ℕ) (i : ℕ) :
    ((withHandicaps s h).queueBuf i).disabled = (s.queueBuf i).disabled := rfl

/-- The score of an entry depends on no other handicap than its own. -/
theorem finalScore_withHandicaps (hq : h q = (s.queueBuf q).handicap) :
    (withHandicaps s h).finalScore p q = s.finalScore p q := by
  have hentry : (withHandicaps s h).queueBuf q = s.queueBuf q := by
    change { s.queueBuf q with handicap := h q } = _
    rw [hq]
  unfold ScoreState.finalScore ScoreState.scoreRun
  rw [hentry]
  rfl

theorem calculateScore_withHandicaps {score : ℕ}
    (hscore : (withHandicaps s h).finalScore p q = .ok score) :
    (withHandicaps s h).calculateScore p q =
      .ok (score, withHandicaps s (Function.update h q (takeHandicap (h q)))) := by
  have hqueue : Function.update (withHandicaps s h).queueBuf q
      { s.queueBuf q with handicap := takeHandicap (h q) } =
        (withHandicaps s (Function.update h q (takeHandicap (h q)))).queueBuf := by
    funext i
    by_cases hi : i = q
    · subst hi
      rw [Function.update_self]
      change _ = { s.queueBuf i with handicap := Function.update h i (takeHandicap (h i)) i }
      rw [Function.update_self]
    · rw [Function.update_of_ne hi]
      change { s.queueBuf i with handicap := h i } =
        { s.queueBuf i with handicap := Function.update h q (takeHandicap (h q)) i }
      rw [Function.update_of_ne hi]
  rw [ScoreState.calculateScore_of_ok hscore]
  exact congrArg (fun queue => Except.ok (score, { withHandicaps s h with queueBuf := queue }))
    hqueue

/-- What follows a call that returned. -/
theorem bind_calculateScore {β : Type} {f : ℕ × ScoreState → Except ScoreStop β} {r : β}
    (hrun : (withHandicaps s h).calculateScore p q >>= f = .ok r) :
    ∃ score, (withHandicaps s h).finalScore p q = .ok score ∧
      f (score, withHandicaps s (Function.update h q (takeHandicap (h q)))) = .ok r := by
  cases hscore : (withHandicaps s h).finalScore p q with
  | error stop =>
    rw [ScoreState.calculateScore_of_error hscore] at hrun
    exact absurd hrun (by simp [bind, Except.bind])
  | ok score =>
    rw [calculateScore_withHandicaps hscore] at hrun
    exact ⟨score, rfl, hrun⟩

end Handicaps

/-! ## The loops -/

section Loop

/-- What one pass of a loop does. The value that is stored for an entry is also added to the
sum. -/
structure Adds (s : ScoreState) (value : WeightState → ℕ → ℚ) (Stored : ℕ → ℚ → Prop)
    (pass : WeightState × ℚ → ℕ → Except ScoreStop (WeightState × ℚ)) : Prop where
  disabled : ∀ t sum i, (t.queueBuf i).disabled = true → pass (t, sum) i = .ok (t, sum)
  enabled : ∀ t sum i h r, t.toScoreState = withHandicaps s h →
    h i = (s.queueBuf i).handicap → (s.queueBuf i).disabled = false → pass (t, sum) i = .ok r →
      ∃ x, Stored i x ∧ r.1.toScoreState = withHandicaps s (Function.update h i
        (takeHandicap (h i))) ∧ r.1.queuedDiscovered = t.queuedDiscovered ∧
          value r.1 = Function.update (value t) i x ∧ r.2 = sum + x

/-- What the loop leaves behind. -/
structure Added (s : ScoreState) (value : WeightState → ℕ → ℚ) (Stored : ℕ → ℚ → Prop)
    (js : List ℕ) (t : WeightState) (sum : ℚ) (u : WeightState) (sum' : ℚ) : Prop where
  queue_eq : ∃ h, u.toScoreState = withHandicaps s h
  discovered_eq : u.queuedDiscovered = t.queuedDiscovered
  stored : ∀ i ∈ js, (s.queueBuf i).disabled = false → Stored i (value u i)
  kept : ∀ i ∉ js, value u i = value t i
  sum_eq : sum' = sum + ((js.filter fun i => !(s.queueBuf i).disabled).map (value u)).sum

variable {s : ScoreState} {value : WeightState → ℕ → ℚ} {Stored : ℕ → ℚ → Prop}
  {pass : WeightState × ℚ → ℕ → Except ScoreStop (WeightState × ℚ)}

theorem Adds.foldlM (hpass : Adds s value Stored pass) {js : List ℕ} (hnodup : js.Nodup)
    {t u : WeightState} {sum sum' : ℚ} {h : ℕ → ℕ} (ht : t.toScoreState = withHandicaps s h)
    (hh : ∀ i ∈ js, h i = (s.queueBuf i).handicap)
    (hrun : js.foldlM pass (t, sum) = .ok (u, sum')) :
    Added s value Stored js t sum u sum' := by
  induction js generalizing t sum h with
  | nil =>
    obtain ⟨rfl, rfl⟩ := Prod.mk.inj (Except.ok.inj hrun)
    exact ⟨⟨h, ht⟩, rfl, fun i hi => absurd hi List.not_mem_nil, fun _ _ => rfl, by simp⟩
  | cons j js ih =>
    obtain ⟨hj, hnodup⟩ := List.nodup_cons.mp hnodup
    obtain ⟨hhj, hh⟩ := List.forall_mem_cons.mp hh
    rw [List.foldlM_cons] at hrun
    have hflag : (t.queueBuf j).disabled = (s.queueBuf j).disabled := by
      rw [ht]
      rfl
    cases hdisabled : (s.queueBuf j).disabled with
    | true =>
      rw [hpass.disabled t sum j (hflag.trans hdisabled)] at hrun
      obtain ⟨hqueue, hdiscovered, hstored, hkept, hsum⟩ := ih hnodup ht hh hrun
      refine ⟨hqueue, hdiscovered, List.forall_mem_cons.mpr ⟨fun hfalse => ?_, hstored⟩,
        fun i hi => hkept i fun hmem => hi (List.mem_cons_of_mem _ hmem), ?_⟩
      · exact absurd (hfalse.symm.trans hdisabled) (by decide)
      · rw [List.filter_cons_of_neg (by simp [hdisabled])]
        exact hsum
    | false =>
      cases hstep : pass (t, sum) j with
      | error stop =>
        rw [hstep] at hrun
        exact absurd hrun (by simp [bind, Except.bind])
      | ok r =>
        rw [hstep] at hrun
        obtain ⟨x, hx, hr, hrdiscovered, hrvalue, hrsum⟩ :=
          hpass.enabled t sum j h r ht hhj hdisabled hstep
        have hh' : ∀ i ∈ js, Function.update h j (takeHandicap (h j)) i =
            (s.queueBuf i).handicap := fun i hi => by
          have hne : i ≠ j := fun heq => hj (heq ▸ hi)
          rw [Function.update_of_ne hne, hh i hi]
        obtain ⟨hqueue, hdiscovered, hstored, hkept, hsum⟩ := ih hnodup hr hh' hrun
        have hvalue : value u j = x := by rw [hkept j hj, hrvalue, Function.update_self]
        refine ⟨hqueue, hdiscovered.trans hrdiscovered,
          List.forall_mem_cons.mpr ⟨fun _ => hvalue ▸ hx, hstored⟩, fun i hi => ?_, ?_⟩
        · obtain ⟨hne, hnot⟩ := List.ne_and_not_mem_of_not_mem_cons hi
          rw [hkept i hnot, hrvalue, Function.update_of_ne hne]
        · rw [List.filter_cons_of_pos (by simp [hdisabled]), List.map_cons, List.sum_cons, hvalue,
            hsum, hrsum, add_assoc]

theorem weighEntry_adds (p : Platform) (logs : Logs) (avg : Averages) (s : ScoreState) :
    Adds s WeightState.weight (fun i x => x = entryWeight logs s avg i)
      (WeightState.weighEntry p logs avg) where
  disabled t sum i hdisabled := if_pos hdisabled
  enabled t sum i h r ht hh hdisabled hrun := by
    have hflag : ¬(t.queueBuf i).disabled = true := by
      rw [ht, disabled_withHandicaps, hdisabled]
      decide
    unfold WeightState.weighEntry at hrun
    dsimp only at hrun
    rw [if_neg hflag, ht] at hrun
    obtain ⟨score, -, hr⟩ := bind_calculateScore hrun
    obtain rfl := Except.ok.inj hr
    exact ⟨_, rfl, rfl, rfl, rfl, rfl⟩

theorem scoreEntry_adds (p : Platform) (s : ScoreState) :
    Adds s WeightState.perfScore (fun i x => ∃ score, s.finalScore p i = .ok score ∧ x = score)
      (WeightState.scoreEntry p) where
  disabled t sum i hdisabled := if_pos hdisabled
  enabled t sum i h r ht hh hdisabled hrun := by
    have hflag : ¬(t.queueBuf i).disabled = true := by
      rw [ht, disabled_withHandicaps, hdisabled]
      decide
    unfold WeightState.scoreEntry at hrun
    dsimp only at hrun
    rw [if_neg hflag, ht] at hrun
    obtain ⟨score, hscore, hr⟩ := bind_calculateScore hrun
    obtain rfl := Except.ok.inj hr
    exact ⟨score, ⟨score, (finalScore_withHandicaps hh).symm.trans hscore, rfl⟩, rfl, rfl, rfl,
      rfl⟩

end Loop

/-! ## Doubled weights -/

section Doubled
variable {s : WeightState} {is : List ℕ} {i : ℕ}

theorem doubleWeight_toScoreState (s : WeightState) (i : ℕ) :
    (s.doubleWeight i).toScoreState = s.toScoreState := by
  unfold WeightState.doubleWeight
  split <;> rfl

theorem foldl_doubleWeight_toScoreState (s : WeightState) (is : List ℕ) :
    (is.foldl WeightState.doubleWeight s).toScoreState = s.toScoreState := by
  induction is generalizing s with
  | nil => rfl
  | cons i is ih => rw [List.foldl_cons, ih, doubleWeight_toScoreState]

theorem weight_doubleWeight (s : WeightState) (i j : ℕ) : (s.doubleWeight j).weight i =
    if i = j ∧ (s.queueBuf j).disabled = false then s.weight i * 2 else s.weight i := by
  unfold WeightState.doubleWeight
  cases hdisabled : (s.queueBuf j).disabled with
  | true => simp
  | false =>
    by_cases hi : i = j
    · subst hi
      simp
    · simp [hi]

theorem weight_foldl_doubleWeight (hnodup : is.Nodup) (s : WeightState) (i : ℕ) :
    (is.foldl WeightState.doubleWeight s).weight i =
      if i ∈ is ∧ (s.queueBuf i).disabled = false then s.weight i * 2 else s.weight i := by
  induction is generalizing s with
  | nil => simp
  | cons j is ih =>
    obtain ⟨hj, hnodup⟩ := List.nodup_cons.mp hnodup
    have hqueue : (s.doubleWeight j).queueBuf = s.queueBuf :=
      congrArg (·.queueBuf) (doubleWeight_toScoreState s j)
    rw [List.foldl_cons, ih hnodup, hqueue, weight_doubleWeight]
    by_cases hi : i = j
    · subst hi
      simp [hj]
    · simp [hi]

theorem nodup_lastDiscovered (s : WeightState) : s.lastDiscovered.Nodup := by
  unfold WeightState.lastDiscovered
  split
  exacts [List.nodup_range', List.nodup_nil]

theorem lt_of_mem_lastDiscovered (h : i ∈ s.lastDiscovered) : i < s.queuedItems := by
  unfold WeightState.lastDiscovered at h
  split at h
  · obtain ⟨hge, hlt⟩ := List.mem_range'_1.mp h
    omega
  · exact absurd h List.not_mem_nil

theorem lastDiscovered_of_ne (h : s.schedule ≠ .mmopt) : s.lastDiscovered = [] :=
  if_neg fun hboth => h hboth.1

end Doubled

/-! ## The normalisation -/

/-- The entries that can be drawn. -/
def active (s : WeightState) : Finset ℕ :=
  (Finset.range s.queuedItems).filter fun i => (s.queueBuf i).disabled = false

/-- Each probability is the final weight divided by the sum of all of them, times the number of
entries. -/
structure Normalised (s : WeightState) (P : ℕ → ℚ) : Prop where
  scaled_eq : ∀ i < s.queuedItems, P i = if (s.queueBuf i).disabled then 0
    else s.finalWeight i * s.queuedItems / ∑ j ∈ active s, s.finalWeight j
  sum_eq : ∑ i ∈ Finset.range s.queuedItems, P i = s.queuedItems

section Normalisation
variable {s : WeightState} {i : ℕ}

theorem mem_active : i ∈ active s ↔ i < s.queuedItems ∧ (s.queueBuf i).disabled = false := by
  rw [active, Finset.mem_filter, Finset.mem_range]

theorem sum_enabled (s : WeightState) (f : ℕ → ℚ) :
    (((List.range s.queuedItems).filter fun i => !(s.queueBuf i).disabled).map f).sum =
      ∑ i ∈ active s, f i := by
  rw [← List.sum_toFinset f (List.nodup_range.filter _)]
  refine Finset.sum_congr ?_ fun _ _ => rfl
  ext i
  rw [List.mem_toFinset, List.mem_filter, List.mem_range, mem_active]
  simp

theorem sum_scaled (s : WeightState) (final : ℕ → ℚ) (sum : ℚ) :
    ∑ i ∈ Finset.range s.queuedItems, s.scaled final sum i =
      (∑ i ∈ active s, final i) * s.queuedItems / sum := by
  rw [active, Finset.sum_mul, Finset.sum_div, Finset.sum_filter]
  refine Finset.sum_congr rfl fun i _ => ?_
  unfold WeightState.scaled
  cases (s.queueBuf i).disabled <;> simp

/-- The sum was taken over the weights `base`, of which those in `is` were doubled afterwards. -/
theorem normalised_scaled_iff (s : WeightState) (base : ℕ → ℚ) (is : List ℕ)
    (his : ∀ i ∈ is, i < s.queuedItems)
    (hbase : ∀ i ∈ active s, 0 ≤ base i) (hpos : ∀ i ∈ active s, i ∈ is → 0 < base i)
    (hfinal : ∀ i ∈ active s, s.finalWeight i = if i ∈ is then base i * 2 else base i) :
    Normalised s (s.scaled s.finalWeight (∑ i ∈ active s, base i)) ↔
      (∀ i ∈ is, (s.queueBuf i).disabled = true) ∧
        (s.queuedItems = 0 ∨ ∃ i ∈ active s, base i ≠ 0) := by
  constructor
  · rintro ⟨-, hsum⟩
    rw [sum_scaled] at hsum
    by_cases hn : s.queuedItems = 0
    · refine ⟨fun i hi => absurd (his i hi) (by omega), Or.inl hn⟩
    · have hcast : (s.queuedItems : ℚ) ≠ 0 := Nat.cast_ne_zero.mpr hn
      have hne : ∑ i ∈ active s, base i ≠ 0 := fun hzero => by
        rw [hzero, div_zero] at hsum
        exact hcast hsum.symm
      rw [div_eq_iff hne, mul_comm] at hsum
      have heq : ∑ i ∈ active s, base i = ∑ i ∈ active s, s.finalWeight i :=
        (mul_left_cancel₀ hcast hsum).symm
      have hle : ∀ i ∈ active s, base i ≤ s.finalWeight i := fun i hi => by
        have := hbase i hi
        rw [hfinal i hi]
        split <;> linarith
      have hsame := (Finset.sum_eq_sum_iff_of_le hle).mp heq
      refine ⟨fun i hi => ?_, Or.inr (Finset.exists_ne_zero_of_sum_ne_zero hne)⟩
      by_contra hdisabled
      have hmem : i ∈ active s := mem_active.mpr ⟨his i hi, Bool.eq_false_iff.mpr hdisabled⟩
      have hdouble := hsame i hmem
      rw [hfinal i hmem, if_pos hi] at hdouble
      linarith [hpos i hmem hi]
  · rintro ⟨hdisabled, hsome⟩
    have hsame : ∀ i ∈ active s, s.finalWeight i = base i := fun i hi => by
      rw [hfinal i hi, if_neg]
      intro hmem
      exact absurd ((mem_active.mp hi).2.symm.trans (hdisabled i hmem)) (by decide)
    have heq : ∑ i ∈ active s, s.finalWeight i = ∑ i ∈ active s, base i :=
      Finset.sum_congr rfl hsame
    refine ⟨fun i _ => by rw [heq]; rfl, ?_⟩
    rw [sum_scaled, heq]
    rcases hsome with hn | ⟨i, hi, hne⟩
    · rw [hn, Nat.cast_zero, mul_zero, zero_div]
    · have hsum : ∑ i ∈ active s, base i ≠ 0 := fun hzero =>
        hne ((Finset.sum_eq_zero_iff_of_nonneg hbase).mp hzero i hi)
      rw [mul_div_cancel_left₀ _ hsum]

/-- The weight of the entry is not zero. Before `RARE` no weight is. -/
def HasWeight (p : Platform) (s : WeightState) (i : ℕ) : Prop :=
  s.schedule.value < Schedule.rare.value ∨
    ∃ score, s.toScoreState.finalScore p i = .ok score ∧ score ≠ 0

variable {p : Platform} {t u : WeightState} {h : ℕ → ℕ}

theorem active_congr (ht : t.toScoreState = withHandicaps s.toScoreState h) :
    active t = active s := by
  ext i
  rw [mem_active, mem_active, ht]
  rfl

theorem lastDiscovered_congr (ht : t.toScoreState = withHandicaps s.toScoreState h)
    (hdiscovered : t.queuedDiscovered = s.queuedDiscovered) :
    t.lastDiscovered = s.lastDiscovered := by
  unfold WeightState.lastDiscovered
  rw [hdiscovered, ht]
  rfl

theorem schedule_ne_mmopt (h : ¬s.schedule.value < Schedule.rare.value) :
    s.schedule ≠ .mmopt := by
  intro heq
  rw [heq] at h
  exact h (by decide)

/-- The schedules before `RARE`. -/
theorem normalised_of_weights {logs : Logs} {avg : Averages} {sum : ℚ}
    (hrare : s.schedule.value < Schedule.rare.value)
    (hloop : (List.range s.queuedItems).foldlM (WeightState.weighEntry p logs avg) (s, 0) =
      .ok (u, sum)) :
    Normalised (u.lastDiscovered.foldl WeightState.doubleWeight u)
        ((u.lastDiscovered.foldl WeightState.doubleWeight u).scaled
          (u.lastDiscovered.foldl WeightState.doubleWeight u).weight sum) ↔
      (∀ i ∈ s.lastDiscovered, (s.queueBuf i).disabled = true) ∧
        (s.queuedItems = 0 ∨ ∃ i ∈ active s, HasWeight p s i) := by
  obtain ⟨⟨h, hu⟩, hdiscovered, hstored, -, hsum⟩ := (weighEntry_adds p logs avg
    s.toScoreState).foldlM List.nodup_range (withHandicaps_self s.toScoreState).symm
    (fun _ _ => rfl) hloop
  have hweight : ∀ i ∈ active s, 0 < u.weight i := fun i hi => by
    rw [hstored i (List.mem_range.mpr (mem_active.mp hi).1) (mem_active.mp hi).2]
    exact entryWeight_pos logs s.toScoreState avg i
  rw [zero_add, sum_enabled] at hsum
  rw [lastDiscovered_congr hu hdiscovered]
  have ht := foldl_doubleWeight_toScoreState u s.lastDiscovered
  have hdouble := weight_foldl_doubleWeight (nodup_lastDiscovered s) u
  generalize s.lastDiscovered.foldl WeightState.doubleWeight u = t at ht hdouble ⊢
  have hts := ht.trans hu
  have hschedule : t.schedule = s.schedule := by
    rw [hts]
    rfl
  have hitems : t.queuedItems = s.queuedItems := by
    rw [hts]
    rfl
  have hflag : ∀ i, (t.queueBuf i).disabled = (s.queueBuf i).disabled := fun i => by
    rw [hts]
    rfl
  have hfinal : t.finalWeight = t.weight := if_pos (by rw [hschedule]; exact hrare)
  rw [← active_congr hts] at hsum hweight ⊢
  have hiff := normalised_scaled_iff t u.weight s.lastDiscovered
    (fun i hi => hitems ▸ lt_of_mem_lastDiscovered hi) (fun i hi => (hweight i hi).le)
    (fun i hi _ => hweight i hi) fun i hi => by
      have henabled : (u.queueBuf i).disabled = false := by
        rw [← ht]
        exact (mem_active.mp hi).2
      rw [hfinal, hdouble i]
      simp only [henabled, and_true]
  rw [hfinal, ← hsum, hitems] at hiff
  rw [hiff]
  refine and_congr (forall_congr' fun i => by rw [hflag]) (or_congr_right ?_)
  exact exists_congr fun i => and_congr_right fun hi =>
    iff_of_true (hweight i hi).ne' (Or.inl hrare)

/-- `RARE` and the schedules after it. -/
theorem normalised_of_scores {sum : ℚ} (hrare : ¬s.schedule.value < Schedule.rare.value)
    (hloop : (List.range s.queuedItems).foldlM (WeightState.scoreEntry p) (s, 0) = .ok (u, sum)) :
    Normalised u (u.scaled u.perfScore sum) ↔
      (∀ i ∈ s.lastDiscovered, (s.queueBuf i).disabled = true) ∧
        (s.queuedItems = 0 ∨ ∃ i ∈ active s, HasWeight p s i) := by
  obtain ⟨⟨h, hu⟩, -, hstored, -, hsum⟩ := (scoreEntry_adds p s.toScoreState).foldlM
    List.nodup_range (withHandicaps_self s.toScoreState).symm (fun _ _ => rfl) hloop
  have hscore : ∀ i ∈ active s, ∃ score, s.finalScore p i = .ok score ∧
      u.perfScore i = score := fun i hi =>
    hstored i (List.mem_range.mpr (mem_active.mp hi).1) (mem_active.mp hi).2
  rw [zero_add, sum_enabled] at hsum
  have hitems : u.queuedItems = s.queuedItems := by
    rw [hu]
    rfl
  have hfinal : u.finalWeight = u.perfScore := if_neg (by rw [hu]; exact hrare)
  rw [lastDiscovered_of_ne (schedule_ne_mmopt hrare)]
  rw [← active_congr hu] at hsum hscore ⊢
  have hiff := normalised_scaled_iff u u.perfScore []
    (fun i hi => absurd hi List.not_mem_nil)
    (fun i hi => by
      obtain ⟨score, -, hvalue⟩ := hscore i hi
      rw [hvalue]
      exact Nat.cast_nonneg _)
    (fun i _ hi => absurd hi List.not_mem_nil) (fun i _ => by rw [hfinal, if_neg List.not_mem_nil])
  rw [hfinal, ← hsum, hitems] at hiff
  rw [hiff]
  refine and_congr (iff_of_true (fun i hi => absurd hi List.not_mem_nil)
    fun i hi => absurd hi List.not_mem_nil) (or_congr_right ?_)
  refine exists_congr fun i => and_congr_right fun hi => ?_
  obtain ⟨score, hfinalScore, hvalue⟩ := hscore i hi
  rw [hvalue, Nat.cast_ne_zero, HasWeight, or_iff_right hrare]
  refine ⟨fun hne => ⟨score, hfinalScore, hne⟩, ?_⟩
  rintro ⟨score', hscore', hne⟩
  obtain rfl := Except.ok.inj (hfinalScore.symm.trans hscore')
  exact hne

/-- The probabilities are normalised if and only if `MMOPT` doubles no weight and some entry has
one that is not zero. -/
theorem probabilities_normalised_iff {p : Platform} {logs : Logs} {s t : WeightState} {P : ℕ → ℚ}
    (hrun : s.probabilities p logs = .ok (t, P)) :
    Normalised t P ↔ (∀ i ∈ s.lastDiscovered, (s.queueBuf i).disabled = true) ∧
      (s.queuedItems = 0 ∨ ∃ i ∈ active s, HasWeight p s i) := by
  unfold WeightState.probabilities at hrun
  split at hrun
  · next hrare =>
    dsimp only at hrun
    cases hloop : (List.range s.queuedItems).foldlM
        (WeightState.weighEntry p logs (averages logs s.toScoreState)) (s, 0) with
    | error stop =>
      rw [hloop] at hrun
      exact absurd hrun (by simp [bind, Except.bind])
    | ok r =>
      rw [hloop] at hrun
      obtain ⟨rfl, rfl⟩ := Prod.mk.inj (Except.ok.inj hrun)
      exact normalised_of_weights hrare hloop
  · next hrare =>
    cases hloop : (List.range s.queuedItems).foldlM (WeightState.scoreEntry p) (s, 0) with
    | error stop =>
      rw [hloop] at hrun
      exact absurd hrun (by simp [bind, Except.bind])
    | ok r =>
      rw [hloop] at hrun
      obtain ⟨rfl, rfl⟩ := Prod.mk.inj (Except.ok.inj hrun)
      exact normalised_of_scores hrare hloop

/-- The logarithms of one. -/
def logsOfOne : Logs := ⟨fun _ => 0, fun _ => 0, fun _ _ => le_rfl⟩

/-- A queue of two equal entries, the second of them discovered in this session. -/
def twoEntries (schedule : Schedule) : WeightState where
  toQueueState := { QueueState.emptyQueue with
    schedule := schedule
    queueBuf := fun _ => { len := 4, execUs := 100, bitmapSize := 1 }
    queuedItems := 2 }
  queuedDiscovered := 1

theorem probabilities_normalised_explore : ∃ t P,
    (twoEntries .explore).probabilities .x86_64 logsOfOne = .ok (t, P) ∧ Normalised t P :=
  ⟨_, _, rfl, (probabilities_normalised_iff (s := twoEntries .explore) rfl).mpr
    ⟨fun i hi => absurd hi List.not_mem_nil, Or.inr ⟨0, by decide, Or.inl (by decide)⟩⟩⟩

/-- The second entry weighs twice as much in the end, and the sum was taken before. -/
theorem not_normalised_mmopt : ¬∀ (p : Platform) (logs : Logs) (s t : WeightState) (P : ℕ → ℚ),
    s.probabilities p logs = .ok (t, P) → (active s).Nonempty → Normalised t P := by
  intro h
  have hnormal := h .x86_64 logsOfOne (twoEntries .mmopt) _ _ rfl ⟨0, by decide⟩
  have hdisabled := ((normalised_of_weights (s := twoEntries .mmopt) (by decide) rfl).mp
    hnormal).1 1 (by decide)
  exact absurd hdisabled (by decide)

end Normalisation

/-- From normalised probabilities the table is filled so that each entry gets its own. -/
theorem createAliasTable_fills {p : Platform} {logs : Logs} {s t : WeightState} {P : ℕ → ℚ} {fuel : ℕ}
    (hrun : s.probabilities p logs = .ok (t, P)) (hnormal : Normalised t P)
    (hnonneg : ∀ i < t.queuedItems, 0 ≤ P i) (hlen : t.queuedItems ≤ 2 ^ 31)
    (hfuel : t.queuedItems ≤ fuel) :
    ∃ table, s.createAliasTable p logs fuel = .ok ({ t with reinitTable := false }, some table) ∧
      Fills t.queuedItems P [] [] table := by
  obtain ⟨table, hfills, hfill⟩ := fillAliasTable_spec hlen hnonneg hnormal.sum_eq
  refine ⟨table, ?_, hfills⟩
  rw [WeightState.createAliasTable, hrun]
  exact congrArg (fun table => Except.ok ({ t with reinitTable := false }, table))
    (hfill fuel hfuel)

end AflPlusPlus.QueueWeights
