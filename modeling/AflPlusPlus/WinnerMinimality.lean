import AflPlusPlus.FavoredCover
import AflPlusPlus.RunningMinima

/-!
# The winners of the schedules that compare speed and size only

From `fast` up to `rare`, and without a fixed seed, a contest for an index compares
`exec_us * len` and nothing else. As long as the scored entries keep both, the winner of an
index is the running minimum over the calls of `update_bitmap_score` that hit it.
-/

namespace AflPlusPlus.FavoredSet.QueueState
open ByteWords CoverageMap RunningMinima

/-- The product by which `update_bitmap_score` compares two entries, on a `u64`. -/
def price (s : QueueState) (q : ℕ) : ℕ :=
  ((s.queueBuf q).execUs * (s.queueBuf q).len) % 2 ^ 64

/-- The schedules that skip the comparison of `fuzz_p2`, with no fixed seed. -/
structure PriceOnly (s : QueueState) : Prop where
  fast_le : Schedule.fast.value ≤ s.schedule.value
  lt_rare : s.schedule.value < Schedule.rare.value
  no_seed : s.fixedSeed = false

/-! ## One contest -/

section Contest
variable {s t : QueueState} {q i : ℕ}

theorem PriceOnly.rating_eq (h : s.PriceOnly) (q : ℕ) : s.rating q = (0, s.price q) := by
  have hfactor : ¬(Schedule.rare.value ≤ s.schedule.value ∨ s.fixedSeed = true) := by
    rw [h.no_seed]
    simpa using h.lt_rare
  unfold rating price
  dsimp only
  rw [if_pos ⟨h.fast_le, h.lt_rare⟩, if_neg hfactor]

/-- The price of an entry is that of its data. -/
theorem price_of_data (hexec : (t.queueBuf q).execUs = (s.queueBuf q).execUs)
    (hlen : (t.queueBuf q).len = (s.queueBuf q).len) : t.price q = s.price q := by
  unfold price
  rw [hexec, hlen]

theorem modifyEntry_price (s : QueueState) (q : ℕ) {f : QueueEntry → QueueEntry}
    (hf : ∀ e, (f e).execUs = e.execUs ∧ (f e).len = e.len) :
    (s.modifyEntry q f).price = s.price := by
  funext r
  by_cases hr : r = q
  · subst hr
    exact price_of_data (by rw [modifyEntry_self, (hf _).1]) (by rw [modifyEntry_self, (hf _).2])
  · exact price_of_data (by rw [modifyEntry_of_ne _ _ hr]) (by rw [modifyEntry_of_ne _ _ hr])

theorem insertWinner_price (s : QueueState) (q i : ℕ) : (s.insertWinner q i).price = s.price := by
  funext r
  by_cases hr : r = q
  · subst hr
    exact price_of_data (by rw [insertWinner_self]) (by rw [insertWinner_self])
  · exact price_of_data (by rw [insertWinner_of_ne _ _ hr]) (by rw [insertWinner_of_ne _ _ hr])

theorem dropWinner_price (s : QueueState) (old : ℕ) : (s.dropWinner old).price = s.price := by
  unfold dropWinner
  exact modifyEntry_price _ old fun _ => ⟨rfl, rfl⟩

theorem contest_price (s : QueueState) (mine : ℕ × ℕ) (q i : ℕ) :
    (s.contest mine q i).price = s.price := by
  unfold contest
  split
  · exact insertWinner_price s q i
  · split
    · exact (insertWinner_price _ q i).trans (dropWinner_price s _)
    · rfl

theorem PriceOnly.contest (h : s.PriceOnly) (mine : ℕ × ℕ) (q i : ℕ) :
    (s.contest mine q i).PriceOnly := by
  unfold QueueState.contest
  split
  · exact { h with }
  · split <;> exact { h with }

/-- A contest is a challenge for its index and changes the winner of no other. -/
theorem PriceOnly.contest_topRated (h : s.PriceOnly) (q i : ℕ) :
    (s.contest (0, s.price q) q i).topRated =
      Function.update s.topRated i (challenge s.price (s.topRated i) q) := by
  unfold QueueState.contest challenge
  cases hi : s.topRated i with
  | none => rfl
  | some old =>
    have hrated := h.rating_eq old
    dsimp only
    unfold beats
    rw [hrated]
    dsimp only
    rw [if_neg (lt_irrefl 0)]
    by_cases hlt : s.price old < s.price q
    · rw [if_pos hlt, if_pos hlt, if_neg Bool.false_ne_true, ← hi, Function.update_eq_self]
    · rw [if_neg hlt, if_neg hlt, if_pos rfl]
      rfl

end Contest

/-! ## One call -/

/-- The winners after `q` has challenged for the indices below `n` that `trace` hits. -/
def challenged (s : QueueState) (q n : ℕ) (trace : Mem) (i : ℕ) : Option ℕ :=
  if i < n ∧ trace i ≠ 0 then challenge s.price (s.topRated i) q else s.topRated i

section Call
variable {s : QueueState} {q i n : ℕ} {trace : Mem}

theorem challenged_hit (hi : i < n) (hne : trace i ≠ 0) :
    s.challenged q n trace i = challenge s.price (s.topRated i) q :=
  if_pos ⟨hi, hne⟩

theorem challenged_missed (h : i < n → trace i = 0) :
    s.challenged q n trace i = s.topRated i :=
  if_neg fun hi => hi.2 (h hi.1)

theorem challenged_succ_of_ne (hi : i ≠ n) :
    s.challenged q (n + 1) trace i = s.challenged q n trace i := by
  have hlt : i < n + 1 ↔ i < n := by omega
  simp only [challenged, hlt]

/-- A call challenges for every index that the trace hits, and changes no price. -/
theorem PriceOnly.updateBitmapScore (h : s.PriceOnly) (q : ℕ) :
    (s.updateBitmapScore q true).topRated = s.challenged q s.geometry.mapSize s.traceBits ∧
      (s.updateBitmapScore q true).price = s.price := by
  unfold QueueState.updateBitmapScore
  rw [if_pos rfl, h.rating_eq q]
  have hloop : ∀ n, (fun t : QueueState => t.topRated = s.challenged q n s.traceBits ∧
      t.price = s.price ∧ t.PriceOnly ∧ t.traceBits = s.traceBits)
      ((List.range n).foldl (fun t i =>
        if t.traceBits i ≠ 0 then t.contest (0, s.price q) q i else t) s) := by
    intro n
    induction n with
    | zero => exact ⟨funext fun i => (challenged_missed (absurd · i.not_lt_zero)).symm, rfl, h, rfl⟩
    | succ n ih =>
      rw [List.range_succ, List.foldl_append, List.foldl_cons, List.foldl_nil]
      obtain ⟨htop, hprice, hfast, htrace⟩ := ih
      generalize (List.range n).foldl _ s = t at htop hprice hfast htrace
      have hold : s.challenged q n s.traceBits n = s.topRated n :=
        challenged_missed (absurd · n.lt_irrefl)
      split
      · rename_i hne
        rw [htrace] at hne
        refine ⟨funext fun i => ?_, by rw [contest_price, hprice], hfast.contest .., by
          rw [contest_traceBits, htrace]⟩
        rw [← hprice, hfast.contest_topRated q n, htop, hprice]
        by_cases hi : i = n
        · subst hi
          rw [Function.update_self, hold, challenged_hit i.lt_succ_self hne]
        · rw [Function.update_of_ne hi, challenged_succ_of_ne hi]
      · rename_i hzero
        rw [htrace, not_not] at hzero
        refine ⟨htop.trans (funext fun i => ?_), hprice, hfast, htrace⟩
        by_cases hi : i = n
        · subst hi
          rw [hold, challenged_missed fun _ => hzero]
        · rw [challenged_succ_of_ne hi]
  obtain ⟨htop, hprice, -, -⟩ := hloop s.geometry.mapSize
  exact ⟨htop, hprice⟩

end Call

/-! ## Runs -/

/-- The calls of `update_bitmap_score` that reach their loop. -/
def scoredBy (s : QueueState) : Op → List ℕ
  | .score q _ true => if q < s.queuedItems then [q] else []
  | _ => []

/-- The entries that the run scores, in the order of the calls. -/
def scoredCalls : QueueState → List Op → List ℕ
  | _, [] => []
  | s, op :: ops => s.scoredBy op ++ scoredCalls (s.step op) ops

/-- After the calls `calls` an entry is scored with its own trace, and the speed and the size
of an entry that has been scored stay. -/
def PriceStepMeets (hits : ℕ → ℕ → Bool) (calls : List ℕ) (s : QueueState) : Op → Prop
  | .score q trace haveTrace =>
    q < s.queuedItems → haveTrace = true → s.PriceOnly ∧ s.OwnTrace hits q trace
  | .adjust _ _ data => ∀ q ∈ calls,
    (data q).execUs = (s.queueBuf q).execUs ∧ (data q).len = (s.queueBuf q).len
  | .recalculate _ => False
  | _ => True

def PriceRunMeets (hits : ℕ → ℕ → Bool) : List ℕ → QueueState → List Op → Prop
  | _, _, [] => True
  | calls, s, op :: ops => PriceStepMeets hits calls s op ∧
    PriceRunMeets hits (calls ++ s.scoredBy op) (s.step op) ops

/-- Every index is held by the running minimum over the calls that hit it. -/
structure HeldByMinimum (hits : ℕ → ℕ → Bool) (calls : List ℕ) (s : QueueState) : Prop where
  calls_lt : ∀ q ∈ calls, q < s.queuedItems
  topRated_eq : ∀ i < s.geometry.mapSize,
    s.topRated i = holder s.price (calls.filter fun q => hits q i)

section Run
variable {hits : ℕ → ℕ → Bool} {calls : List ℕ} {s t : QueueState}

theorem HeldByMinimum.of_keeps (h : s.HeldByMinimum hits calls) (hk : s.Keeps t)
    (hprice : ∀ q ∈ calls, t.price q = s.price q) : t.HeldByMinimum hits calls where
  calls_lt := hk.queuedItems_eq ▸ h.calls_lt
  topRated_eq i hi := by
    rw [hk.topRated_eq, h.topRated_eq i (hk.geometry_eq ▸ hi)]
    exact holder_congr fun q hq => (hprice q (List.mem_of_mem_filter hq)).symm

theorem HeldByMinimum.addToQueue (h : s.HeldByMinimum hits calls) (len depth : ℕ) :
    (s.addToQueue len depth).HeldByMinimum hits calls where
  calls_lt q hq := (h.calls_lt q hq).trans (Nat.lt_succ_self _)
  topRated_eq i hi := by
    refine (h.topRated_eq i hi).trans (holder_congr fun q hq => ?_)
    have hne : q ≠ s.queuedItems := (h.calls_lt q (List.mem_of_mem_filter hq)).ne
    have hentry : (s.addToQueue len depth).queueBuf q = s.queueBuf q :=
      Function.update_of_ne hne ..
    exact (price_of_data (by rw [hentry]) (by rw [hentry])).symm

theorem HeldByMinimum.updateBitmapScore {q : ℕ} (h : s.HeldByMinimum hits calls)
    (hq : q < s.queuedItems) (hfast : s.PriceOnly) (hown : s.OwnTrace hits q s.traceBits) :
    (s.updateBitmapScore q true).HeldByMinimum hits (calls ++ [q]) := by
  obtain ⟨htop, hprice⟩ := hfast.updateBitmapScore q
  have hsame := updateBitmapScore_induct
    (P := fun t => t.geometry = s.geometry ∧ t.queuedItems = s.queuedItems) s q true ⟨rfl, rfl⟩
    fun t ht _ _ _ _ _ _ _ =>
      ⟨(contest_geometry ..).trans ht.1, (contest_queuedItems ..).trans ht.2⟩
  refine ⟨fun r hr => ?_, fun i hi => ?_⟩
  · rw [hsame.2]
    rcases List.mem_append.mp hr with hr | hr
    · exact h.calls_lt r hr
    · exact List.mem_singleton.mp hr ▸ hq
  · rw [hsame.1] at hi
    rw [htop, hprice, List.filter_append]
    cases hhit : hits q i with
    | true =>
      have hq : [q].filter (fun q => hits q i) = [q] := List.filter_cons_of_pos hhit
      rw [challenged_hit hi ((hown i hi).mpr hhit), hq, holder_concat, h.topRated_eq i hi]
    | false =>
      have hzero : s.traceBits i = 0 := by
        by_contra hne
        rw [(hown i hi).mp hne] at hhit
        exact Bool.false_ne_true hhit.symm
      have hq : [q].filter (fun q => hits q i) = [] := List.filter_cons_of_neg (by simp [hhit])
      rw [challenged_missed fun _ => hzero, hq, List.append_nil, h.topRated_eq i hi]

theorem HeldByMinimum.score (h : s.HeldByMinimum hits calls) (q : ℕ) (trace : Mem)
    (haveTrace : Bool) (hmeet : PriceStepMeets hits calls s (.score q trace haveTrace)) :
    (s.score q trace haveTrace).HeldByMinimum hits
      (calls ++ s.scoredBy (.score q trace haveTrace)) := by
  have htrace : ({ s with traceBits := trace } : QueueState).HeldByMinimum hits calls :=
    h.of_keeps (traceBits_keeps s trace) fun _ _ => rfl
  unfold QueueState.score
  by_cases hq : q < s.queuedItems
  · rw [if_pos hq]
    cases haveTrace with
    | false =>
      rw [scoredBy.eq_def, List.append_nil]
      exact htrace
    | true =>
      obtain ⟨hfast, hown⟩ := hmeet hq rfl
      rw [scoredBy, if_pos hq]
      exact htrace.updateBitmapScore hq { hfast with } hown
  · have hnone : s.scoredBy (.score q trace haveTrace) = [] := by
      cases haveTrace with
      | false => rfl
      | true => exact if_neg hq
    rw [if_neg hq, hnone, List.append_nil]
    exact h

theorem markAsRedundant_price (s : QueueState) (q : ℕ) (state : Bool) :
    (s.markAsRedundant q state).price = s.price := by
  unfold markAsRedundant
  split
  · rfl
  · exact modifyEntry_price s q fun _ => ⟨rfl, rfl⟩

theorem favorStep_price (t : Mem × QueueState) (i : ℕ) : (favorStep t i).2.price = t.2.price := by
  unfold favorStep
  dsimp only
  split
  · rfl
  · rename_i w _
    split
    · rfl
    · split
      · split
        · rfl
        · exact modifyEntry_price t.2 w (f := fun e => { e with favored := true })
            fun _ => ⟨rfl, rfl⟩
      · rfl

theorem cullQueue_price (s : QueueState) : s.cullQueue.price = s.price := by
  have hreset : s.resetFavored.price = s.price := by
    funext q
    unfold resetFavored price
    dsimp only
    split <;> rfl
  have hfavor : s.resetFavored.favorWinners.price = s.price :=
    List.foldlRecOn (motive := fun t : Mem × QueueState => t.2.price = s.price) _ _ hreset
      fun t ht i _ => (favorStep_price t i).trans ht
  have hmark : s.resetFavored.favorWinners.markUnfavored.price = s.price := by
    refine List.foldlRecOn (motive := fun t : QueueState => t.price = s.price) _ _ hfavor
      fun t ht q _ => ?_
    split
    · exact ht
    · exact (markAsRedundant_price t q _).trans ht
  unfold cullQueue
  split
  · rfl
  · exact hmark

theorem HeldByMinimum.step (h : s.HeldByMinimum hits calls) (op : Op)
    (hmeet : PriceStepMeets hits calls s op) :
    (s.step op).HeldByMinimum hits (calls ++ s.scoredBy op) := by
  cases op with
  | add len depth =>
    rw [scoredBy, List.append_nil]
    · exact h.addToQueue len depth
    · simp
  | adjust schedule nFuzz data =>
    rw [scoredBy, List.append_nil]
    · exact h.of_keeps (adjust_keeps s schedule nFuzz data) fun q hq =>
        price_of_data (hmeet q hq).1 (hmeet q hq).2
    · simp
  | score q trace haveTrace => exact h.score q trace haveTrace hmeet
  | recalculate traceOf => exact hmeet.elim
  | cull =>
    rw [scoredBy, List.append_nil]
    · exact h.of_keeps (cullQueue_keeps s) fun q _ => congrFun (cullQueue_price s) q
    · simp

theorem HeldByMinimum.run (h : s.HeldByMinimum hits calls) (ops : List Op)
    (hmeet : PriceRunMeets hits calls s ops) :
    (s.run ops).HeldByMinimum hits (calls ++ s.scoredCalls ops) := by
  induction ops generalizing calls s with
  | nil =>
    rw [scoredCalls, List.append_nil]
    exact h
  | cons op ops ih =>
    have hrest := ih (h.step op hmeet.1) hmeet.2
    rw [List.append_assoc] at hrest
    exact hrest

/-- After every run of calls that find each entry with its own trace and its first speed and
size, an index that some scored entry hits is held by the entry for which
`exec_us * len` is smallest among the scored entries that hit it, the last one on ties. -/
theorem run_winner_minimal (hits : ℕ → ℕ → Bool) (h : s.Fresh) (ops : List Op)
    (hmeet : PriceRunMeets hits [] s ops) (i : ℕ) (hi : i < s.geometry.mapSize)
    (hhit : ∃ q ∈ s.scoredCalls ops, hits q i = true) :
    ∃ w, (s.run ops).topRated i = some w ∧
      LastMinimal (s.run ops).price ((s.scoredCalls ops).filter fun q => hits q i) w := by
  have hstart : s.HeldByMinimum hits [] :=
    ⟨fun q hq => absurd hq List.not_mem_nil, fun i _ => h.topRated_eq i⟩
  have hrun := hstart.run ops hmeet
  rw [List.nil_append] at hrun
  have hne : (s.scoredCalls ops).filter (fun q => hits q i) ≠ [] := by
    obtain ⟨q, hq, hqi⟩ := hhit
    exact List.ne_nil_of_mem (List.mem_filter.mpr ⟨hq, hqi⟩)
  obtain ⟨w, hw⟩ := @exists_holder _ _ _ (s.run ops).price _ hne
  refine ⟨w, ?_, holder_lastMinimal hw⟩
  rw [hrun.topRated_eq i (by rwa [run_geometry]), hw]

end Run

/-- Two entries with the same product; the first one is scored again after the second. -/
def rescoredTie : List Op :=
  [.add 8 0, .add 4 0,
    .adjust .fast (fun _ => 0) (fun q => ⟨8 / (q + 1), q + 1, 0, 0, false, false⟩),
    .score 0 (traceOn [1]) true, .score 1 (traceOn [1]) true, .score 0 (traceOn [1]) true]

theorem rescoredTie_meets :
    PriceRunMeets (fun _ j => decide (j ∈ [1])) [] emptyQueue rescoredTie := by
  have hown : ∀ (s : QueueState) (q : ℕ),
      s.OwnTrace (fun _ j => decide (j ∈ [1])) q (traceOn [1]) := fun s q =>
    ownTrace_traceOn s fun _ => rfl
  refine ⟨trivial, trivial, fun q hq => absurd hq List.not_mem_nil, fun _ _ => ⟨?_, hown _ _⟩,
    fun _ _ => ⟨?_, hown _ _⟩, fun _ _ => ⟨?_, hown _ _⟩, trivial⟩ <;>
  exact ⟨by decide +kernel, by decide +kernel, by decide +kernel⟩

theorem run_winner_minimal_rescoredTie : ∃ w, (emptyQueue.run rescoredTie).topRated 1 = some w ∧
    LastMinimal (emptyQueue.run rescoredTie).price [0, 1, 0] w := by
  have hcalls : (emptyQueue.scoredCalls rescoredTie).filter
      (fun q => (fun _ j => decide (j ∈ [1])) q 1) = [0, 1, 0] := by
    decide +kernel
  rw [← hcalls]
  exact run_winner_minimal _ emptyQueue_fresh rescoredTie rescoredTie_meets 1 (by decide)
    ⟨0, by decide +kernel, rfl⟩

end AflPlusPlus.FavoredSet.QueueState
