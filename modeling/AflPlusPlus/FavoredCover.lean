import AflPlusPlus.FavoredSetInvariants

/-!
# The mini-traces of winners and the cover by favored entries

`cull_queue` covers every index that has a winner only as long as the winners' mini-traces
are there and are their own. `mark_as_redundant` releases the mini-trace of an entry that
still holds indices, and `update_bitmap_rescore` records whatever the last run left in the
shared buffer; both are visible here as conditions on the run.
-/

namespace AflPlusPlus.FavoredSet.QueueState
open ByteWords CoverageMap

/-! ## Mini-traces -/

/-- Entry `q`, rated `mine`, takes index `i`. -/
def wins (s : QueueState) (mine : ℕ × ℕ) (i : ℕ) : Bool :=
  match s.topRated i with
  | none => true
  | some old => s.beats mine old

/-- Taking index `i` makes entry `q` record a mini-trace: it has none, or it loses the one
it has because it takes its only index from itself. -/
def recordsMini (s : QueueState) (q i : ℕ) : Prop :=
  s.wins (s.rating q) i = true ∧ ((s.queueBuf q).traceMini = none ∨
    (s.topRated i = some q ∧ (s.queueBuf q).tcRef = 1))

/-- `hits q` is the set of indices that the runs of entry `q` hit. -/
def OwnTrace (s : QueueState) (hits : ℕ → ℕ → Bool) (q : ℕ) (trace : Mem) : Prop :=
  ∀ j < s.geometry.mapSize, trace j ≠ 0 ↔ hits q j = true

/-- Whenever a call of `update_bitmap_rescore` records a mini-trace, the shared buffer
contains the trace of the entry it is recorded for. -/
def RescoresMeet (hits : ℕ → ℕ → Bool) : QueueState → List (ℕ × ℕ) → Prop
  | _, [] => True
  | s, p :: ps =>
    (s.recordsMini p.1 p.2 → ∀ j < s.geometry.mapSize, hits p.1 j = true → s.traceBits j ≠ 0) ∧
      RescoresMeet hits (s.updateBitmapRescore p.1 p.2) ps

def StepMeets (hits : ℕ → ℕ → Bool) (s : QueueState) : Op → Prop
  | .score q trace haveTrace =>
    q < s.queuedItems → haveTrace = true → s.OwnTrace hits q trace
  | .recalculate traceOf =>
    (∀ q ∈ s.unscored, (s.queueBuf q).disabled = false → s.OwnTrace hits q (traceOf q)) ∧
      RescoresMeet hits (s.unscored.foldl (enroll traceOf) s)
        (s.unscored.foldl (enroll traceOf) s).rescorings
  | _ => True

def RunMeets (hits : ℕ → ℕ → Bool) : QueueState → List Op → Prop
  | _, [] => True
  | s, op :: ops => s.StepMeets hits op ∧ RunMeets hits (s.step op) ops

/-- Winners and candidates hit their index, and a mini-trace contains all that its entry
hits. -/
structure Owned (hits : ℕ → ℕ → Bool) (s : QueueState) : Prop where
  mini_hits : ∀ q m, (s.queueBuf q).traceMini = some m →
    ∀ i < s.geometry.mapSize, hits q i = true → bitSet m i = true
  winner_hits : ∀ i q, s.topRated i = some q → i < s.geometry.mapSize ∧ hits q i = true
  candidate_hits : ∀ i, ∀ q ∈ s.topRatedCandidates i, hits q i = true

section Contest
variable {hits : ℕ → ℕ → Bool} {s : QueueState} {q i : ℕ}

theorem Owned.insertWinner (h : s.Owned hits) (him : i < s.geometry.mapSize)
    (hqi : hits q i = true)
    (hrec : (s.queueBuf q).traceMini = none →
      ∀ j < s.geometry.mapSize, hits q j = true → s.traceBits j ≠ 0) :
    (s.insertWinner q i).Owned hits := by
  refine ⟨fun r m => ?_, fun j r => ?_, h.candidate_hits⟩
  · change _ → ∀ j < s.geometry.mapSize, _
    by_cases hr : r = q
    · rw [hr, insertWinner_self]
      dsimp only
      split
      · intro hm
        exact h.mini_hits q m (hm ▸ ‹_›)
      · intro hm j hj hhit
        rw [← Option.some_inj.1 hm, bitSet_minimizeBits _ _ hj]
        exact hrec ‹_› j hj hhit
    · rw [insertWinner_of_ne _ _ hr]
      exact h.mini_hits r m
  · change Function.update s.topRated i (some q) j = some r → j < s.geometry.mapSize ∧ _
    by_cases hj : j = i
    · rw [hj, Function.update_self, Option.some_inj]
      rintro rfl
      exact ⟨him, hqi⟩
    · rw [Function.update_of_ne hj]
      exact h.winner_hits j r

theorem Owned.dropWinner (h : s.Owned hits) (old : ℕ) : (s.dropWinner old).Owned hits := by
  refine ⟨fun r m => ?_, h.winner_hits, h.candidate_hits⟩
  change _ → ∀ j < s.geometry.mapSize, _
  by_cases hr : r = old
  · rw [hr, dropWinner_self]
    dsimp only
    split
    · simp
    · exact h.mini_hits old m
  · rw [dropWinner_of_ne _ hr]
    exact h.mini_hits r m

/-- After the previous winner has given up index `i`, entry `q` is without a mini-trace only
if it had none or gave up its own last index. -/
theorem traceMini_dropWinner (hcount : s.Counted) {old : ℕ} (hi : s.topRated i = some old)
    (hnone : ((s.dropWinner old).queueBuf q).traceMini = none) :
    (s.queueBuf q).traceMini = none ∨ (s.topRated i = some q ∧ (s.queueBuf q).tcRef = 1) := by
  by_cases hq : q = old
  · subst hq
    rw [dropWinner_self] at hnone
    dsimp only at hnone
    split at hnone
    · have hlt : (s.queueBuf q).tcRef < 2 ^ 32 := hcount.tcRef_eq q ▸ s.slots_card_lt q
      refine .inr ⟨hi, ?_⟩
      unfold decU32 at *
      omega
    · exact .inl hnone
  · rw [dropWinner_of_ne _ hq] at hnone
    exact .inl hnone

theorem Owned.contest (h : s.Owned hits) (hcount : s.Counted) (mine : ℕ × ℕ)
    (him : i < s.geometry.mapSize) (hqi : hits q i = true)
    (hrec : s.wins mine i = true → ((s.queueBuf q).traceMini = none ∨
      (s.topRated i = some q ∧ (s.queueBuf q).tcRef = 1)) →
      ∀ j < s.geometry.mapSize, hits q j = true → s.traceBits j ≠ 0) :
    (s.contest mine q i).Owned hits := by
  unfold QueueState.contest
  unfold wins at hrec
  cases hi : s.topRated i with
  | none =>
    rw [hi] at hrec
    exact h.insertWinner him hqi fun hnone => hrec rfl (.inl hnone)
  | some old =>
    rw [hi] at hrec
    dsimp only at hrec ⊢
    split
    · refine (h.dropWinner old).insertWinner him hqi fun hnone => hrec ‹_› ?_
      exact hi ▸ traceMini_dropWinner hcount hi hnone
    · exact h

end Contest

section Run
variable {hits : ℕ → ℕ → Bool} {s : QueueState}

theorem Owned.of_keeps {t : QueueState} (h : s.Owned hits) (hk : s.Keeps t) : t.Owned hits where
  mini_hits q m hm := by
    rw [hk.geometry_eq]
    exact h.mini_hits q m (hk.mini_of q m hm)
  winner_hits := by
    rw [hk.geometry_eq, hk.topRated_eq]
    exact h.winner_hits
  candidate_hits := by
    rw [hk.candidates_eq]
    exact h.candidate_hits

theorem Owned.addToQueue (h : s.Owned hits) (len depth : ℕ) :
    (s.addToQueue len depth).Owned hits := by
  refine ⟨fun q m => ?_, h.winner_hits, h.candidate_hits⟩
  change (Function.update s.queueBuf s.queuedItems _ q).traceMini = some m →
    ∀ j < s.geometry.mapSize, _
  by_cases hq : q = s.queuedItems
  · rw [hq, Function.update_self]
    simp
  · rw [Function.update_of_ne hq]
    exact h.mini_hits q m

theorem Owned.score (h : s.Owned hits) (hcount : s.Counted) (q : ℕ) (trace : Mem)
    (haveTrace : Bool) (hmeet : s.StepMeets hits (.score q trace haveTrace)) :
    (s.score q trace haveTrace).Owned hits := by
  have hk := traceBits_keeps s trace
  unfold QueueState.score
  split
  · rename_i hq
    refine (updateBitmapScore_induct (P := fun t => t.Owned hits ∧ t.Counted)
      { s with traceBits := trace } q haveTrace ⟨h.of_keeps hk, hcount.of_keeps hk⟩ ?_).1
    rintro t ⟨ht, hc⟩ hg hn htr i hi hne htrace
    have hown : s.OwnTrace hits q trace := hmeet hq htrace
    have him : i < t.geometry.mapSize := hg ▸ hi
    refine ⟨ht.contest hc _ him ((hown i hi).1 hne) fun _ _ j hj hhit => ?_,
      hc.contest _ him (hn ▸ hq)⟩
    rw [htr]
    exact (hown j (hg ▸ hj)).2 hhit
  · exact h

theorem Owned.rescores {ps : List (ℕ × ℕ)} (h : s.Owned hits) (hcount : s.Counted)
    (hps : ∀ p ∈ ps, p.2 < s.geometry.mapSize ∧ p.1 ∈ s.topRatedCandidates p.2)
    (hmeet : RescoresMeet hits s ps) :
    (ps.foldl (fun s p => s.updateBitmapRescore p.1 p.2) s).Owned hits := by
  induction ps generalizing s with
  | nil => exact h
  | cons p ps ih =>
    obtain ⟨hrec, hrest⟩ := hmeet
    obtain ⟨hi, hq⟩ := hps p List.mem_cons_self
    refine ih (h.contest hcount _ hi (h.candidate_hits _ _ hq) fun hw hm => hrec ⟨hw, hm⟩)
      (hcount.contest _ hi (hcount.candidate_lt _ _ hq)) (fun p' hp' => ?_) hrest
    unfold updateBitmapRescore
    rw [contest_geometry, contest_candidates]
    exact hps p' (List.mem_cons_of_mem p hp')

theorem Owned.enrollAll (h : s.Owned hits) (traceOf : ℕ → Mem)
    (hown : ∀ q ∈ s.unscored, (s.queueBuf q).disabled = false → s.OwnTrace hits q (traceOf q)) :
    (s.unscored.foldl (enroll traceOf) s).Owned hits := by
  refine (List.foldlRecOn (motive := fun t : QueueState => t.Owned hits ∧
    t.geometry = s.geometry ∧ t.queueBuf = s.queueBuf) _ _ ⟨h, rfl, rfl⟩ ?_).1
  rintro t ⟨ht, hg, hb⟩ q hq
  refine ⟨⟨?_, ?_, fun i r hr => ?_⟩, (enroll_geometry ..).trans hg, (enroll_queueBuf ..).trans hb⟩
  · simpa using ht.mini_hits
  · simpa using ht.winner_hits
  · rcases mem_enroll_candidates hr with hold | ⟨rfl, hd, hi, hne⟩
    · exact ht.candidate_hits i r hold
    · exact (hown r hq (hb ▸ hd) i (hg ▸ hi)).1 hne

theorem Owned.recalculate (h : s.Owned hits) (hcount : s.Counted) (traceOf : ℕ → Mem)
    (hmeet : s.StepMeets hits (.recalculate traceOf)) :
    (s.recalculateAllScores traceOf).Owned hits :=
  (h.enrollAll traceOf hmeet.1).rescores (hcount.enrollAll traceOf).1
    (fun _ hp => mem_rescorings.1 hp) hmeet.2

theorem Owned.step (h : s.Owned hits) (hcount : s.Counted) (op : Op)
    (hmeet : s.StepMeets hits op) : (s.step op).Owned hits := by
  cases op with
  | add len depth => exact h.addToQueue len depth
  | adjust schedule nFuzz data => exact h.of_keeps (adjust_keeps s schedule nFuzz data)
  | score q trace haveTrace => exact h.score hcount q trace haveTrace hmeet
  | recalculate traceOf => exact h.recalculate hcount traceOf hmeet
  | cull => exact h.of_keeps (cullQueue_keeps s)

theorem Owned.run (h : s.Owned hits) (hcount : s.Counted) (ops : List Op)
    (hmeet : RunMeets hits s ops) : (s.run ops).Owned hits := by
  induction ops generalizing s with
  | nil => exact h
  | cons op ops ih => exact ih (h.step hcount op hmeet.1) (hcount.step op) hmeet.2

theorem Fresh.owned (h : s.Fresh) (hits : ℕ → ℕ → Bool) : s.Owned hits where
  mini_hits q m hm := by
    simp [h.traceMini_eq] at hm
  winner_hits i q hq := by
    simp [h.topRated_eq] at hq
  candidate_hits i q hq := by
    simp [h.candidates_eq] at hq

/-- Along a run that meets the conditions the mini-trace of a winner has the bit of every
index it has won. -/
theorem run_winner_mini (hits : ℕ → ℕ → Bool) (h : s.Fresh) (ops : List Op)
    (hmeet : RunMeets hits s ops) (i q : ℕ) (m : Mem) (hi : (s.run ops).topRated i = some q)
    (hm : ((s.run ops).queueBuf q).traceMini = some m) : bitSet m i = true := by
  have hrun := (h.owned hits).run h.counted ops hmeet
  obtain ⟨him, hhit⟩ := hrun.winner_hits i q hi
  exact hrun.mini_hits q m hm i him hhit

end Run

/-- Entry 0 competes with itself for index 0 while the shared buffer holds the trace of
entry 1, so the mini-trace it records has no bit 0. -/
theorem recalculate_foreign_mini :
    let s := emptyQueue.run [.add 8 0, .score 0 (traceOn [0]) true, .add 8 0,
      .score 1 (traceOn [1]) true, .recalculate (fun q => traceOn [q])]
    s.topRated 0 = some 0 ∧ (s.queueBuf 0).traceMini.map (fun m => bitSet m 0) = some false := by
  decide +kernel

theorem ownTrace_traceOn (s : QueueState) {hits : ℕ → ℕ → Bool} {q : ℕ} {is : List ℕ}
    (h : ∀ j, hits q j = decide (j ∈ is)) : s.OwnTrace hits q (traceOn is) := by
  intro j _
  simp [traceOn, h]

/-- A single entry is scored again while the buffer holds its own trace. -/
def ownRescore : List Op :=
  [.add 8 0, .score 0 (traceOn [3]) true, .recalculate (fun _ => traceOn [3]), .cull]

theorem ownRescore_meets : RunMeets (fun _ j => decide (j ∈ [3])) emptyQueue ownRescore := by
  refine ⟨trivial, fun _ _ => ownTrace_traceOn _ fun _ => rfl,
    ⟨fun _ _ _ => ownTrace_traceOn _ fun _ => rfl, ?_⟩, trivial, trivial⟩
  generalize hs : List.foldl _ _ _ = s
  have hlist : s.rescorings = [(0, 3)] := by
    rw [← hs]
    decide +kernel
  have htrace : ∀ j < s.geometry.mapSize, decide (j ∈ [3]) = true → s.traceBits j ≠ 0 := by
    rw [← hs]
    decide +kernel
  rw [hlist]
  exact ⟨fun _ => htrace, trivial⟩

theorem run_winner_mini_ownRescore :
    ∃ m, ((emptyQueue.run ownRescore).queueBuf 0).traceMini = some m ∧ bitSet m 3 = true := by
  have hsome : ((emptyQueue.run ownRescore).queueBuf 0).traceMini.isSome := by
    decide +kernel
  obtain ⟨m, hm⟩ := Option.isSome_iff_exists.1 hsome
  exact ⟨m, hm, run_winner_mini _ emptyQueue_fresh ownRescore ownRescore_meets 3 0 m
    (by decide +kernel) hm⟩

/-! ## The greedy cover -/

/-- Some favored entry hits index `i` in its recorded trace. -/
def covered (s : QueueState) (i : ℕ) : Bool :=
  (List.range s.queuedItems).any (fun q => (s.queueBuf q).favored &&
    match (s.queueBuf q).traceMini with
    | some m => bitSet m i
    | none => false)

theorem covered_iff {s : QueueState} {i : ℕ} : s.covered i = true ↔
    ∃ q < s.queuedItems, (s.queueBuf q).favored = true ∧
      ∃ m, (s.queueBuf q).traceMini = some m ∧ bitSet m i = true := by
  unfold covered
  rw [List.any_eq_true]
  constructor
  · rintro ⟨q, hq, h⟩
    rw [Bool.and_eq_true] at h
    refine ⟨q, List.mem_range.1 hq, h.1, ?_⟩
    cases hm : (s.queueBuf q).traceMini with
    | none => simp [hm] at h
    | some m => exact ⟨m, rfl, by simpa [hm] using h.2⟩
  · rintro ⟨q, hq, hfav, m, hm, hbit⟩
    exact ⟨q, List.mem_range.2 hq, by simp [hfav, hm, hbit]⟩

/-- Every index that has a winner is covered. -/
def Covers (s : QueueState) : Prop :=
  ∀ i < s.geometry.mapSize, s.topRated i ≠ none → s.covered i = true

/-- `t` has all favored entries of `s`, with their mini-traces. -/
structure Favors (s t : QueueState) : Prop where
  queuedItems_eq : t.queuedItems = s.queuedItems
  favored_of : ∀ q, (s.queueBuf q).favored = true → (t.queueBuf q).favored = true
  mini_eq : ∀ q, (s.queueBuf q).favored = true →
    (t.queueBuf q).traceMini = (s.queueBuf q).traceMini

theorem Favors.covered {s t : QueueState} (h : s.Favors t) {i : ℕ} (hs : s.covered i = true) :
    t.covered i = true := by
  obtain ⟨q, hq, hfav, m, hm, hbit⟩ := covered_iff.1 hs
  exact covered_iff.2 ⟨q, h.queuedItems_eq ▸ hq, h.favored_of q hfav, m,
    (h.mini_eq q hfav).trans hm, hbit⟩

/-- The effect of one iteration on `temp_v`, when the winner has its mini-trace. -/
theorem bitSet_clear (g : MapGeometry) (v m : Mem) {i : ℕ} (hi : i < g.mapSize) :
    bitSet (fun j => if j < g.mapSize >>> 3 then v j &&& ~~~m j else v j) i =
      (bitSet v i && !bitSet m i) := by
  have hlt : i / 8 < g.mapSize >>> 3 := by
    have := g.aligned
    rw [Nat.shiftRight_eq_div_pow]
    omega
  have hbit : i % 8 < 8 := Nat.mod_lt i (by decide)
  rw [bitSet_eq, bitSet_eq, bitSet_eq, if_pos hlt]
  simp [hbit]

/-- Progress of the winner loop after the indices below `n`: what is cleared in `temp_v` is
covered, and every won index seen so far is cleared. -/
structure Favoring (s : QueueState) (n : ℕ) (t : Mem × QueueState) : Prop where
  geometry_eq : t.2.geometry = s.geometry
  topRated_eq : t.2.topRated = s.topRated
  queuedItems_eq : t.2.queuedItems = s.queuedItems
  mini_eq : ∀ q, (t.2.queueBuf q).traceMini = (s.queueBuf q).traceMini
  cleared : ∀ i < s.geometry.mapSize, bitSet t.1 i = false → t.2.covered i = true
  done : ∀ i < n, s.topRated i ≠ none → bitSet t.1 i = false

theorem favor_favors (s : QueueState) (w : ℕ) :
    s.Favors (s.modifyEntry w (fun e => { e with favored := true })) := by
  refine ⟨rfl, fun q hq => ?_, fun q _ => ?_⟩
  · by_cases hw : q = w
    · rw [hw, modifyEntry_self]
    · rwa [modifyEntry_of_ne _ _ hw]
  · by_cases hw : q = w
    · rw [hw, modifyEntry_self]
    · rw [modifyEntry_of_ne _ _ hw]

section Favoring
variable {s : QueueState} {n : ℕ} {t : Mem × QueueState}

/-- Clear the bits of the mini-trace `m` of an entry that `u` favors. -/
theorem Favoring.clear (h : Favoring s n t) {w : ℕ} {m : Mem} {u : QueueState}
    (hw : w < s.queuedItems) (hm : (s.queueBuf w).traceMini = some m)
    (hbit : bitSet m n = true) (hn : n < s.geometry.mapSize) (hg : u.geometry = s.geometry)
    (htop : u.topRated = s.topRated) (hmini : ∀ q, (u.queueBuf q).traceMini =
      (s.queueBuf q).traceMini) (hfav : t.2.Favors u) (hwfav : (u.queueBuf w).favored = true) :
    Favoring s (n + 1) (fun j =>
      if j < s.geometry.mapSize >>> 3 then t.1 j &&& ~~~m j else t.1 j, u) := by
  have hitems : u.queuedItems = s.queuedItems := hfav.queuedItems_eq.trans h.queuedItems_eq
  refine ⟨hg, htop, hitems, hmini, fun i hi hclear => ?_, fun i hi hne => ?_⟩
  · rw [bitSet_clear _ _ _ hi, Bool.and_eq_false_iff, Bool.not_eq_false'] at hclear
    rcases hclear with hold | hnew
    · exact hfav.covered (h.cleared i hi hold)
    · exact covered_iff.2 ⟨w, hitems ▸ hw, hwfav, m, (hmini w).trans hm, hnew⟩
  · have him : i < s.geometry.mapSize := by omega
    rw [bitSet_clear _ _ _ him]
    rcases Nat.lt_succ_iff_lt_or_eq.1 hi with hlt | rfl
    · rw [h.done i hlt hne, Bool.false_and]
    · rw [hbit, Bool.not_true, Bool.and_false]

theorem Favoring.step (h : Favoring s n t) (hn : n < s.geometry.mapSize)
    (hlt : ∀ w, s.topRated n = some w → w < s.queuedItems)
    (hmini : ∀ w, s.topRated n = some w →
      ∃ m, (s.queueBuf w).traceMini = some m ∧ bitSet m n = true) :
    Favoring s (n + 1) (favorStep t n) := by
  have hdone : s.topRated n = none ∨ bitSet t.1 n = false → Favoring s (n + 1) t := by
    refine fun hcase => { h with done := fun i hi hne => ?_ }
    rcases Nat.lt_succ_iff_lt_or_eq.1 hi with hlt | rfl
    · exact h.done i hlt hne
    · exact hcase.resolve_left hne
  unfold favorStep
  dsimp only
  rw [h.topRated_eq, h.geometry_eq]
  cases hw : s.topRated n with
  | none => exact hdone (.inl hw)
  | some w =>
    obtain ⟨m, hm, hbit⟩ := hmini w hw
    dsimp only
    rw [h.mini_eq, hm]
    dsimp only
    split
    · split
      · exact h.clear (hlt w hw) hm hbit hn h.geometry_eq h.topRated_eq h.mini_eq
          ⟨rfl, fun _ => id, fun _ _ => rfl⟩ ‹_›
      · have hfav := favor_favors t.2 w
        refine h.clear (hlt w hw) hm hbit hn h.geometry_eq h.topRated_eq (fun q => ?_)
          ⟨rfl, hfav.favored_of, hfav.mini_eq⟩ ?_
        · refine Eq.trans ?_ (h.mini_eq q)
          by_cases hq : q = w
          · rw [hq, modifyEntry_self]
          · rw [modifyEntry_of_ne _ _ hq]
        · dsimp only
          rw [modifyEntry_self]
    · exact hdone (.inr (Bool.eq_false_iff.2 ‹_›))

end Favoring

theorem bitSet_full (i : ℕ) : bitSet (fun _ => 0xff) i = true := by
  have hbit : i % 8 < 8 := Nat.mod_lt i (by decide)
  rw [bitSet_eq]
  generalize i % 8 = k at hbit
  revert k
  decide

/-- If all winners have their mini-traces, with their own indices in them, then the winner
loop leaves every won index covered. -/
theorem favorWinners_covers {s : QueueState}
    (hlt : ∀ i w, s.topRated i = some w → w < s.queuedItems)
    (hmini : ∀ i < s.geometry.mapSize, ∀ w, s.topRated i = some w →
      ∃ m, (s.queueBuf w).traceMini = some m ∧ bitSet m i = true) :
    s.favorWinners.Covers := by
  have hloop : ∀ n ≤ s.geometry.mapSize,
      Favoring s n ((List.range n).foldl favorStep (fun _ => 0xff, s)) := by
    intro n
    induction n with
    | zero =>
      intro _
      refine ⟨rfl, rfl, rfl, fun _ => rfl, fun i _ hclear => ?_, fun i hi => ?_⟩
      · exact absurd (bitSet_full i) (by simpa using hclear)
      · omega
    | succ n ih =>
      intro hn
      rw [List.range_succ, List.foldl_append, List.foldl_cons, List.foldl_nil]
      exact (ih (by omega)).step (by omega) (hlt n) (hmini n (by omega))
  have h := hloop _ le_rfl
  intro i hi hne
  exact h.cleared i (h.geometry_eq ▸ hi) (h.done i (h.geometry_eq ▸ hi) (h.topRated_eq ▸ hne))

theorem markAsRedundant_entry (s : QueueState) (q r : ℕ) :
    ((s.markAsRedundant q !(s.queueBuf q).favored).queueBuf r).favored =
      (s.queueBuf r).favored ∧
    ((s.queueBuf r).favored = true →
      ((s.markAsRedundant q !(s.queueBuf q).favored).queueBuf r).traceMini =
        (s.queueBuf r).traceMini) := by
  unfold markAsRedundant
  split
  · exact ⟨rfl, fun _ => rfl⟩
  · by_cases hr : r = q
    · subst hr
      rw [modifyEntry_self]
      exact ⟨rfl, fun hfav => by simp [hfav]⟩
    · rw [modifyEntry_of_ne _ _ hr]
      exact ⟨rfl, fun _ => rfl⟩

/-- Only entries that are not favored lose their mini-trace, and no flag changes. -/
theorem markUnfavored_spec (s : QueueState) : s.Favors s.markUnfavored ∧
    ∀ q, (s.markUnfavored.queueBuf q).favored = (s.queueBuf q).favored := by
  refine List.foldlRecOn (motive := fun t : QueueState => s.Favors t ∧
    ∀ q, (t.queueBuf q).favored = (s.queueBuf q).favored) _ _
    ⟨⟨rfl, fun _ => id, fun _ _ => rfl⟩, fun _ => rfl⟩ ?_
  rintro t ⟨ht, heq⟩ q _
  split
  · exact ⟨ht, heq⟩
  · have hitems := (markAsRedundant_keeps t q !(t.queueBuf q).favored).queuedItems_eq
    have hentry := markAsRedundant_entry t q
    refine ⟨⟨hitems.trans ht.queuedItems_eq, fun r hr => ?_, fun r hr => ?_⟩, fun r => ?_⟩
    · rw [(hentry r).1, heq, hr]
    · rw [(hentry r).2 ((heq r).trans hr), ht.mini_eq r hr]
    · rw [(hentry r).1, heq]

/-- The conditions under which a step keeps the cover: those on mini-traces, and, before a
cull that takes effect, that no winner has been deprived of its mini-trace. -/
def CoverStepMeets (hits : ℕ → ℕ → Bool) (s : QueueState) (op : Op) : Prop :=
  s.StepMeets hits op ∧ (op = .cull → s.scoreChanged = true → s.nonInstrumentedMode = false →
    ∀ i w, s.topRated i = some w → (s.queueBuf w).traceMini ≠ none)

def CoverRunMeets (hits : ℕ → ℕ → Bool) : QueueState → List Op → Prop
  | _, [] => True
  | s, op :: ops => s.CoverStepMeets hits op ∧ CoverRunMeets hits (s.step op) ops

theorem CoverRunMeets.runMeets {hits : ℕ → ℕ → Bool} {s : QueueState} {ops : List Op}
    (h : CoverRunMeets hits s ops) : RunMeets hits s ops := by
  induction ops generalizing s with
  | nil => trivial
  | cons op ops ih => exact ⟨h.1.1, ih h.2⟩

theorem coverRunMeets_append (hits : ℕ → ℕ → Bool) (s : QueueState) (ops ops' : List Op) :
    CoverRunMeets hits s (ops ++ ops') ↔
      CoverRunMeets hits s ops ∧ CoverRunMeets hits (s.run ops) ops' := by
  induction ops generalizing s with
  | nil => exact ⟨fun h => ⟨trivial, h⟩, And.right⟩
  | cons op ops ih =>
    rw [List.cons_append, CoverRunMeets, CoverRunMeets, ih, and_assoc]
    rfl

theorem resetFavored_mini (s : QueueState) (q : ℕ) :
    (s.resetFavored.queueBuf q).traceMini = (s.queueBuf q).traceMini := by
  unfold resetFavored
  dsimp only
  split <;> rfl

theorem cullQueue_covers {hits : ℕ → ℕ → Bool} {s : QueueState} (hcount : s.Counted)
    (hown : s.Owned hits) (hchanged : s.scoreChanged = true)
    (hmode : s.nonInstrumentedMode = false)
    (hmini : ∀ i w, s.topRated i = some w → (s.queueBuf w).traceMini ≠ none) :
    s.cullQueue.Covers := by
  have hreset := resetFavored_keeps s
  have hfavor : s.resetFavored.favorWinners.Covers := by
    refine favorWinners_covers ?_ fun i hi w hw => ?_
    · rw [hreset.topRated_eq, hreset.queuedItems_eq]
      exact hcount.winner_lt
    · rw [hreset.topRated_eq] at hw
      obtain ⟨m, hm⟩ := Option.ne_none_iff_exists'.1 (hmini i w hw)
      obtain ⟨him, hhit⟩ := hown.winner_hits i w hw
      exact ⟨m, (resetFavored_mini s w).trans hm, hown.mini_hits w m hm i him hhit⟩
  have hmark := markUnfavored_keeps s.resetFavored.favorWinners
  unfold cullQueue
  rw [hchanged, hmode, if_neg (by decide)]
  intro i hi hne
  refine (markUnfavored_spec s.resetFavored.favorWinners).1.covered (hfavor i ?_ ?_)
  · exact hmark.geometry_eq ▸ hi
  · exact hmark.topRated_eq ▸ hne

/-- Right after every cull that takes effect in a run that meets the conditions, each index
with a winner is hit by the recorded trace of a favored entry. -/
theorem run_cull_covers (hits : ℕ → ℕ → Bool) {s : QueueState} (h : s.Fresh) (ops : List Op)
    (hmeet : CoverRunMeets hits s (ops ++ [.cull]))
    (hchanged : (s.run ops).scoreChanged = true)
    (hmode : (s.run ops).nonInstrumentedMode = false) :
    (s.run (ops ++ [.cull])).Covers := by
  obtain ⟨hops, ⟨-, hmini⟩, -⟩ := (coverRunMeets_append ..).1 hmeet
  have hrun : s.run (ops ++ [.cull]) = (s.run ops).cullQueue := by
    rw [run, List.foldl_append]
    rfl
  rw [hrun]
  exact cullQueue_covers (h.counted.run ops)
    ((h.owned hits).run h.counted ops hops.runMeets) hchanged hmode
    (hmini rfl hchanged hmode)

/-- The sizes and times of three entries, each better than the one before. -/
def shrinking (q : ℕ) : EntryData := ⟨8 - 2 * q, 1, 0, 0, false, false⟩

/-- Entry 1 takes index 1 from entry 0 and is found redundant by the first cull, which
releases its mini-trace; entry 2 then takes index 0. -/
def staleWinner : List Op :=
  [.add 8 0, .adjust .explore (fun _ => 0) shrinking, .score 0 (traceOn [0, 1]) true,
    .add 6 0, .adjust .explore (fun _ => 0) shrinking, .score 1 (traceOn [1]) true, .cull,
    .add 4 0, .adjust .explore (fun _ => 0) shrinking, .score 2 (traceOn [0]) true]

/-- Index 1 has a winner, but after the second cull no favored entry covers it. -/
theorem staleWinner_uncovered :
    (emptyQueue.run staleWinner).scoreChanged = true ∧
      (emptyQueue.run staleWinner).nonInstrumentedMode = false ∧
      (emptyQueue.run (staleWinner ++ [.cull])).topRated 1 = some 1 ∧
      (emptyQueue.run (staleWinner ++ [.cull])).covered 1 = false := by
  decide +kernel

/-- Two entries that keep their mini-traces until the cull. -/
def twoWinners : List Op :=
  [.add 8 0, .score 0 (traceOn [0, 1]) true, .add 6 0, .score 1 (traceOn [1]) true]

theorem twoWinners_meets : CoverRunMeets (fun q j => decide (j ∈ if q = 0 then [0, 1] else [1]))
    emptyQueue (twoWinners ++ [.cull]) := by
  have hops : CoverRunMeets (fun q j => decide (j ∈ if q = 0 then [0, 1] else [1]))
      emptyQueue twoWinners :=
    ⟨⟨trivial, nofun⟩, ⟨fun _ _ => ownTrace_traceOn _ fun _ => rfl, nofun⟩,
      ⟨trivial, nofun⟩, ⟨fun _ _ => ownTrace_traceOn _ fun _ => rfl, nofun⟩, trivial⟩
  refine (coverRunMeets_append ..).2 ⟨hops, ⟨trivial, fun _ _ _ i w hw => ?_⟩, trivial⟩
  have hlt := (emptyQueue_fresh.counted.run twoWinners).winner_lt i w hw
  have hall : ∀ w < (emptyQueue.run twoWinners).queuedItems,
      ((emptyQueue.run twoWinners).queueBuf w).traceMini ≠ none := by
    decide +kernel
  exact hall w hlt

theorem run_cull_covers_twoWinners : (emptyQueue.run (twoWinners ++ [.cull])).Covers :=
  run_cull_covers _ emptyQueue_fresh twoWinners twoWinners_meets (by decide +kernel)
    (by decide +kernel)

end AflPlusPlus.FavoredSet.QueueState
