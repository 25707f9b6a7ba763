import AflPlusPlus.FavoredSet

/-!
# Invariants of the favored-set bookkeeping

The reference counts, the mini-traces and the greedy cover of `cull_queue`, over every run
of the operations that touch them. A contest for one index is the only step that moves a
reference, so each invariant is proved for one contest and carried through the loops.
-/

namespace AflPlusPlus.FavoredSet.QueueState
open ByteWords CoverageMap

/-! ## Frame facts -/

section Frame
variable (s : QueueState)

theorem modifyEntry_self (q : ℕ) (f : QueueEntry → QueueEntry) :
    (s.modifyEntry q f).queueBuf q = f (s.queueBuf q) :=
  Function.update_self ..

theorem modifyEntry_of_ne {q r : ℕ} (f : QueueEntry → QueueEntry) (hr : r ≠ q) :
    (s.modifyEntry q f).queueBuf r = s.queueBuf r :=
  Function.update_of_ne hr ..

theorem dropWinner_self (old : ℕ) : (s.dropWinner old).queueBuf old =
    { s.queueBuf old with
      tcRef := decU32 (s.queueBuf old).tcRef
      traceMini := if decU32 (s.queueBuf old).tcRef = 0 then none
        else (s.queueBuf old).traceMini } := by
  unfold dropWinner
  rw [modifyEntry_self]

theorem dropWinner_of_ne {old r : ℕ} (hr : r ≠ old) :
    (s.dropWinner old).queueBuf r = s.queueBuf r := by
  unfold dropWinner
  rw [modifyEntry_of_ne _ _ hr]

theorem insertWinner_self (q i : ℕ) : (s.insertWinner q i).queueBuf q =
    { s.queueBuf q with
      tcRef := incU32 (s.queueBuf q).tcRef
      traceMini := match (s.queueBuf q).traceMini with
        | some m => some m
        | none => some (minimizeBits s.geometry (fun _ => 0) s.traceBits) } := by
  unfold insertWinner
  exact Function.update_self ..

theorem insertWinner_of_ne {q r : ℕ} (i : ℕ) (hr : r ≠ q) :
    (s.insertWinner q i).queueBuf r = s.queueBuf r := by
  unfold insertWinner
  dsimp only
  rw [modifyEntry_of_ne _ _ hr]

@[simp] theorem contest_geometry (mine : ℕ × ℕ) (q i : ℕ) :
    (s.contest mine q i).geometry = s.geometry := by
  unfold contest
  split
  · rfl
  · split <;> rfl

@[simp] theorem contest_queuedItems (mine : ℕ × ℕ) (q i : ℕ) :
    (s.contest mine q i).queuedItems = s.queuedItems := by
  unfold contest
  split
  · rfl
  · split <;> rfl

@[simp] theorem contest_candidates (mine : ℕ × ℕ) (q i : ℕ) :
    (s.contest mine q i).topRatedCandidates = s.topRatedCandidates := by
  unfold contest
  split
  · rfl
  · split <;> rfl

@[simp] theorem contest_traceBits (mine : ℕ × ℕ) (q i : ℕ) :
    (s.contest mine q i).traceBits = s.traceBits := by
  unfold contest
  split
  · rfl
  · split <;> rfl

end Frame

/-! ## Reference counts -/

/-- The indices that entry `q` has won. -/
def slots (s : QueueState) (q : ℕ) : Finset ℕ :=
  (Finset.range s.geometry.mapSize).filter (fun i => s.topRated i = some q)

structure Counted (s : QueueState) : Prop where
  tcRef_eq : ∀ q, (s.queueBuf q).tcRef = (s.slots q).card
  mini_pos : ∀ q, (s.queueBuf q).traceMini.isSome → 0 < (s.queueBuf q).tcRef
  no_underflow : s.tcRefUnderflow = false
  winner_lt : ∀ i q, s.topRated i = some q → q < s.queuedItems
  candidate_lt : ∀ i, ∀ q ∈ s.topRatedCandidates i, q < s.queuedItems

/-- The counts while index `i` is being reassigned: slot `i` is counted for nobody. -/
structure CountedExcept (i : ℕ) (s : QueueState) : Prop where
  tcRef_eq : ∀ q, (s.queueBuf q).tcRef = ((s.slots q).erase i).card
  mini_pos : ∀ q, (s.queueBuf q).traceMini.isSome → 0 < (s.queueBuf q).tcRef
  no_underflow : s.tcRefUnderflow = false
  winner_lt : ∀ i q, s.topRated i = some q → q < s.queuedItems
  candidate_lt : ∀ i, ∀ q ∈ s.topRatedCandidates i, q < s.queuedItems

theorem mem_slots {s : QueueState} {q i : ℕ} :
    i ∈ s.slots q ↔ i < s.geometry.mapSize ∧ s.topRated i = some q := by
  simp [slots]

theorem slots_card_lt (s : QueueState) (q : ℕ) : (s.slots q).card < 2 ^ 32 := by
  calc (s.slots q).card ≤ (Finset.range s.geometry.mapSize).card := Finset.card_filter_le _ _
    _ = s.geometry.mapSize := Finset.card_range _
    _ < 2 ^ 32 := s.geometry.lt_u32

theorem Counted.except_of_none {s : QueueState} {i : ℕ} (h : s.Counted)
    (hi : s.topRated i = none) : s.CountedExcept i where
  tcRef_eq q := by
    rw [h.tcRef_eq, Finset.erase_eq_of_notMem]
    simp [mem_slots, hi]
  mini_pos := h.mini_pos
  no_underflow := h.no_underflow
  winner_lt := h.winner_lt
  candidate_lt := h.candidate_lt

theorem Counted.dropWinner {s : QueueState} {i old : ℕ} (h : s.Counted)
    (him : i < s.geometry.mapSize) (hi : s.topRated i = some old) :
    (s.dropWinner old).CountedExcept i := by
  have hmem : i ∈ s.slots old := mem_slots.2 ⟨him, hi⟩
  have hpos : 0 < (s.queueBuf old).tcRef := by
    rw [h.tcRef_eq]
    exact Finset.card_pos.2 ⟨i, hmem⟩
  have hlt : (s.queueBuf old).tcRef < 2 ^ 32 := h.tcRef_eq old ▸ s.slots_card_lt old
  have hcount : decU32 (s.queueBuf old).tcRef = (s.queueBuf old).tcRef - 1 :=
    decU32_eq hpos hlt
  refine ⟨fun q => ?_, fun q => ?_, ?_, h.winner_lt, h.candidate_lt⟩
  · change _ = ((s.slots q).erase i).card
    by_cases hq : q = old
    · subst hq
      rw [dropWinner_self, hcount, Finset.card_erase_of_mem hmem, h.tcRef_eq]
    · have hnot : i ∉ s.slots q := by
        rw [mem_slots, hi]
        simpa using fun _ => Ne.symm hq
      rw [dropWinner_of_ne _ hq, h.tcRef_eq, Finset.erase_eq_of_notMem hnot]
  · by_cases hq : q = old
    · subst hq
      rw [dropWinner_self, hcount]
      by_cases hz : (s.queueBuf q).tcRef - 1 = 0
      · simp [hz]
      · exact fun _ => Nat.pos_of_ne_zero hz
    · rw [dropWinner_of_ne _ hq]
      exact h.mini_pos q
  · change (s.tcRefUnderflow || (s.queueBuf old).tcRef == 0) = false
    simpa [h.no_underflow] using hpos.ne'

theorem slots_insertWinner {s : QueueState} {i : ℕ} (him : i < s.geometry.mapSize) (q r : ℕ) :
    (s.insertWinner q i).slots r =
      if r = q then insert i ((s.slots r).erase i) else (s.slots r).erase i := by
  ext j
  rw [mem_slots]
  change j < s.geometry.mapSize ∧ Function.update s.topRated i (some q) j = some r ↔ _
  by_cases hj : j = i
  · subst hj
    by_cases hr : r = q
    · simp [hr, him]
    · simp [hr, Ne.symm hr]
  · rw [Function.update_of_ne hj]
    split <;> simp [mem_slots, hj]

theorem CountedExcept.insertWinner {s : QueueState} {q i : ℕ} (h : s.CountedExcept i)
    (him : i < s.geometry.mapSize) (hq : q < s.queuedItems) : (s.insertWinner q i).Counted := by
  have hcard : ((s.insertWinner q i).slots q).card = (s.queueBuf q).tcRef + 1 := by
    rw [slots_insertWinner him, if_pos rfl, h.tcRef_eq,
      Finset.card_insert_of_notMem (Finset.notMem_erase i _)]
  have hcount : incU32 (s.queueBuf q).tcRef = (s.queueBuf q).tcRef + 1 :=
    incU32_eq (hcard ▸ slots_card_lt _ q)
  refine ⟨fun r => ?_, fun r => ?_, h.no_underflow, fun j r => ?_, h.candidate_lt⟩
  · by_cases hr : r = q
    · rw [hr, insertWinner_self, hcard, hcount]
    · rw [insertWinner_of_ne _ _ hr, slots_insertWinner him, if_neg hr, h.tcRef_eq]
  · by_cases hr : r = q
    · rw [hr, insertWinner_self, hcount]
      exact fun _ => Nat.succ_pos _
    · rw [insertWinner_of_ne _ _ hr]
      exact h.mini_pos r
  · change Function.update s.topRated i (some q) j = some r → r < s.queuedItems
    by_cases hj : j = i
    · rw [hj, Function.update_self, Option.some_inj]
      rintro rfl
      exact hq
    · rw [Function.update_of_ne hj]
      exact h.winner_lt j r

theorem Counted.contest {s : QueueState} {q i : ℕ} (h : s.Counted) (mine : ℕ × ℕ)
    (him : i < s.geometry.mapSize) (hq : q < s.queuedItems) : (s.contest mine q i).Counted := by
  unfold QueueState.contest
  split
  · exact (h.except_of_none ‹_›).insertWinner him hq
  · split
    · exact (h.dropWinner him ‹_›).insertWinner him hq
    · exact h

/-! ## Loop rules -/

/-- What every contest of `update_bitmap_score` keeps holds after the whole loop. -/
theorem updateBitmapScore_induct {P : QueueState → Prop} (s : QueueState) (q : ℕ)
    (haveTrace : Bool) (hinit : P s)
    (hcontest : ∀ t : QueueState, P t → t.geometry = s.geometry →
      t.queuedItems = s.queuedItems → t.traceBits = s.traceBits →
      ∀ i < s.geometry.mapSize, s.traceBits i ≠ 0 → haveTrace = true →
      P (t.contest (s.rating q) q i)) :
    P (s.updateBitmapScore q haveTrace) := by
  unfold updateBitmapScore
  cases haveTrace with
  | false => exact hinit
  | true =>
    refine (List.foldlRecOn (motive := fun t : QueueState => P t ∧ t.geometry = s.geometry ∧
      t.queuedItems = s.queuedItems ∧ t.traceBits = s.traceBits) _ _
      ⟨hinit, rfl, rfl, rfl⟩ ?_).1
    rintro t ⟨ht, hg, hn, htr⟩ i hi
    split
    · refine ⟨hcontest t ht hg hn htr i (List.mem_range.1 hi) (htr ▸ ‹_›) rfl, ?_, ?_, ?_⟩
      · rw [contest_geometry, hg]
      · rw [contest_queuedItems, hn]
      · rw [contest_traceBits, htr]
    · exact ⟨ht, hg, hn, htr⟩

theorem mem_rescorings {s : QueueState} {p : ℕ × ℕ} :
    p ∈ s.rescorings ↔ p.2 < s.geometry.mapSize ∧ p.1 ∈ s.topRatedCandidates p.2 := by
  obtain ⟨q, i⟩ := p
  simp [rescorings]

@[simp] theorem enroll_geometry (traceOf : ℕ → Mem) (s : QueueState) (q : ℕ) :
    (enroll traceOf s q).geometry = s.geometry := by
  unfold enroll
  split <;> rfl

@[simp] theorem enroll_queuedItems (traceOf : ℕ → Mem) (s : QueueState) (q : ℕ) :
    (enroll traceOf s q).queuedItems = s.queuedItems := by
  unfold enroll
  split <;> rfl

@[simp] theorem enroll_topRated (traceOf : ℕ → Mem) (s : QueueState) (q : ℕ) :
    (enroll traceOf s q).topRated = s.topRated := by
  unfold enroll
  split <;> rfl

@[simp] theorem enroll_queueBuf (traceOf : ℕ → Mem) (s : QueueState) (q : ℕ) :
    (enroll traceOf s q).queueBuf = s.queueBuf := by
  unfold enroll
  split <;> rfl

@[simp] theorem enroll_underflow (traceOf : ℕ → Mem) (s : QueueState) (q : ℕ) :
    (enroll traceOf s q).tcRefUnderflow = s.tcRefUnderflow := by
  unfold enroll
  split <;> rfl

theorem mem_enroll_candidates {traceOf : ℕ → Mem} {s : QueueState} {q i r : ℕ} :
    r ∈ (enroll traceOf s q).topRatedCandidates i → r ∈ s.topRatedCandidates i ∨
      (r = q ∧ (s.queueBuf q).disabled = false ∧ i < s.geometry.mapSize ∧ traceOf q i ≠ 0) := by
  unfold enroll
  cases hd : (s.queueBuf q).disabled with
  | true => exact .inl
  | false =>
    rw [if_neg Bool.false_ne_true]
    dsimp only
    split
    · rw [List.mem_append, List.mem_singleton]
      exact Or.imp_right fun hr => ⟨hr, rfl, ‹_›⟩
    · exact .inl

/-! ## The counts along a run -/

theorem Counted.enroll {s : QueueState} {q : ℕ} (h : s.Counted) (traceOf : ℕ → Mem)
    (hq : q < s.queuedItems) : (enroll traceOf s q).Counted where
  tcRef_eq r := by
    simpa [slots] using h.tcRef_eq r
  mini_pos r := by
    simpa using h.mini_pos r
  no_underflow := by
    simpa using h.no_underflow
  winner_lt := by
    simpa using h.winner_lt
  candidate_lt i r hr := by
    rw [enroll_queuedItems]
    rcases mem_enroll_candidates hr with hold | ⟨rfl, _⟩
    · exact h.candidate_lt i r hold
    · exact hq

theorem Counted.enrollAll {s : QueueState} (h : s.Counted) (traceOf : ℕ → Mem) :
    (s.unscored.foldl (QueueState.enroll traceOf) s).Counted ∧
      (s.unscored.foldl (QueueState.enroll traceOf) s).queuedItems = s.queuedItems := by
  refine List.foldlRecOn (motive := fun t : QueueState =>
    t.Counted ∧ t.queuedItems = s.queuedItems) _ _ ⟨h, rfl⟩ ?_
  rintro t ⟨ht, hn⟩ q hq
  have hlt : q < s.queuedItems := List.mem_range.1 (List.mem_filter.1 hq).1
  exact ⟨ht.enroll traceOf (hn ▸ hlt), by rw [enroll_queuedItems, hn]⟩

theorem Counted.recalculate {s : QueueState} (h : s.Counted) (traceOf : ℕ → Mem) :
    (s.recalculateAllScores traceOf).Counted := by
  unfold recalculateAllScores
  obtain ⟨ht, -⟩ := h.enrollAll traceOf
  generalize s.unscored.foldl (QueueState.enroll traceOf) s = t at ht
  refine (List.foldlRecOn (motive := fun u : QueueState => u.Counted ∧ u.geometry = t.geometry ∧
    u.topRatedCandidates = t.topRatedCandidates) _ _ ⟨ht, rfl, rfl⟩ ?_).1
  rintro u ⟨hu, hg, hc⟩ ⟨q, i⟩ hp
  obtain ⟨hi, hq⟩ := mem_rescorings.1 hp
  unfold updateBitmapRescore
  refine ⟨hu.contest _ (hg ▸ hi) (hu.candidate_lt i q (hc ▸ hq)), ?_, ?_⟩
  · rw [contest_geometry, hg]
  · rw [contest_candidates, hc]

/-- `t` has the winners and counts of `s` and no mini-trace that `s` does not have. -/
structure Keeps (s t : QueueState) : Prop where
  geometry_eq : t.geometry = s.geometry
  topRated_eq : t.topRated = s.topRated
  candidates_eq : t.topRatedCandidates = s.topRatedCandidates
  queuedItems_eq : t.queuedItems = s.queuedItems
  underflow_eq : t.tcRefUnderflow = s.tcRefUnderflow
  tcRef_eq : ∀ q, (t.queueBuf q).tcRef = (s.queueBuf q).tcRef
  mini_of : ∀ q m, (t.queueBuf q).traceMini = some m → (s.queueBuf q).traceMini = some m

theorem Keeps.rfl {s : QueueState} : s.Keeps s :=
  ⟨Eq.refl _, Eq.refl _, Eq.refl _, Eq.refl _, Eq.refl _, fun _ => Eq.refl _, fun _ _ => id⟩

theorem Keeps.trans {s t u : QueueState} (h : s.Keeps t) (h' : t.Keeps u) : s.Keeps u where
  geometry_eq := h'.geometry_eq.trans h.geometry_eq
  topRated_eq := h'.topRated_eq.trans h.topRated_eq
  candidates_eq := h'.candidates_eq.trans h.candidates_eq
  queuedItems_eq := h'.queuedItems_eq.trans h.queuedItems_eq
  underflow_eq := h'.underflow_eq.trans h.underflow_eq
  tcRef_eq q := (h'.tcRef_eq q).trans (h.tcRef_eq q)
  mini_of q m hm := h.mini_of q m (h'.mini_of q m hm)

theorem Counted.of_keeps {s t : QueueState} (h : s.Counted) (hk : s.Keeps t) : t.Counted where
  tcRef_eq q := by
    rw [hk.tcRef_eq, h.tcRef_eq, slots, slots, hk.geometry_eq, hk.topRated_eq]
  mini_pos q hq := by
    obtain ⟨m, hm⟩ := Option.isSome_iff_exists.1 hq
    rw [hk.tcRef_eq]
    exact h.mini_pos q (by rw [hk.mini_of q m hm]; rfl)
  no_underflow := hk.underflow_eq.trans h.no_underflow
  winner_lt := by
    rw [hk.topRated_eq, hk.queuedItems_eq]
    exact h.winner_lt
  candidate_lt := by
    rw [hk.candidates_eq, hk.queuedItems_eq]
    exact h.candidate_lt

theorem modifyEntry_keeps (s : QueueState) (q : ℕ) {f : QueueEntry → QueueEntry}
    (href : (f (s.queueBuf q)).tcRef = (s.queueBuf q).tcRef)
    (hmini : ∀ m, (f (s.queueBuf q)).traceMini = some m → (s.queueBuf q).traceMini = some m) :
    s.Keeps (s.modifyEntry q f) := by
  refine ⟨rfl, rfl, rfl, rfl, rfl, fun r => ?_, fun r m hm => ?_⟩
  · by_cases hr : r = q
    · rw [hr, modifyEntry_self, href]
    · rw [modifyEntry_of_ne _ _ hr]
  · by_cases hr : r = q
    · rw [hr, modifyEntry_self] at hm
      exact hr ▸ hmini m hm
    · rwa [modifyEntry_of_ne _ _ hr] at hm

theorem traceBits_keeps (s : QueueState) (trace : Mem) :
    s.Keeps { s with traceBits := trace } :=
  ⟨rfl, rfl, rfl, rfl, rfl, fun _ => rfl, fun _ _ => id⟩

theorem adjust_keeps (s : QueueState) (schedule : Schedule) (nFuzz : ℕ → ℕ)
    (data : ℕ → EntryData) : s.Keeps (s.adjust schedule nFuzz data) :=
  ⟨rfl, rfl, rfl, rfl, rfl, fun _ => rfl, fun _ _ => id⟩

theorem Counted.score {s : QueueState} (h : s.Counted) (q : ℕ) (trace : Mem) (haveTrace : Bool) :
    (s.score q trace haveTrace).Counted := by
  unfold QueueState.score
  split
  · refine updateBitmapScore_induct _ q haveTrace (h.of_keeps (traceBits_keeps s trace))
      fun t ht hg hn _ i hi _ _ => ht.contest _ (hg ▸ hi) ?_
    rw [hn]
    assumption
  · exact h

theorem favorStep_keeps (t : Mem × QueueState) (i : ℕ) : t.2.Keeps (favorStep t i).2 := by
  unfold favorStep
  dsimp only
  split
  · exact .rfl
  · rename_i w _
    split
    · exact .rfl
    · split
      · split
        · exact .rfl
        · exact (modifyEntry_keeps t.2 w (f := fun e => { e with favored := true }) rfl
            fun _ => id).trans ⟨rfl, rfl, rfl, rfl, rfl, fun _ => rfl, fun _ _ => id⟩
      · exact .rfl

theorem resetFavored_keeps (s : QueueState) : s.Keeps s.resetFavored := by
  refine ⟨rfl, rfl, rfl, rfl, rfl, fun q => ?_, fun q m => ?_⟩
  · unfold resetFavored
    dsimp only
    split <;> rfl
  · unfold resetFavored
    dsimp only
    split <;> exact id

theorem favorWinners_keeps (s : QueueState) : s.Keeps s.favorWinners :=
  List.foldlRecOn (motive := fun t : Mem × QueueState => s.Keeps t.2) _ _ .rfl
    fun t ht i _ => ht.trans (favorStep_keeps t i)

theorem markAsRedundant_keeps (s : QueueState) (q : ℕ) (state : Bool) :
    s.Keeps (s.markAsRedundant q state) := by
  unfold markAsRedundant
  split
  · exact .rfl
  · refine modifyEntry_keeps s q rfl fun m => ?_
    cases state <;> simp

theorem markUnfavored_keeps (s : QueueState) : s.Keeps s.markUnfavored := by
  refine List.foldlRecOn (motive := fun t : QueueState => s.Keeps t) _ _ .rfl fun t ht q _ => ?_
  split
  · exact ht
  · exact ht.trans (markAsRedundant_keeps t q _)

theorem cullQueue_keeps (s : QueueState) : s.Keeps s.cullQueue := by
  unfold cullQueue
  split
  · exact .rfl
  · have hk := ((resetFavored_keeps s).trans (favorWinners_keeps _)).trans (markUnfavored_keeps _)
    exact hk.trans ⟨rfl, rfl, rfl, rfl, rfl, fun _ => rfl, fun _ _ => id⟩

theorem Counted.addToQueue {s : QueueState} (h : s.Counted) (len depth : ℕ) :
    (s.addToQueue len depth).Counted := by
  have hslots : s.slots s.queuedItems = ∅ := by
    rw [Finset.eq_empty_iff_forall_notMem]
    intro i hi
    exact (h.winner_lt i _ (mem_slots.1 hi).2).false
  refine ⟨fun q => ?_, fun q => ?_, h.no_underflow,
    fun i q hq => (h.winner_lt i q hq).trans (Nat.lt_succ_self _),
    fun i q hq => (h.candidate_lt i q hq).trans (Nat.lt_succ_self _)⟩
  · change (Function.update s.queueBuf s.queuedItems _ q).tcRef = (s.slots q).card
    by_cases hq : q = s.queuedItems
    · rw [hq, Function.update_self, hslots]
      rfl
    · rw [Function.update_of_ne hq, h.tcRef_eq]
  · unfold QueueState.addToQueue
    dsimp only
    by_cases hq : q = s.queuedItems
    · rw [hq, Function.update_self]
      simp
    · rw [Function.update_of_ne hq]
      exact h.mini_pos q

@[simp] theorem step_geometry (s : QueueState) (op : Op) : (s.step op).geometry = s.geometry := by
  cases op with
  | add len depth => rfl
  | adjust schedule nFuzz data => rfl
  | score q trace haveTrace =>
    unfold step score
    dsimp only
    split
    · exact updateBitmapScore_induct (P := fun t => t.geometry = s.geometry) _ q haveTrace rfl
        fun t ht _ _ _ i _ _ _ => (contest_geometry ..).trans ht
    · rfl
  | recalculate traceOf =>
    unfold step recalculateAllScores
    refine List.foldlRecOn (motive := fun t : QueueState => t.geometry = s.geometry) _ _ ?_
      fun t ht p _ => (contest_geometry ..).trans ht
    exact List.foldlRecOn (motive := fun t : QueueState => t.geometry = s.geometry) _ _ rfl
      fun t ht q _ => (enroll_geometry ..).trans ht
  | cull => exact (cullQueue_keeps s).geometry_eq

theorem Counted.step {s : QueueState} (h : s.Counted) (op : Op) : (s.step op).Counted := by
  cases op with
  | add len depth => exact h.addToQueue len depth
  | adjust schedule nFuzz data => exact h.of_keeps (adjust_keeps s schedule nFuzz data)
  | score q trace haveTrace => exact h.score q trace haveTrace
  | recalculate traceOf => exact h.recalculate traceOf
  | cull => exact h.of_keeps (cullQueue_keeps s)

theorem Fresh.counted {s : QueueState} (h : s.Fresh) : s.Counted where
  tcRef_eq q := by
    have hslots : s.slots q = ∅ := by
      simp [slots, h.topRated_eq]
    rw [h.tcRef_eq, hslots, Finset.card_empty]
  mini_pos q := by
    simp [h.traceMini_eq]
  no_underflow := h.underflow_eq
  winner_lt i q hq := by
    simp [h.topRated_eq] at hq
  candidate_lt i q hq := by
    simp [h.candidates_eq] at hq

theorem run_geometry (s : QueueState) (ops : List Op) : (s.run ops).geometry = s.geometry :=
  List.foldlRecOn (motive := fun t : QueueState => t.geometry = s.geometry) _ _ rfl
    fun t ht op _ => (step_geometry t op).trans ht

theorem Counted.run {s : QueueState} (h : s.Counted) (ops : List Op) : (s.run ops).Counted :=
  List.foldlRecOn (motive := Counted) _ _ h fun _ ht op _ => ht.step op

/-- After every run `tc_ref` is the number of indices an entry holds, it was never
decremented at zero, and only entries that hold an index have a mini-trace. -/
theorem run_tcRef {s : QueueState} (h : s.Fresh) (ops : List Op) :
    (∀ q, ((s.run ops).queueBuf q).tcRef =
      ((Finset.range s.geometry.mapSize).filter
        (fun i => (s.run ops).topRated i = some q)).card) ∧
    (s.run ops).tcRefUnderflow = false ∧
    ∀ q, ((s.run ops).queueBuf q).traceMini ≠ none → 0 < ((s.run ops).queueBuf q).tcRef := by
  have hrun := h.counted.run ops
  refine ⟨fun q => ?_, hrun.no_underflow, fun q hq => hrun.mini_pos q ?_⟩
  · rw [hrun.tcRef_eq, slots, run_geometry]
  · exact Option.ne_none_iff_isSome.1 hq

/-- A map of one 64-byte block with an empty queue. -/
def emptyQueue : QueueState where
  geometry := ⟨64, 64, by decide, by decide, by decide⟩

theorem emptyQueue_fresh : emptyQueue.Fresh :=
  ⟨fun _ => rfl, fun _ => rfl, fun _ => rfl, fun _ => rfl, rfl⟩

/-- A trace that hits exactly the listed indices. -/
def traceOn (is : List ℕ) : Mem := fun i => if i ∈ is then 1 else 0

/-- Two entries compete for index 1 and the second one takes it over. -/
def takeover : List Op :=
  [.add 8 0, .score 0 (traceOn [0, 1]) true, .add 4 0, .score 1 (traceOn [1]) true, .cull]

theorem run_tcRef_takeover :
    ((emptyQueue.run takeover).queueBuf 0).tcRef = 1 ∧
      ((emptyQueue.run takeover).queueBuf 1).tcRef = 1 ∧
      (emptyQueue.run takeover).tcRefUnderflow = false := by
  obtain ⟨hcount, hflow, -⟩ := run_tcRef emptyQueue_fresh takeover
  refine ⟨?_, ?_, hflow⟩
  · rw [hcount 0]
    decide +kernel
  · rw [hcount 1]
    decide +kernel

end AflPlusPlus.FavoredSet.QueueState
