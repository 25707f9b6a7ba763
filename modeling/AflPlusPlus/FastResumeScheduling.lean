import AflPlusPlus.FastResumeRoundTrip

/-!
# The favored set after a fast resume

A resumed session has the saved reference counts, favored flags and mini-traces, but no winners.
The first entry that is scored wins every index of its trace, and the cull that follows
favors this entry alone.
-/

namespace AflPlusPlus.FavoredSet.QueueState
open ByteWords CoverageMap

/-- A step that lets no entry compete for an index. -/
def Quiet : Op → Prop
  | .score _ _ haveTrace => haveTrace = false
  | .recalculate _ => False
  | _ => True

/-- `t` is reached from `s` by quiet steps: there are no winners, the old entries have their
flags and mini-traces, and the new ones have none. -/
structure Resting (s t : QueueState) : Prop where
  geometry_eq : t.geometry = s.geometry
  topRated_eq : ∀ i, t.topRated i = none
  scoreChanged_eq : t.scoreChanged = false
  nonInstrumentedMode_eq : t.nonInstrumentedMode = s.nonInstrumentedMode
  queuedItems_le : s.queuedItems ≤ t.queuedItems
  favored_eq : ∀ i < s.queuedItems, (t.queueBuf i).favored = (s.queueBuf i).favored
  traceMini_eq : ∀ i < s.queuedItems, (t.queueBuf i).traceMini = (s.queueBuf i).traceMini
  new_eq : ∀ i, s.queuedItems ≤ i → i < t.queuedItems →
    (t.queueBuf i).favored = false ∧ (t.queueBuf i).traceMini = none

theorem Resting.step {s t : QueueState} (h : s.Resting t) {op : Op} (hop : Quiet op) :
    s.Resting (t.step op) := by
  cases op with
  | add len depth =>
    refine ⟨h.geometry_eq, h.topRated_eq, h.scoreChanged_eq, h.nonInstrumentedMode_eq,
      h.queuedItems_le.trans (Nat.le_succ _), fun i hi => ?_, fun i hi => ?_, fun i hi hlt => ?_⟩
    · have hne : i ≠ t.queuedItems := (hi.trans_le h.queuedItems_le).ne
      exact (congrArg QueueEntry.favored (Function.update_of_ne hne ..)).trans (h.favored_eq i hi)
    · have hne : i ≠ t.queuedItems := (hi.trans_le h.queuedItems_le).ne
      exact (congrArg QueueEntry.traceMini (Function.update_of_ne hne ..)).trans
        (h.traceMini_eq i hi)
    · change (Function.update t.queueBuf t.queuedItems _ i).favored = false ∧
        (Function.update t.queueBuf t.queuedItems _ i).traceMini = none
      by_cases hne : i = t.queuedItems
      · rw [hne, Function.update_self]
        exact ⟨rfl, rfl⟩
      · rw [Function.update_of_ne hne]
        exact h.new_eq i hi (Nat.lt_of_le_of_ne (Nat.le_of_lt_succ hlt) hne)
  | adjust schedule nFuzz data =>
    exact { h with }
  | score q trace haveTrace =>
    have hnone : haveTrace = false := hop
    rw [hnone]
    change s.Resting (t.score q trace false)
    unfold score
    split
    · exact { h with }
    · exact h
  | recalculate traceOf => exact hop.elim
  | cull =>
    change s.Resting t.cullQueue
    rw [cullQueue, h.scoreChanged_eq]
    exact h

theorem Resting.run {s t : QueueState} (h : s.Resting t) {ops : List Op}
    (hops : ∀ op ∈ ops, Quiet op) : s.Resting (t.run ops) := by
  induction ops generalizing t with
  | nil => exact h
  | cons op ops ih =>
    exact ih (h.step (hops op List.mem_cons_self)) fun op' h' =>
      hops op' (List.mem_cons_of_mem op h')

/-! ## The first score -/

/-- The mini-trace of entry `q` after it has won indices with `trace`. -/
def ownMini (s : QueueState) (q : ℕ) (trace : Mem) : Mem :=
  (s.queueBuf q).traceMini.getD (minimizeBits s.geometry (fun _ => 0) trace)

/-- The indices below `n` have been looked at with `trace`, and entry `q` has won those that it
hits. -/
structure WonAll (s : QueueState) (q : ℕ) (trace : Mem) (n : ℕ) (t : QueueState) : Prop where
  geometry_eq : t.geometry = s.geometry
  queuedItems_eq : t.queuedItems = s.queuedItems
  nonInstrumentedMode_eq : t.nonInstrumentedMode = s.nonInstrumentedMode
  traceBits_eq : t.traceBits = trace
  topRated_eq : ∀ i, t.topRated i = if i < n ∧ trace i ≠ 0 then some q else none
  scoreChanged_iff : t.scoreChanged = true ↔ ∃ i < n, trace i ≠ 0
  entry_eq : ∀ r ≠ q, t.queueBuf r = s.queueBuf r
  favored_eq : (t.queueBuf q).favored = (s.queueBuf q).favored
  traceMini_eq : (t.queueBuf q).traceMini =
    if ∃ i < n, trace i ≠ 0 then some (s.ownMini q trace) else (s.queueBuf q).traceMini

theorem WonAll.step {s t : QueueState} {q n : ℕ} {trace : Mem} (h : s.WonAll q trace n t)
    (mine : ℕ × ℕ) :
    s.WonAll q trace (n + 1) (if t.traceBits n ≠ 0 then t.contest mine q n else t) := by
  have hlt : ∀ i, i < n + 1 ↔ i < n ∨ i = n := fun i => Nat.lt_succ_iff_lt_or_eq
  rw [h.traceBits_eq]
  by_cases hhit : trace n ≠ 0
  · have hany : ∃ i < n + 1, trace i ≠ 0 := ⟨n, Nat.lt_succ_self n, hhit⟩
    have hfree : t.topRated n = none := by
      rw [h.topRated_eq, if_neg fun h => absurd h.1 (Nat.lt_irrefl n)]
    rw [if_pos hhit, contest, hfree]
    refine ⟨h.geometry_eq, h.queuedItems_eq, h.nonInstrumentedMode_eq, h.traceBits_eq,
      fun i => ?_, iff_of_true rfl hany, fun r hr => ?_, ?_, ?_⟩
    · change Function.update t.topRated n (some q) i = _
      by_cases hi : i = n
      · rw [hi, Function.update_self, if_pos ⟨Nat.lt_succ_self n, hhit⟩]
      · rw [Function.update_of_ne hi, h.topRated_eq]
        simp only [hlt, hi, or_false]
    · dsimp only
      rw [insertWinner_of_ne _ _ hr]
      exact h.entry_eq r hr
    · dsimp only
      rw [insertWinner_self]
      exact h.favored_eq
    · dsimp only
      rw [insertWinner_self, if_pos hany]
      dsimp only
      rw [h.traceMini_eq, h.geometry_eq, h.traceBits_eq]
      by_cases hbefore : ∃ i < n, trace i ≠ 0
      · rw [if_pos hbefore]
      · rw [if_neg hbefore]
        unfold ownMini
        cases (s.queueBuf q).traceMini <;> rfl
  · have hsame : ∀ i, (i < n + 1 ∧ trace i ≠ 0) ↔ i < n ∧ trace i ≠ 0 := by
      intro i
      rw [hlt]
      constructor
      · rintro ⟨hi | rfl, hne⟩
        · exact ⟨hi, hne⟩
        · exact absurd hne hhit
      · rintro ⟨hi, hne⟩
        exact ⟨.inl hi, hne⟩
    rw [if_neg hhit]
    refine ⟨h.geometry_eq, h.queuedItems_eq, h.nonInstrumentedMode_eq, h.traceBits_eq,
      fun i => ?_, ?_, h.entry_eq, h.favored_eq, ?_⟩
    · simp only [hsame, h.topRated_eq]
    · simp only [hsame, h.scoreChanged_iff]
    · simp only [hsame, h.traceMini_eq]

theorem wonAll_score {s : QueueState} (hnone : ∀ i, s.topRated i = none)
    (hchanged : s.scoreChanged = false) {q : ℕ} (hq : q < s.queuedItems) (trace : Mem) :
    s.WonAll q trace s.geometry.mapSize (s.score q trace true) := by
  have hloop : ∀ (mine : ℕ × ℕ) (n : ℕ), s.WonAll q trace n ((List.range n).foldl (fun s i =>
      if s.traceBits i ≠ 0 then s.contest mine q i else s) { s with traceBits := trace }) := by
    intro mine n
    induction n with
    | zero =>
      refine ⟨rfl, rfl, rfl, rfl, fun i => ?_, ?_, fun _ _ => rfl, rfl, ?_⟩
      · simp [hnone]
      · simp [hchanged]
      · simp
    | succ n ih =>
      rw [List.range_succ, List.foldl_append, List.foldl_cons, List.foldl_nil]
      exact ih.step mine
  rw [score, if_pos hq]
  exact hloop _ _

/-! ## The cull that follows -/

/-- Progress of the winner loop when `q` is the only winner: nothing has happened yet, or `q` is
favored and nobody else. -/
structure FavorsOnly (s : QueueState) (q n : ℕ) (p : Mem × QueueState) : Prop where
  topRated_eq : p.2.topRated = s.topRated
  queuedItems_eq : p.2.queuedItems = s.queuedItems
  traceMini_eq : ∀ r, (p.2.queueBuf r).traceMini = (s.queueBuf r).traceMini
  favored_eq : ∀ r ≠ q, (p.2.queueBuf r).favored = (s.queueBuf r).favored
  started : (p.1 = (fun _ => 0xff) ∧ ∀ i < n, s.topRated i = none) ∨
    (p.2.queueBuf q).favored = true

theorem FavorsOnly.step {s : QueueState} {q n : ℕ} {p : Mem × QueueState} {m : Mem}
    (h : s.FavorsOnly q n p) (hwin : s.topRated n = none ∨ s.topRated n = some q)
    (hm : (s.queueBuf q).traceMini = some m) : s.FavorsOnly q (n + 1) (favorStep p n) := by
  unfold favorStep
  dsimp only
  rw [h.topRated_eq]
  rcases hwin with hwin | hwin
  · rw [hwin]
    refine { h with started := ?_ }
    refine h.started.imp_left fun hstart => ⟨hstart.1, fun i hi => ?_⟩
    rcases Nat.lt_succ_iff_lt_or_eq.1 hi with hi | rfl
    · exact hstart.2 i hi
    · exact hwin
  · rw [hwin]
    dsimp only
    rw [h.traceMini_eq, hm]
    dsimp only
    by_cases hbit : bitSet p.1 n = true
    · rw [if_pos hbit]
      by_cases hfav : (p.2.queueBuf q).favored = true
      · rw [if_pos hfav]
        exact { h with started := .inr hfav }
      · rw [if_neg hfav]
        refine ⟨h.topRated_eq, h.queuedItems_eq, fun r => ?_, fun r hr => ?_, .inr ?_⟩
        · refine Eq.trans ?_ (h.traceMini_eq r)
          by_cases hr : r = q
          · dsimp only
            rw [hr, modifyEntry_self]
          · dsimp only
            rw [modifyEntry_of_ne _ _ hr]
        · dsimp only
          rw [modifyEntry_of_ne _ _ hr]
          exact h.favored_eq r hr
        · dsimp only
          rw [modifyEntry_self]
    · rw [if_neg hbit]
      refine { h with started := .inr ?_ }
      rcases h.started with ⟨hfull, -⟩ | hfav
      · rw [hfull] at hbit
        exact absurd (bitSet_full n) hbit
      · exact hfav

theorem resetFavored_favored (s : QueueState) {r : ℕ} (hr : r < s.queuedItems) :
    (s.resetFavored.queueBuf r).favored = false := by
  unfold resetFavored
  dsimp only
  rw [if_pos hr]

/-- After the cull only the single winner is favored, and what is covered is in its mini-trace. -/
theorem WonAll.cullQueue_covered {s t : QueueState} {q : ℕ} {trace : Mem}
    (h : s.WonAll q trace s.geometry.mapSize t) (hq : q < s.queuedItems)
    (hhit : ∃ i < s.geometry.mapSize, trace i ≠ 0) (hmode : s.nonInstrumentedMode = false)
    (j : ℕ) : t.cullQueue.covered j = true ↔ bitSet (s.ownMini q trace) j = true := by
  have hmini : (t.resetFavored.queueBuf q).traceMini = some (s.ownMini q trace) := by
    rw [resetFavored_mini, h.traceMini_eq, if_pos hhit]
  have hloop : ∀ n, t.resetFavored.FavorsOnly q n
      ((List.range n).foldl favorStep (fun _ => 0xff, t.resetFavored)) := by
    intro n
    induction n with
    | zero => exact ⟨rfl, rfl, fun _ => rfl, fun _ _ => rfl, .inl ⟨rfl, nofun⟩⟩
    | succ n ih =>
      rw [List.range_succ, List.foldl_append, List.foldl_cons, List.foldl_nil]
      refine ih.step ?_ hmini
      change t.topRated n = none ∨ t.topRated n = some q
      rw [h.topRated_eq]
      split
      · exact .inr rfl
      · exact .inl rfl
  have hfavors := hloop t.geometry.mapSize
  change t.resetFavored.FavorsOnly q t.geometry.mapSize (_, t.resetFavored.favorWinners) at hfavors
  obtain ⟨hkept, hflags⟩ := markUnfavored_spec t.resetFavored.favorWinners
  have hfavored : (t.resetFavored.favorWinners.queueBuf q).favored = true := by
    rcases hfavors.started with ⟨-, hnone⟩ | hfav
    · obtain ⟨i, hi, hne⟩ := hhit
      have hwin : t.topRated i = none := hnone i (h.geometry_eq ▸ hi)
      rw [h.topRated_eq, if_pos ⟨hi, hne⟩] at hwin
      exact absurd hwin (by simp)
    · exact hfav
  have hitems : t.resetFavored.favorWinners.markUnfavored.queuedItems = s.queuedItems :=
    (hkept.queuedItems_eq.trans hfavors.queuedItems_eq).trans h.queuedItems_eq
  have hcull : t.cullQueue =
      { t.resetFavored.favorWinners.markUnfavored with reinitTable := true } := by
    rw [cullQueue, h.scoreChanged_iff.2 hhit, h.nonInstrumentedMode_eq, hmode]
    rfl
  rw [hcull, covered_iff]
  dsimp only
  rw [hitems]
  constructor
  · rintro ⟨r, hr, hfav, m, hm, hbit⟩
    rw [hflags] at hfav
    have hrq : r = q := by
      by_contra hne
      rw [hfavors.favored_eq r hne, resetFavored_favored _ (h.queuedItems_eq ▸ hr)] at hfav
      exact absurd hfav Bool.false_ne_true
    rw [hrq, hkept.mini_eq q hfavored, hfavors.traceMini_eq, hmini, Option.some_inj] at hm
    rwa [hm]
  · intro hbit
    refine ⟨q, hq, (hflags q).trans hfavored, _, ?_, hbit⟩
    rw [hkept.mini_eq q hfavored, hfavors.traceMini_eq, hmini]

/-- Scoring alone uncovers nothing. -/
theorem WonAll.covered_of {s t : QueueState} {q n j : ℕ} {trace : Mem}
    (h : s.WonAll q trace n t) (hj : s.covered j = true) : t.covered j = true := by
  obtain ⟨r, hr, hfav, m, hm, hbit⟩ := covered_iff.1 hj
  refine covered_iff.2 ⟨r, h.queuedItems_eq ▸ hr, ?_, m, ?_, hbit⟩
  · by_cases hrq : r = q
    · rw [hrq, h.favored_eq, ← hrq, hfav]
    · rw [h.entry_eq r hrq, hfav]
  · by_cases hrq : r = q
    · rw [hrq] at hm ⊢
      rw [h.traceMini_eq, ownMini, hm]
      split <;> rfl
    · rw [h.entry_eq r hrq, hm]

theorem Resting.covered_eq {s t : QueueState} (h : s.Resting t) (j : ℕ) :
    t.covered j = s.covered j := by
  rw [Bool.eq_iff_iff, covered_iff, covered_iff]
  constructor
  · rintro ⟨r, hr, hfav, m, hm, hbit⟩
    by_cases hlt : r < s.queuedItems
    · rw [h.favored_eq r hlt] at hfav
      rw [h.traceMini_eq r hlt] at hm
      exact ⟨r, hlt, hfav, m, hm, hbit⟩
    · rw [(h.new_eq r (Nat.le_of_not_lt hlt) hr).1] at hfav
      exact absurd hfav Bool.false_ne_true
  · rintro ⟨r, hr, hfav, m, hm, hbit⟩
    exact ⟨r, hr.trans_le h.queuedItems_le, (h.favored_eq r hr).trans hfav, m,
      (h.traceMini_eq r hr).trans hm, hbit⟩

end AflPlusPlus.FavoredSet.QueueState

namespace AflPlusPlus.FastResume.Session
open ByteWords CoverageMap FavoredSet QueueState

variable {start saved t : Session} {files : List (QueueNames.FileName × ℕ)}

/-- The mini-trace that entry `q` has once it is scored with `trace` after a resume: the saved
one, or that of the trace. -/
def miniAfter (saved : Session) (q : ℕ) (trace : Mem) : Mem :=
  if q < saved.queue.queuedItems then saved.queue.ownMini q trace
  else minimizeBits saved.queue.geometry (fun _ => 0) trace

/-- A saved mini-trace has its bits back. -/
theorem bitSet_readInto (saved : Session) (m : Mem) {j : ℕ}
    (hj : j < saved.queue.geometry.mapSize) :
    bitSet (readInto (bytesOf saved.miniLen m) fun _ => 0) j = bitSet m j := by
  have hlt : j / 8 < saved.miniLen := by
    rw [miniLen, Nat.shiftRight_eq_div_pow]
    omega
  rw [bitSet_eq, bitSet_eq, readInto_bytesOf hlt]

theorem Resumed.covered_eq (h : Resumed start saved files t) {j : ℕ}
    (hj : j < saved.queue.geometry.mapSize) : t.queue.covered j = saved.queue.covered j := by
  rw [Bool.eq_iff_iff, covered_iff, covered_iff, h.queuedItems_eq]
  refine exists_congr fun i => and_congr_right fun hi => ?_
  have hfav : (t.queue.queueBuf i).favored = (saved.queue.queueBuf i).favored :=
    congrArg EntryRecord.favored (h.record_eq i hi)
  rw [hfav, h.traceMini_eq i hi]
  refine and_congr_right fun _ => ?_
  unfold savedMini
  cases (saved.queue.queueBuf i).traceMini with
  | none => simp
  | some m => simpa using Bool.eq_iff_iff.1 (bitSet_readInto saved m hj)

theorem Resumed.resting (h : Resumed start saved files t) (hstart : start.Starting) :
    t.queue.Resting t.queue := by
  refine ⟨rfl, fun i => ?_, ?_, rfl, le_rfl, fun _ _ => rfl, fun _ _ => rfl, fun i hi hlt => ?_⟩
  · rw [h.scores.topRated_eq]
    exact hstart.fresh.topRated_eq i
  · rw [h.scores.scoreChanged_eq]
    exact hstart.scoreChanged_eq
  · exact absurd hlt (Nat.not_lt.2 hi)

/-- The mini-trace of an entry that is scored for the first time after a resume. -/
theorem Resumed.bitSet_ownMini (h : Resumed start saved files t)
    (hgeom : saved.queue.geometry = start.queue.geometry) {u : QueueState}
    (hu : t.queue.Resting u) {q : ℕ} (hq : q < u.queuedItems) (trace : Mem) {j : ℕ}
    (hj : j < saved.queue.geometry.mapSize) :
    bitSet (u.ownMini q trace) j = bitSet (saved.miniAfter q trace) j := by
  have hug : u.geometry = saved.queue.geometry := by
    rw [hu.geometry_eq, h.scores.geometry_eq, hgeom]
  unfold miniAfter QueueState.ownMini
  rw [hug]
  by_cases hlt : q < saved.queue.queuedItems
  · rw [if_pos hlt, hu.traceMini_eq q (h.queuedItems_eq ▸ hlt), h.traceMini_eq q hlt]
    unfold savedMini
    cases (saved.queue.queueBuf q).traceMini with
    | none => rfl
    | some m => exact bitSet_readInto saved m hj
  · rw [if_neg hlt, (hu.new_eq q (h.queuedItems_eq ▸ Nat.le_of_not_lt hlt) hq).2]
    rfl

theorem Resumed.slots_eq_empty (h : Resumed start saved files t) (hstart : start.Starting)
    (i : ℕ) : t.queue.slots i = ∅ := by
  refine Finset.eq_empty_of_forall_notMem fun j hj => ?_
  have hwin := (mem_slots.1 hj).2
  rw [(h.resting hstart).topRated_eq] at hwin
  exact absurd hwin (by simp)

/-- No index has a winner after loading, so only counts of zero are right. -/
theorem Resumed.tcRef_eq_iff (h : Resumed start saved files t) (hstart : start.Starting) :
    (∀ i < t.queue.queuedItems, (t.queue.queueBuf i).tcRef = (t.queue.slots i).card) ↔
      ∀ i < saved.queue.queuedItems, (saved.queue.queueBuf i).tcRef = 0 := by
  rw [h.queuedItems_eq]
  refine forall_congr' fun i => forall_congr' fun hi => ?_
  have href : (t.queue.queueBuf i).tcRef = (saved.queue.queueBuf i).tcRef :=
    congrArg EntryRecord.tcRef (h.record_eq i hi)
  rw [href, h.slots_eq_empty hstart, Finset.card_empty]

/-- What the first score and cull after a resume leave covered. -/
theorem Resumed.cover_kept_iff (h : Resumed start saved files t)
    (hgeom : saved.queue.geometry = start.queue.geometry) {u : QueueState}
    (hu : t.queue.Resting u) {q : ℕ} (hq : q < u.queuedItems) (trace : Mem) :
    (∀ j < t.queue.geometry.mapSize, t.queue.covered j = true →
        (u.score q trace true).cullQueue.covered j = true) ↔
      start.queue.nonInstrumentedMode = true ∨
        (∀ j < saved.queue.geometry.mapSize, trace j = 0) ∨
        ∀ j < saved.queue.geometry.mapSize, saved.queue.covered j = true →
          bitSet (saved.miniAfter q trace) j = true := by
  have hsize : t.queue.geometry = saved.queue.geometry := by
    rw [h.scores.geometry_eq, hgeom]
  have husize : u.geometry = saved.queue.geometry := hu.geometry_eq.trans hsize
  have hmode : u.nonInstrumentedMode = start.queue.nonInstrumentedMode := by
    rw [hu.nonInstrumentedMode_eq, h.scores.nonInstrumentedMode_eq]
  have hscore := wonAll_score hu.topRated_eq hu.scoreChanged_eq hq trace
  have hkept : ∀ j, t.queue.covered j = true → (u.score q trace true).covered j = true := by
    intro j hj
    exact hscore.covered_of ((hu.covered_eq j).trans hj)
  by_cases hidle : start.queue.nonInstrumentedMode = true ∨
      ∀ j < saved.queue.geometry.mapSize, trace j = 0
  · have hcull : (u.score q trace true).cullQueue = u.score q trace true := by
      unfold cullQueue
      rw [if_pos]
      rw [Bool.or_eq_true, Bool.not_eq_true', hscore.nonInstrumentedMode_eq, hmode]
      refine hidle.symm.imp_left fun hzero => ?_
      rw [← Bool.not_eq_true, hscore.scoreChanged_iff]
      rintro ⟨j, hj, hne⟩
      exact hne (hzero j (husize ▸ hj))
    rw [hcull]
    refine iff_of_true (fun j _ => hkept j) ?_
    rcases hidle with hmode | hzero
    · exact .inl hmode
    · exact .inr (.inl hzero)
  · rw [not_or] at hidle
    obtain ⟨hinstr, hhit⟩ := hidle
    rw [or_iff_right hinstr, or_iff_right hhit, hsize]
    push Not at hhit
    have hany : ∃ i < u.geometry.mapSize, trace i ≠ 0 := by
      rw [husize]
      exact hhit
    refine forall_congr' fun j => forall_congr' fun hj => ?_
    rw [hscore.cullQueue_covered hq hany (by rw [hmode]; exact Bool.eq_false_of_not_eq_true hinstr),
      h.bitSet_ownMini hgeom hu hq trace hj, h.covered_eq hj]

/-- After a fast resume and any quiet steps, the reference counts are right and the next score
and cull keep the loaded cover exactly when nothing was counted before, and the scored entry
itself covers all that the loaded favored entries cover (or the cull has nothing to do). -/
theorem resume_scheduling_iff (start saved t : Session) (options : ScanOptions) (depth : ℕ)
    (dir : Directory) (hstart : start.Starting)
    (hgeom : saved.queue.geometry = start.queue.geometry)
    (h : start.resume options depth dir saved.writeFastResume = some t) (later : List Op)
    (hlater : ∀ op ∈ later, Quiet op) (q : ℕ) (hq : q < (t.queue.run later).queuedItems)
    (trace : Mem) :
    ((∀ i < t.queue.queuedItems, (t.queue.queueBuf i).tcRef = (t.queue.slots i).card) ∧
      ∀ j < t.queue.geometry.mapSize, t.queue.covered j = true →
        ((t.queue.run later).score q trace true).cullQueue.covered j = true) ↔
    (∀ i < saved.queue.queuedItems, (saved.queue.queueBuf i).tcRef = 0) ∧
      (start.queue.nonInstrumentedMode = true ∨
        (∀ j < saved.queue.geometry.mapSize, trace j = 0) ∨
        ∀ j < saved.queue.geometry.mapSize, saved.queue.covered j = true →
          bitSet (saved.miniAfter q trace) j = true) := by
  have hres := resumed hstart h
  have hrest := (hres.resting hstart).run hlater
  exact and_congr (hres.tcRef_eq_iff hstart) (hres.cover_kept_iff hgeom hrest hq trace)

/-- The session that a run of the queue operations ends in. -/
def sessionOf (ops : List Op) : Session where
  queue := emptyQueue.run ops
  fname := fun i => QueueNames.idName i []

theorem sessionOf_resumes {start : Session} (hstart : start.Starting) (ops : List Op)
    (hitems : (emptyQueue.run ops).queuedItems ≤ 10 ^ 6)
    (hlen : ∀ i < (emptyQueue.run ops).queuedItems, ((emptyQueue.run ops).queueBuf i).len ≠ 0) :
    ∃ t, start.resume {} 1 (sessionOf ops).directory (sessionOf ops).writeFastResume =
      some t := by
  have hnames := names_of_increasing (sessionOf ops) {} 0
    ((Naming.name_lt_iff (.id fun _ => []) _).2 hitems) (fun h => absurd h (by decide))
    (fun _ _ => rfl) hlen
  refine (resume_isSome_iff hstart).2 ?_
  have hlength := congrArg List.length hnames
  rwa [List.length_map, List.length_map, List.length_range] at hlength

theorem resume_scheduling_unscored :
    ∃ t, noEntries.resume {} 1 (sessionOf [.add 8 1]).directory
        (sessionOf [.add 8 1]).writeFastResume = some t ∧
      (∀ i < t.queue.queuedItems, (t.queue.queueBuf i).tcRef = (t.queue.slots i).card) ∧
      ∀ j < t.queue.geometry.mapSize, t.queue.covered j = true →
        ((t.queue.run []).score 0 (traceOn [0]) true).cullQueue.covered j = true := by
  obtain ⟨t, ht⟩ := sessionOf_resumes noEntries_starting [.add 8 1] (by decide) (by decide)
  have hq : 0 < (t.queue.run []).queuedItems := by
    change 0 < t.queue.queuedItems
    rw [(resumed noEntries_starting ht).queuedItems_eq]
    decide
  have hiff := resume_scheduling_iff noEntries (sessionOf [.add 8 1]) t {} 1 _
    noEntries_starting rfl ht [] (by simp) 0 hq (traceOn [0])
  exact ⟨t, ht, hiff.2 ⟨by decide, .inr (.inr (by decide +kernel))⟩⟩

/-- Two entries that cover an index each and are both favored. -/
def bothFavored : List Op :=
  [.add 8 1, .score 0 (traceOn [0]) true, .add 8 1, .score 1 (traceOn [1]) true, .cull]

/-- After a resume the count of entry 0 is wrong, and scoring it again with its own trace loses
the cover of index 1. -/
theorem resume_loses_cover :
    ∃ t, noEntries.resume {} 1 (sessionOf bothFavored).directory
        (sessionOf bothFavored).writeFastResume = some t ∧
      (t.queue.queueBuf 0).tcRef ≠ (t.queue.slots 0).card ∧
      t.queue.covered 1 = true ∧
      (t.queue.score 0 (traceOn [0]) true).cullQueue.covered 1 = false := by
  obtain ⟨t, ht⟩ := sessionOf_resumes noEntries_starting bothFavored (by decide +kernel)
    (by decide +kernel)
  have hres := resumed noEntries_starting ht
  have hrest := hres.resting noEntries_starting
  have hq : 0 < t.queue.queuedItems := by
    rw [hres.queuedItems_eq]
    decide +kernel
  refine ⟨t, ht, ?_, ?_, ?_⟩
  · have href : (t.queue.queueBuf 0).tcRef = 1 := by
      refine (congrArg EntryRecord.tcRef (hres.record_eq 0 (hres.queuedItems_eq ▸ hq))).trans ?_
      decide +kernel
    rw [href, hres.slots_eq_empty noEntries_starting, Finset.card_empty]
    exact Nat.one_ne_zero
  · rw [hres.covered_eq (by decide +kernel)]
    decide +kernel
  · have hscore := wonAll_score hrest.topRated_eq hrest.scoreChanged_eq hq (traceOn [0])
    have hgeom : t.queue.geometry = emptyQueue.geometry := hres.scores.geometry_eq
    have hmode : t.queue.nonInstrumentedMode = false := hres.scores.nonInstrumentedMode_eq
    rw [← Bool.not_eq_true, hscore.cullQueue_covered hq
      ⟨0, by rw [hgeom]; decide, by decide⟩ hmode, hres.bitSet_ownMini (run_geometry _ _) hrest hq _
      (by decide +kernel)]
    decide +kernel

end AflPlusPlus.FastResume.Session
