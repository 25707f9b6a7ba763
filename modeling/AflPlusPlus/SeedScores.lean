import AflPlusPlus.DryRunInvariants

/-!
# The winners after the dry run

Every seed competes once, with its own trace, and only if it is not disabled. So the winners
among the seeds are enabled, have their mini-traces, and hit the indices they have won.
-/

namespace AflPlusPlus.FavoredSet.QueueState
open ByteWords CoverageMap

section Contest
variable {s t : QueueState} {q i j w old : ℕ} {mine : ℕ × ℕ}

/-- An entry that has an index has a mini-trace, and no index is won before a score changes. -/
structure Recorded (s : QueueState) : Prop where
  mini : ∀ q, 0 < (s.queueBuf q).tcRef → (s.queueBuf q).traceMini ≠ none
  changed : s.scoreChanged = false → ∀ i, s.topRated i = none

theorem Recorded.insertWinner (h : ∀ r ≠ q, 0 < (s.queueBuf r).tcRef →
    (s.queueBuf r).traceMini ≠ none) : (s.insertWinner q i).Recorded where
  mini r := by
    by_cases hr : r = q
    · rw [hr, insertWinner_self]
      intro _
      dsimp only
      split <;> simp
    · rw [insertWinner_of_ne _ _ hr]
      exact h r hr
  changed hunchanged := absurd hunchanged Bool.true_eq_false.mp

theorem Recorded.dropWinner (h : s.Recorded) (hpos : 0 < (s.queueBuf old).tcRef) (r : ℕ)
    (href : 0 < ((s.dropWinner old).queueBuf r).tcRef) :
    ((s.dropWinner old).queueBuf r).traceMini ≠ none := by
  by_cases hr : r = old
  · rw [hr, dropWinner_self] at href ⊢
    dsimp only at href ⊢
    rw [if_neg href.ne']
    exact h.mini old hpos
  · rw [dropWinner_of_ne _ hr] at href ⊢
    exact h.mini r href

theorem Recorded.contest (h : s.Recorded) (hcount : s.Counted) (mine : ℕ × ℕ)
    (him : i < s.geometry.mapSize) : (s.contest mine q i).Recorded := by
  unfold QueueState.contest
  split
  · exact .insertWinner fun r _ => h.mini r
  · rename_i old hold
    split
    · have hpos : 0 < (s.queueBuf old).tcRef := by
        rw [hcount.tcRef_eq]
        exact Finset.card_pos.mpr ⟨i, mem_slots.mpr ⟨him, hold⟩⟩
      exact .insertWinner fun r _ => h.dropWinner hpos r
    · exact h

theorem contest_winner (h : (s.contest mine q i).topRated j = some w) :
    w = q ∨ s.topRated j = some w := by
  have hinsert : ∀ u : QueueState, (u.insertWinner q i).topRated j = some w →
      w = q ∨ u.topRated j = some w := by
    intro u hu
    change Function.update u.topRated i (some q) j = some w at hu
    by_cases hj : j = i
    · rw [hj, Function.update_self] at hu
      exact .inl (Option.some.inj hu).symm
    · rw [Function.update_of_ne hj] at hu
      exact .inr hu
  unfold contest at h
  split at h
  · exact hinsert s h
  · split at h
    · exact hinsert _ h
    · exact .inr h

end Contest

/-! ## One seed competes -/

/-- The winners have mini-traces of their own. -/
structure Wins (s : QueueState) : Prop where
  counted : s.Counted
  recorded : s.Recorded
  owned : ∃ hits, s.Owned hits
  candidates_nil : ∀ i, s.topRatedCandidates i = []

variable {s t : QueueState} {q i w : ℕ}

theorem Fresh.wins (h : s.Fresh) : s.Wins where
  counted := h.counted
  recorded := ⟨fun q hq => absurd hq (by simp [h.tcRef_eq]), fun _ => h.topRated_eq⟩
  owned := ⟨fun _ _ => false, h.owned _⟩
  candidates_nil := h.candidates_eq

theorem Recorded.of_scores (h : s.Recorded) (hs : t.scores = s.scores) : t.Recorded where
  mini q := by
    have href := congrFun (congrArg Scores.tcRef hs) q
    have hmini := congrFun (congrArg Scores.traceMini hs) q
    change (t.queueBuf q).tcRef = (s.queueBuf q).tcRef at href
    change (t.queueBuf q).traceMini = (s.queueBuf q).traceMini at hmini
    rw [href, hmini]
    exact h.mini q
  changed hunchanged i := by
    have htop := congrFun (congrArg Scores.topRated hs) i
    exact htop.trans (h.changed ((congrArg Scores.scoreChanged hs).symm.trans hunchanged) i)

theorem Wins.of_scores (h : s.Wins) (hs : t.scores = s.scores) : t.Wins where
  counted := h.counted.of_keeps (keeps_of_scores hs)
  recorded := h.recorded.of_scores hs
  owned := h.owned.imp fun _ hown => hown.of_keeps (keeps_of_scores hs)
  candidates_nil i := (congrFun (congrArg Scores.candidates hs) i).trans (h.candidates_nil i)

/-- An entry that has won nothing yet can be given any trace. -/
theorem Wins.owned_trace (h : s.Wins) (hfresh : ∀ i, s.topRated i ≠ some q) :
    ∃ hits, s.Owned hits ∧ ∀ i, hits q i = true ↔ s.traceBits i ≠ 0 := by
  obtain ⟨hits, hown⟩ := h.owned
  have hslots : s.slots q = ∅ :=
    Finset.eq_empty_of_forall_notMem fun i hi => hfresh i (mem_slots.mp hi).2
  have hnone : (s.queueBuf q).traceMini = none := by
    by_contra hsome
    have hpos := h.counted.mini_pos q (Option.isSome_iff_ne_none.mpr hsome)
    rw [h.counted.tcRef_eq, hslots, Finset.card_empty] at hpos
    exact lt_irrefl 0 hpos
  refine ⟨Function.update hits q fun i => s.traceBits i != 0, ⟨fun r m hm => ?_, fun i r hr => ?_,
    fun i r hr => ?_⟩, fun i => ?_⟩
  · have hrq : r ≠ q := by
      rintro rfl
      exact absurd (hnone.symm.trans hm) nofun
    rw [Function.update_of_ne hrq]
    exact hown.mini_hits r m hm
  · have hrq : r ≠ q := by
      rintro rfl
      exact hfresh i hr
    rw [Function.update_of_ne hrq]
    exact hown.winner_hits i r hr
  · rw [h.candidates_nil i] at hr
    exact absurd hr List.not_mem_nil
  · rw [Function.update_self]
    exact bne_iff_ne

theorem Wins.updateBitmapScore (h : s.Wins) (hq : q < s.queuedItems)
    (hfresh : ∀ i, s.topRated i ≠ some q) : (s.updateBitmapScore q true).Wins := by
  obtain ⟨hits, hown, htrace⟩ := h.owned_trace hfresh
  obtain ⟨hcount, hrecorded, howned, hnil⟩ := updateBitmapScore_induct
    (P := fun t => t.Counted ∧ t.Recorded ∧ t.Owned hits ∧ ∀ i, t.topRatedCandidates i = [])
    s q true ⟨h.counted, h.recorded, hown, h.candidates_nil⟩
    (by
      rintro t ⟨hcount, hrecorded, howned, hnil⟩ hg hn htr i hi hne -
      have him : i < t.geometry.mapSize := hg ▸ hi
      refine ⟨hcount.contest _ him (hn ▸ hq), hrecorded.contest hcount _ him,
        howned.contest hcount _ him ((htrace i).mpr hne) fun _ _ j _ hhit => ?_, fun j => ?_⟩
      · rw [htr]
        exact (htrace j).mp hhit
      · rw [contest_candidates]
        exact hnil j)
  exact ⟨hcount, hrecorded, ⟨hits, howned⟩, hnil⟩

theorem updateBitmapScore_winner (h : (s.updateBitmapScore q true).topRated i = some w) :
    w = q ∨ s.topRated i = some w :=
  updateBitmapScore_induct (P := fun t => t.topRated i = some w → w = q ∨ s.topRated i = some w)
    s q true .inr (fun _ ht _ _ _ _ _ _ _ h => (contest_winner h).elim .inl ht) h

end AflPlusPlus.FavoredSet.QueueState

namespace AflPlusPlus.DryRun.Startup
open ByteWords CoverageMap FavoredSet Fuzzer

variable {o : Options} {e : Environment} {q : ℕ} {qs : List ℕ} {s t : Startup}

/-! ## The seeds one after the other -/

/-- The winners among the seeds when those in `rest` have not competed yet. -/
structure Loaded (rest : List ℕ) (s : Startup) : Prop where
  wins : s.Wins
  rest_lt : ∀ q ∈ rest, q < s.queuedItems
  rest_nodup : rest.Nodup
  rest_fresh : ∀ q ∈ rest, ∀ i, s.topRated i ≠ some q
  winner_enabled : ∀ i w, s.topRated i = some w → (s.queueBuf w).disabled = false

theorem Loaded.tail (h : Loaded (q :: qs) s) : Loaded qs s where
  wins := h.wins
  rest_lt := (List.forall_mem_cons.mp h.rest_lt).2
  rest_nodup := h.rest_nodup.of_cons
  rest_fresh := (List.forall_mem_cons.mp h.rest_fresh).2
  winner_enabled := h.winner_enabled

/-- The result that the fuzzer expects, and one without new coverage, change no entry. -/
theorem judge_expected {res : Fault} (hres : res = o.config.crashMode ∨ res = .nobits)
    (h : s.judge o q res = .ok t) : t.queueBuf = s.queueBuf := by
  unfold judge at h
  rcases hres with rfl | rfl
  · rcases o.crashMode_mem with hmode | hmode
    · rw [hmode] at h
      dsimp only at h
      rw [if_neg (not_not.mpr rfl)] at h
      rw [← Except.ok.inj h]
    · rw [hmode] at h
      dsimp only at h
      rw [crashSeed, if_pos (by rw [hmode]; decide)] at h
      rw [← Except.ok.inj h]
  · rw [← Except.ok.inj h]

/-- The calibration of a seed, as far as winners are concerned. -/
theorem calibrateSeed_scores (o : Options) (e : Environment) (q : ℕ) (s : Startup) :
    (s.calibrateSeed o e q).2.toQueueState.scores = s.scores ∨
    (((s.calibrateSeed o e q).1 = o.config.crashMode ∨ (s.calibrateSeed o e q).1 = .nobits) ∧
      ∃ u : QueueState, u.scores = s.scores ∧
        (s.calibrateSeed o e q).2.toQueueState.scores = (u.updateBitmapScore q true).scores) := by
  obtain ⟨hres, f, hf, heq⟩ := s.calibrateSeed_cases o e q
  have hkept : (s.calibrateSeed o e q).2.toQueueState.scores =
      (s.calibrateCase o.config e q 0 true).2.toQueueState.scores := by
    rw [heq]
    exact QueueState.modifyEntry_scores _ q (fun entry => by rw [hf]) fun entry => by rw [hf]
  rw [hkept, hres]
  exact AflState.calibrateCase_scores o.config e q 0 true s.toAflState

theorem calibrateSeed_disabled (o : Options) (e : Environment) (q : ℕ) (s : Startup) (r : ℕ) :
    ((s.calibrateSeed o e q).2.queueBuf r).disabled = (s.queueBuf r).disabled := by
  obtain ⟨-, f, hf, heq⟩ := s.calibrateSeed_cases o e q
  have hcal : ((s.calibrateCase o.config e q 0 true).2.queueBuf r).disabled =
      (s.queueBuf r).disabled :=
    congrArg (fun f => (Frame.entries f r).disabled)
      (@AflState.calibrateCase_frame o.config e q 0 true s.toAflState)
  rw [heq, ← hcal]
  by_cases hr : r = q
  · rw [hr]
    refine (congrArg QueueEntry.disabled (Function.update_self ..)).trans ?_
    rw [hf]
  · exact congrArg QueueEntry.disabled (Function.update_of_ne hr ..)

theorem Loaded.drySeed (h : Loaded (q :: qs) s) (henabled : (s.queueBuf q).disabled = false)
    (ht : s.drySeed o e q = .ok t) : Loaded qs t := by
  have hq : q < s.queuedItems := h.rest_lt q List.mem_cons_self
  have hfresh := h.rest_fresh q List.mem_cons_self
  obtain ⟨hnot, hnodup⟩ := List.nodup_cons.mp h.rest_nodup
  have hitems := drySeed_queuedItems ht
  have hlt : ∀ r ∈ qs, r < t.queuedItems := fun r hr =>
    (h.tail.rest_lt r hr).trans_eq hitems.symm
  have hdisabled := s.calibrateSeed_disabled o e q
  have hscores : t.toQueueState.scores = (s.calibrateSeed o e q).2.scores := by
    rcases drySeed_cases ht with ⟨-, rfl⟩ | ⟨-, hjudge⟩
    · rfl
    · exact (judge_touched hjudge).scores
  have hother : ∀ r ≠ q, (t.queueBuf r).disabled = (s.queueBuf r).disabled := by
    intro r hr
    rcases drySeed_cases ht with ⟨-, rfl⟩ | ⟨-, hjudge⟩
    · exact hdisabled r
    · exact (congrArg QueueEntry.disabled ((judge_touched hjudge).other_eq r hr)).trans
        (hdisabled r)
  rcases s.calibrateSeed_scores o e q with hsame | ⟨hres, u, hu, hscored⟩
  · have hs : t.toQueueState.scores = s.scores := hscores.trans hsame
    have htop : t.topRated = s.topRated := congrArg Scores.topRated hs
    refine ⟨h.wins.of_scores hs, hlt, hnodup, fun r hr => ?_, fun i w hw => ?_⟩
    · rw [htop]
      exact h.tail.rest_fresh r hr
    · rw [htop] at hw
      rw [hother w fun hwq => hfresh i (hwq ▸ hw)]
      exact h.winner_enabled i w hw
  · have hs : t.toQueueState.scores = (u.updateBitmapScore q true).scores :=
      hscores.trans hscored
    have hutop : u.topRated = s.topRated := congrArg Scores.topRated hu
    have huitems : u.queuedItems = s.queuedItems := congrArg Scores.queuedItems hu
    have hufresh : ∀ i, u.topRated i ≠ some q := by
      rw [hutop]
      exact hfresh
    have hwinner : ∀ i w, t.topRated i = some w → w = q ∨ s.topRated i = some w := by
      intro i w hw
      have htop : t.topRated = (u.updateBitmapScore q true).topRated :=
        congrArg Scores.topRated hs
      rw [htop] at hw
      rw [← hutop]
      exact QueueState.updateBitmapScore_winner hw
    have hself : (t.queueBuf q).disabled = false := by
      rcases drySeed_cases ht with ⟨-, rfl⟩ | ⟨-, hjudge⟩
      · exact (hdisabled q).trans henabled
      · have hbuf := judge_expected hres hjudge
        rw [hbuf]
        exact (hdisabled q).trans henabled
    refine ⟨((h.wins.of_scores hu).updateBitmapScore (huitems ▸ hq) hufresh).of_scores hs, hlt,
      hnodup, fun r hr i hi => ?_, fun i w hw => ?_⟩
    · rcases hwinner i r hi with rfl | hold
      · exact hnot hr
      · exact h.tail.rest_fresh r hr i hold
    · rcases hwinner i w hw with rfl | hold
      · exact hself
      · by_cases hwq : w = q
        · rw [hwq]
          exact hself
        · rw [hother w hwq]
          exact h.winner_enabled i w hold

/-- After the loop over the seeds all winners are enabled and have their mini-traces. -/
theorem Loaded.seedLoop (h : Loaded qs s) (ht : seedLoop o e qs s = .ok t) :
    ∃ rest, Loaded rest t :=
  seedLoop_induct (P := Loaded) (fun _ _ _ _ h => h.tail)
    (fun _ _ _ _ hruns h ht => h.drySeed (Bool.eq_false_iff.mpr (not_or.mp hruns).1) ht) h ht

end AflPlusPlus.DryRun.Startup
