import AflPlusPlus.TestcaseCacheInvariants
import AflPlusPlus.TransitionSystems

/-!
# The search for an entry to evict

Draws are repeated until one hits a cached entry other than the current one. With two cached
entries there is always one; a full cache has two unless its limit was set below three.
-/

namespace AflPlusPlus.TestcaseCache.Cache
open ByteWords TransitionSystems

/-- One pass of the eviction loop, with the draw that ends its search. -/
def evictOne (cur : Option ℕ) (len : ℕ) (s : Cache) (pick : ℕ) : Option Cache :=
  if s.full len then
    let s := s.learnLimit len
    if pick < max 1 s.maxCacheCount ∧ pick < s.capacity then
      match s.slots pick with
      | none => none
      | some old => if cur = some old then none else some (s.evict pick old)
    else none
  else none

/-- If the loop searches in this state, there is an entry to be found. -/
def Searchable (cur : Option ℕ) (len : ℕ) (s : Cache) : Prop :=
  s.full len = true → ∃ pick < (s.learnLimit len).maxCacheCount,
    ∃ old, (s.learnLimit len).slots pick = some old ∧ cur ≠ some old

/-- Every search of the eviction loop can end, and there are finitely many. -/
structure EvictionEnds (cur : Option ℕ) (len : ℕ) (s : Cache) : Prop where
  searchable : ∀ picks t, TransitionSystems.run (evictOne cur len) s picks = some t →
    t.Searchable cur len
  finite : Acc (fun t u => ∃ pick, evictOne cur len u pick = some t) s

/-- The call for entry `q` gets to the eviction loop, unless the entry is light. -/
structure Requests (s : Cache) (q : ℕ) : Prop where
  lt_items : q < s.items
  not_cached : s.testcaseBuf q = false
  has_cache : s.maxCacheSize ≠ 0

section Pass
variable {s t : Cache} {cur : Option ℕ} {len pick : ℕ}

theorem evictOne_eq_some : evictOne cur len s pick = some t ↔ s.full len = true ∧
    (pick < max 1 (s.learnLimit len).maxCacheCount ∧ pick < (s.learnLimit len).capacity) ∧
      ∃ old, (s.learnLimit len).slots pick = some old ∧ cur ≠ some old ∧
        t = (s.learnLimit len).evict pick old := by
  unfold evictOne
  by_cases hfull : s.full len = true
  · by_cases hpick : pick < max 1 (s.learnLimit len).maxCacheCount ∧
        pick < (s.learnLimit len).capacity
    · rw [if_pos hfull]
      dsimp only
      rw [if_pos hpick, and_iff_right hfull, and_iff_right hpick]
      cases (s.learnLimit len).slots pick with
      | none => simp
      | some old =>
        by_cases hcur : cur = some old
        · simp [hcur]
        · simp [hcur, eq_comm]
    · rw [if_pos hfull]
      dsimp only
      rw [if_neg hpick]
      exact iff_of_false (by simp) fun h => hpick h.2.1
  · simp [hfull]

theorem learnLimit_slots (s : Cache) (len : ℕ) : (s.learnLimit len).slots = s.slots := by
  unfold learnLimit
  split <;> rfl

theorem learnLimit_cacheCount (s : Cache) (len : ℕ) :
    (s.learnLimit len).cacheCount = s.cacheCount := by
  unfold learnLimit
  split <;> rfl

/-- A pass evicts one entry. -/
theorem Linked.evictOne (h : s.Linked) (ht : evictOne cur len s pick = some t) :
    t.Linked ∧ t.cacheCount < s.cacheCount := by
  obtain ⟨-, -, old, hold, -, rfl⟩ := evictOne_eq_some.mp ht
  have hlearned := (learnLimit_spec h len).1
  refine ⟨hlearned.evict hold, ?_⟩
  have hpos : 0 < (s.learnLimit len).cacheCount := by
    rw [hlearned.card_slots]
    refine Finset.card_pos.mpr ⟨pick, Finset.mem_filter.mpr ⟨?_, by simp [hold]⟩⟩
    exact Finset.mem_range.mpr (hlearned.slot_lt pick old hold).1
  have hlt : (s.learnLimit len).cacheCount < 2 ^ 32 :=
    hlearned.count_eq ▸ (sum_slotCount_le _ _).trans_lt hlearned.capacity_lt
  rw [← learnLimit_cacheCount s len]
  change decU32 (s.learnLimit len).cacheCount < _
  rw [decU32_eq hpos hlt]
  omega

/-- With two cached entries one is not the current one. -/
theorem Linked.exists_other (h : s.Linked) (htwo : 2 ≤ s.cacheCount) (cur : Option ℕ) :
    ∃ pick < s.maxCacheCount, ∃ old, s.slots pick = some old ∧ cur ≠ some old := by
  rw [h.card_slots] at htwo
  obtain ⟨i, hi, j, hj, hij⟩ := Finset.one_lt_card.mp htwo
  obtain ⟨p, hp⟩ := Option.ne_none_iff_exists'.mp (Finset.mem_filter.mp hi).2
  obtain ⟨q, hq⟩ := Option.ne_none_iff_exists'.mp (Finset.mem_filter.mp hj).2
  by_cases hcur : cur = some p
  · refine ⟨j, (h.slot_lt j q hq).2.1, q, hq, fun hc => hij ?_⟩
    have hpq : p = q := Option.some.inj (hcur.symm.trans hc)
    exact h.slot_inj i j p hp (hpq ▸ hq)
  · exact ⟨i, (h.slot_lt i p hp).2.1, p, hp, hcur⟩

end Pass

/-! ## The limit -/

section Limit
variable {s t : Cache} {cur : Option ℕ} {len pick : ℕ}

/-- A limit that leaves room for two entries. -/
structure Roomy (s : Cache) : Prop where
  linked : s.Linked
  three_le : 3 ≤ s.maxCacheEntries

theorem Roomy.two_le (h : s.Roomy) (hfull : s.full len = true) : 2 ≤ s.cacheCount := by
  have hdec : decU32 s.maxCacheEntries = s.maxCacheEntries - 1 :=
    decU32_eq (by have := h.three_le; omega) h.linked.entries_lt
  have hthree := h.three_le
  unfold full at hfull
  rw [Bool.or_eq_true, Bool.and_eq_true, decide_eq_true_iff, decide_eq_true_iff, hdec] at hfull
  omega

/-- The limit that is learnt leaves room for the entries that are there. -/
theorem Roomy.learnLimit (h : s.Roomy) (hfull : s.full len = true) :
    (s.learnLimit len).Roomy := by
  refine ⟨(learnLimit_spec h.linked len).1, ?_⟩
  have htwo := h.two_le hfull
  have hthree := h.three_le
  have hentries := h.linked.entries_lt
  unfold Cache.learnLimit
  split
  · rename_i hcond
    obtain ⟨-, hcount, hmax, -⟩ := hcond
    dsimp only
    rw [incU32_eq (by omega), incU32_eq (by omega)]
    split <;> omega
  · exact hthree

theorem Roomy.evictOne (h : s.Roomy) (ht : evictOne cur len s pick = some t) : t.Roomy := by
  refine ⟨(h.linked.evictOne ht).1, ?_⟩
  obtain ⟨hfull, -, old, -, -, rfl⟩ := evictOne_eq_some.mp ht
  exact (h.learnLimit hfull).three_le

theorem Roomy.searchable (h : s.Roomy) (cur : Option ℕ) (len : ℕ) : s.Searchable cur len := by
  intro hfull
  refine (h.learnLimit hfull).linked.exists_other ?_ cur
  rw [learnLimit_cacheCount]
  exact h.two_le hfull

theorem Roomy.evictionEnds (h : s.Roomy) (cur : Option ℕ) (len : ℕ) :
    EvictionEnds cur len s where
  searchable _ _ hrun :=
    (run_invariant (P := Roomy) (fun _ _ _ hu => hu.evictOne) h hrun).searchable cur len
  finite := acc_of_measure cacheCount (P := Roomy) (fun _ _ _ hu => hu.evictOne)
    (fun _ _ _ hu ht => (hu.linked.evictOne ht).2) h

end Limit

/-! ## The loop and its passes -/

section Loop
variable {s t : Cache} {cur : Option ℕ} {len pick : ℕ}

theorem learnLimit_overflows (s : Cache) (len : ℕ) :
    (s.learnLimit len).overflows len = s.overflows len := by
  unfold learnLimit
  split <;> rfl

/-- The loop goes on after it has learnt its limit. -/
theorem Linked.full_learnLimit (h : s.Linked) (hfull : s.full len = true) :
    (s.learnLimit len).full len = true := by
  have hentries := h.entries_lt
  unfold full at hfull ⊢
  rw [learnLimit_overflows, learnLimit_cacheCount]
  rw [Bool.or_eq_true, Bool.and_eq_true, decide_eq_true_iff, decide_eq_true_iff] at hfull ⊢
  refine hfull.imp_right fun hcount => ?_
  unfold learnLimit
  split
  · rename_i hcond
    obtain ⟨-, hlt, hmax, -⟩ := hcond
    have hdec : decU32 s.maxCacheEntries = s.maxCacheEntries - 1 := decU32_eq (by omega) hentries
    have hmaxle : ¬s.maxCacheCount > s.cacheCount := by omega
    dsimp only
    rw [if_neg hmaxle, incU32_eq (by omega), decU32_eq (by omega) (by omega)]
    omega
  · exact hcount

/-- A limit that has been learnt stays. -/
theorem learnLimit_learnLimit (s : Cache) (len : ℕ) :
    (s.learnLimit len).learnLimit len = s.learnLimit len := by
  by_cases hcond : s.overflows len ∧ s.cacheCount < s.maxCacheEntries ∧
      s.maxCacheCount < s.maxCacheEntries ∧ !s.doOnce
  · have hdone : (s.learnLimit len).doOnce = true := by
      unfold learnLimit
      rw [if_pos hcond]
    rw [learnLimit.eq_def (s.learnLimit len), if_neg]
    simp [hdone]
  · have hsame : s.learnLimit len = s := if_neg hcond
    rw [hsame, hsame]

theorem Linked.evictOne_learnLimit (h : s.Linked) (hfull : s.full len = true) (pick : ℕ) :
    Cache.evictOne cur len (s.learnLimit len) pick = Cache.evictOne cur len s pick := by
  unfold Cache.evictOne
  rw [if_pos hfull, if_pos (h.full_learnLimit hfull), learnLimit_learnLimit]

/-- The loop makes the passes that its accepted draws allow, and stops when the cache is no
longer full. -/
theorem Linked.evictLoop_run (h : s.Linked) {picks : List ℕ} {tid tid' : ℕ}
    (hloop : Cache.evictLoop cur len picks tid s = some (tid', t)) :
    t.full len = false ∧ ∃ accepted, accepted.Sublist picks ∧
      TransitionSystems.run (Cache.evictOne cur len) s accepted = some t := by
  induction picks generalizing s tid with
  | nil =>
    unfold evictLoop at hloop
    split at hloop
    · exact absurd hloop (by simp)
    · rename_i hnot
      cases hloop
      exact ⟨by simpa using hnot, [], .slnil, rfl⟩
  | cons pick picks ih =>
    unfold evictLoop at hloop
    split at hloop
    · rename_i hfull
      have hlearned := (learnLimit_spec h len).1
      -- a rejected draw leaves what the next pass learns anyway
      have hrejected : Cache.evictLoop cur len picks tid (s.learnLimit len) = some (tid', t) →
          t.full len = false ∧ ∃ accepted, accepted.Sublist (pick :: picks) ∧
            TransitionSystems.run (Cache.evictOne cur len) s accepted = some t := by
        intro hrest
        obtain ⟨hdone, accepted, hsub, hrun⟩ := ih hlearned hrest
        refine ⟨hdone, accepted, hsub.cons pick, ?_⟩
        cases accepted with
        | nil =>
          obtain rfl := Option.some.inj hrun
          exact absurd (hdone.symm.trans (h.full_learnLimit hfull)) (by decide)
        | cons first accepted =>
          rwa [run_cons, h.evictOne_learnLimit hfull, ← run_cons] at hrun
      dsimp only at hloop
      split at hloop
      · rename_i hpick
        split at hloop
        · exact hrejected hloop
        · rename_i old hold
          split at hloop
          · exact hrejected hloop
          · rename_i hcur
            have hone : Cache.evictOne cur len s pick = some ((s.learnLimit len).evict pick old) :=
              evictOne_eq_some.mpr ⟨hfull, hpick, old, hold, hcur, rfl⟩
            obtain ⟨hdone, accepted, hsub, hrun⟩ := ih (hlearned.evict hold) hloop
            refine ⟨hdone, pick :: accepted, hsub.cons_cons pick, ?_⟩
            rw [run_cons, hone]
            exact hrun
      · exact absurd hloop (by simp)
    · rename_i hnot
      cases hloop
      exact ⟨by simpa using hnot, [], List.nil_sublist _, rfl⟩

theorem Roomy.evictLoop (h : s.Roomy) {picks : List ℕ} {tid tid' : ℕ}
    (hloop : Cache.evictLoop cur len picks tid s = some (tid', t)) : t.Roomy := by
  obtain ⟨-, accepted, -, hrun⟩ := h.linked.evictLoop_run hloop
  exact run_invariant (P := Roomy) (fun _ _ _ hu => hu.evictOne) h hrun

end Loop

/-! ## Runs -/

section Run
variable {s t : Cache}

/-- The limits of `t` are those of `u`. -/
def SameLimits (u t : Cache) : Prop :=
  t.maxCacheSize = u.maxCacheSize ∧ t.maxCacheEntries = u.maxCacheEntries

/-- A step changes the limits in an eviction loop only. -/
theorem step_limits {op : Op} (hstep : s.step op = some t) : s.SameLimits t ∨
    ∃ cur len picks tid tid' u, evictLoop cur len picks tid s = some (tid', u) ∧
      u.SameLimits t := by
  cases op with
  | add len =>
    obtain rfl := Option.some.inj hstep
    exact .inl ⟨rfl, rfl⟩
  | addStored len light =>
    change (s.addToQueue len.val).queueTestcaseStoreMem s.items light = some t at hstep
    unfold queueTestcaseStoreMem at hstep
    split at hstep
    · obtain rfl := Option.some.inj hstep
      exact .inl ⟨rfl, rfl⟩
    · obtain ⟨tid, -, ht⟩ := Option.bind_eq_some_iff.mp hstep
      obtain rfl := Option.some.inj ht
      exact .inl ⟨rfl, rfl⟩
  | get q cur light picks =>
    obtain ⟨-, hget⟩ := Option.ite_none_right_eq_some.mp hstep
    unfold queueTestcaseGet at hget
    split at hget
    · obtain rfl := Option.some.inj hget
      exact .inl ⟨rfl, rfl⟩
    · split at hget
      · obtain rfl := Option.some.inj hget
        exact .inl ⟨rfl, rfl⟩
      · obtain ⟨⟨tid, u⟩, hloop, hget⟩ := Option.bind_eq_some_iff.mp hget
        obtain ⟨tid', -, ht⟩ := Option.bind_eq_some_iff.mp hget
        obtain rfl := Option.some.inj ht
        exact .inr ⟨_, _, _, _, _, u, hloop, rfl, rfl⟩
  | trim q len inPlace =>
    obtain ⟨-, htrim⟩ := Option.ite_none_right_eq_some.mp hstep
    obtain rfl := Option.some.inj htrim
    unfold queueTestcaseRetakeMem
    split
    · split <;> exact .inl ⟨rfl, rfl⟩
    · exact .inl ⟨rfl, rfl⟩
  | trimAborted q len =>
    obtain ⟨-, htrim⟩ := Option.ite_none_right_eq_some.mp hstep
    obtain rfl := Option.some.inj htrim
    exact .inl ⟨rfl, rfl⟩
  | trimCustom q len =>
    obtain ⟨-, htrim⟩ := Option.ite_none_right_eq_some.mp hstep
    obtain rfl := Option.some.inj htrim
    unfold queueTestcaseRetake
    split
    · split <;> exact .inl ⟨rfl, rfl⟩
    · exact .inl ⟨rfl, rfl⟩

theorem Roomy.step (h : s.Roomy) {op : Op} (hstep : s.step op = some t) : t.Roomy := by
  refine ⟨h.linked.step hstep, ?_⟩
  rcases step_limits hstep with ⟨-, hsame⟩ | ⟨cur, len, picks, tid, tid', u, hloop, -, hsame⟩
  · rw [hsame]
    exact h.three_le
  · rw [hsame]
    exact (h.evictLoop hloop).three_le

theorem Linked.step_maxCacheSize (h : s.Linked) {op : Op} (hstep : s.step op = some t) :
    t.maxCacheSize = s.maxCacheSize := by
  rcases step_limits hstep with ⟨hsame, -⟩ | ⟨cur, len, picks, tid, tid', u, hloop, hsame, -⟩
  · exact hsame
  · obtain ⟨-, accepted, -, hrun⟩ := h.evictLoop_run hloop
    refine hsame.trans (run_invariant (P := fun u => u.maxCacheSize = s.maxCacheSize)
      (fun v pick w hv hw => ?_) rfl hrun)
    obtain ⟨-, -, old, -, -, rfl⟩ := evictOne_eq_some.mp hw
    refine Eq.trans ?_ hv
    change (v.learnLimit len).maxCacheSize = v.maxCacheSize
    unfold learnLimit
    split <;> rfl

theorem Linked.run_maxCacheSize (h : s.Linked) {ops : List Op} (hrun : s.run ops = some t) :
    t.maxCacheSize = s.maxCacheSize :=
  (run_invariant (P := fun u => u.Linked ∧ u.maxCacheSize = s.maxCacheSize)
    (fun _ _ _ hu ht => ⟨hu.1.step ht, (hu.1.step_maxCacheSize ht).trans hu.2⟩)
    ⟨h, rfl⟩ hrun).2

theorem Roomy.run (h : s.Roomy) {ops : List Op} (hrun : s.run ops = some t) : t.Roomy :=
  run_invariant (P := Roomy) (fun _ _ _ hu => hu.step) h hrun

theorem start_roomy (maxCacheSize : BitVec 64) {maxCacheEntries : BitVec 32}
    (hthree : 3 ≤ maxCacheEntries.toNat) : (start maxCacheSize maxCacheEntries).Roomy :=
  ⟨start_linked maxCacheSize maxCacheEntries, hthree⟩

end Run

/-! ## Limits that are too small -/

/-- A search does not end when nothing but the current entry is cached. -/
theorem not_evictionEnds_of_no_other {s : Cache} {len : ℕ} {cur : Option ℕ}
    (hfull : s.full len = true) (hnone : ∀ tid old, s.slots tid = some old → cur = some old) :
    ¬EvictionEnds cur len s := by
  intro h
  obtain ⟨pick, -, old, hold, hcur⟩ := h.searchable [] s rfl hfull
  rw [learnLimit_slots] at hold
  exact hcur (hnone pick old hold)

def emptyFile : FileLen := ⟨0, Nat.succ_pos maxFile⟩

/-- Two entries, of which the current one has been loaded. -/
def currentLoaded : List Op := [.add emptyFile, .add emptyFile, .get 0 (some 0) false []]

section Small
variable {maxCacheSize : BitVec 64}

theorem toNat_ne_zero (hsize : maxCacheSize ≠ 0) : maxCacheSize.toNat ≠ 0 :=
  fun h => hsize (BitVec.eq_of_toNat_eq h)

theorem run_currentLoaded (hsize : maxCacheSize ≠ 0) :
    (start maxCacheSize 2).run currentLoaded =
      some ((((start maxCacheSize 2).addToQueue 0).addToQueue 0).register 0 0) := by
  have hnat := toNat_ne_zero hsize
  have hget : (((start maxCacheSize 2).addToQueue 0).addToQueue 0).queueTestcaseGet 0 (some 0) false
      [] = some ((((start maxCacheSize 2).addToQueue 0).addToQueue 0).register 0 0) := by
    unfold queueTestcaseGet
    rw [if_neg (by simp [start, addToQueue]), if_neg (by simpa [start, addToQueue] using hnat)]
    unfold evictLoop
    rw [if_neg (by simp [full, start, addToQueue, decU32])]
    rfl
  exact congrArg (Option.bind · some) hget

/-- A limit of one entry is reached by the empty cache. -/
theorem full_of_one (len : ℕ) : ((start maxCacheSize 1).addToQueue 0).full len = true := by
  simp [full, start, addToQueue, decU32]

/-- A limit of two entries is reached by the current one. -/
theorem full_of_two (len : ℕ) :
    ((((start maxCacheSize 2).addToQueue 0).addToQueue 0).register 0 0).full len = true := by
  simp [full, start, addToQueue, register, decU32, incU32]

theorem one_not_evictionEnds (hsize : maxCacheSize ≠ 0) :
    ∃ s, (start maxCacheSize 1).run [.add 0] = some s ∧ s.Requests 0 ∧
      ¬EvictionEnds none (s.len 0) s := by
  refine ⟨_, rfl, ⟨Nat.one_pos, rfl, toNat_ne_zero hsize⟩, ?_⟩
  refine not_evictionEnds_of_no_other (full_of_one _) fun tid old hold => ?_
  exact absurd hold (by simp [start, addToQueue])

theorem two_not_evictionEnds (hsize : maxCacheSize ≠ 0) :
    ∃ s, (start maxCacheSize 2).run currentLoaded = some s ∧ s.Requests 1 ∧
      ¬EvictionEnds (some 0) (s.len 1) s := by
  refine ⟨_, run_currentLoaded hsize, ⟨Nat.one_lt_two, rfl, toNat_ne_zero hsize⟩, ?_⟩
  refine not_evictionEnds_of_no_other (full_of_two _) fun tid old hold => ?_
  change Function.update (fun _ => none) 0 (some 0) tid = some old at hold
  by_cases htid : tid = 0
  · rwa [htid, Function.update_self] at hold
  · rw [Function.update_of_ne htid] at hold
    exact absurd hold (by simp)

end Small

/-- For a positive limit the eviction loop finds what it searches, in every state of every run
and for every request, if and only if there is no cache or the limit is at least three. -/
theorem start_evictionEnds_iff (maxCacheSize : BitVec 64) (maxCacheEntries : BitVec 32)
    (hpos : 0 < maxCacheEntries.toNat) :
    (∀ (ops : List Op) (s : Cache) (q : ℕ) (cur : Option ℕ),
      (start maxCacheSize maxCacheEntries).run ops = some s → s.Requests q →
        EvictionEnds cur (s.len q) s) ↔
      maxCacheSize = 0 ∨ 3 ≤ maxCacheEntries.toNat := by
  constructor
  · intro h
    by_contra hsmall
    rw [not_or, not_le] at hsmall
    obtain ⟨hsize, hthree⟩ := hsmall
    have hcases : maxCacheEntries = 1 ∨ maxCacheEntries = 2 := by
      have hone : maxCacheEntries.toNat = 1 ∨ maxCacheEntries.toNat = 2 := by omega
      exact hone.imp BitVec.eq_of_toNat_eq BitVec.eq_of_toNat_eq
    rcases hcases with rfl | rfl
    · obtain ⟨s, hrun, hrequest, hnot⟩ := one_not_evictionEnds hsize
      exact hnot (h _ s _ _ hrun hrequest)
    · obtain ⟨s, hrun, hrequest, hnot⟩ := two_not_evictionEnds hsize
      exact hnot (h _ s _ _ hrun hrequest)
  · rintro (rfl | hthree) ops s q cur hrun hrequest
    · exact absurd ((start_linked 0 maxCacheEntries).run_maxCacheSize hrun) hrequest.has_cache
    · exact ((start_roomy maxCacheSize hthree).run hrun).evictionEnds cur (s.len q)

theorem start_evictionEnds_iff_default : 0 < (65536 : BitVec 32).toNat ∧
    ((∀ (ops : List Op) (s : Cache) (q : ℕ) (cur : Option ℕ),
      (start 0x3200000 65536).run ops = some s → s.Requests q →
        EvictionEnds cur (s.len q) s) ↔
      (0x3200000 : BitVec 64) = 0 ∨ 3 ≤ (65536 : BitVec 32).toNat) :=
  ⟨by decide, start_evictionEnds_iff 0x3200000 65536 (by decide)⟩

/-- With a limit of two the search for a slot goes on for ever once the current entry is the
only one that is cached. -/
theorem currentLoaded_not_evictionEnds :
    ¬∀ (maxCacheEntries : BitVec 32), 0 < maxCacheEntries.toNat →
      ∀ (ops : List Op) (s : Cache) (q : ℕ) (cur : Option ℕ),
        (start 0x3200000 maxCacheEntries).run ops = some s → s.Requests q →
          EvictionEnds cur (s.len q) s := by
  intro h
  obtain ⟨s, hrun, hrequest, hnot⟩ := @two_not_evictionEnds 0x3200000 (by decide)
  exact hnot (h 2 (by decide) _ s _ _ hrun hrequest)

end AflPlusPlus.TestcaseCache.Cache
