import AflPlusPlus.TestcaseCacheEviction

/-!
# The slots of the test-case cache

The limit of entries, the high-water mark and the smallest free slot lead the walk to the slot of
a new entry. With room for three entries it always ends at a free slot of the table.
-/

namespace AflPlusPlus.TestcaseCache.Cache
open ByteWords TransitionSystems

/-- The slot that `queue_testcase_get` takes when its eviction loop has ended with `tid`. -/
def slotForGet (s : Cache) (tid : ℕ) : Option ℕ :=
  s.findFree (s.capacity + 1) (if tid ≥ s.maxCacheEntries then s.smallestFree else tid)

/-- The slot that `queue_testcase_store_mem` takes. -/
def slotForStore (s : Cache) : Option ℕ :=
  s.findFree (s.capacity + 1)
    (if s.maxCacheCount ≥ s.maxCacheEntries then s.smallestFree else s.maxCacheCount)

/-- `queue_testcase_store_mem` goes on to the slots. -/
def Stores (s : Cache) (q : ℕ) (light : Bool) : Prop :=
  ¬(light ∨ s.overflows (s.len q) ∨ s.cacheCount ≥ decU32 s.maxCacheEntries)

/-- The calls that change the cache. Any entry may be stored, also one that is cached already. -/
inductive Call
  | op (op : Op)
  | storeMem (q : ℕ) (light : Bool)

def call (s : Cache) : Call → Option Cache
  | .op op => s.step op
  | .storeMem q light => if q < s.items then s.queueTestcaseStoreMem q light else none

/-- The smallest free slot and the high-water mark are what their names say. -/
structure SlotBounds (s : Cache) : Prop where
  smallestFree_le : ∀ tid, s.slots tid = none → s.smallestFree ≤ tid
  slot_lt : ∀ tid q, s.slots tid = some q → tid < s.maxCacheCount

/-- The bounds of the slots, and the limits in their order. -/
structure Guided (s : Cache) : Prop extends SlotBounds s where
  three_le : 3 ≤ s.maxCacheEntries
  maxCacheCount_le : s.maxCacheCount ≤ s.maxCacheEntries
  entries_le : s.maxCacheEntries ≤ s.capacity
  capacity_lt : s.capacity < 2 ^ 32
  count_eq : s.cacheCount = ∑ tid ∈ Finset.range s.capacity, slotCount s.slots tid

section Steps
variable {s t : Cache} {cur : Option ℕ} {len tid : ℕ}

theorem queueTestcaseGet_eq (q : ℕ) (light : Bool) (picks : List ℕ) :
    s.queueTestcaseGet q cur light picks =
      if s.testcaseBuf q then some s
      else if light ∨ s.maxCacheSize = 0 then some s
      else (evictLoop cur (s.len q) picks s.maxCacheCount s).bind fun r =>
        (r.2.slotForGet r.1).bind fun slot => some (r.2.register q slot) := rfl

theorem queueTestcaseStoreMem_eq (q : ℕ) (light : Bool) :
    s.queueTestcaseStoreMem q light =
      if light ∨ s.overflows (s.len q) ∨ s.cacheCount ≥ decU32 s.maxCacheEntries then some s
      else s.slotForStore.bind fun slot => some (s.register q slot) := rfl

/-- `t` has the slots, the counters and the limits of `s`. -/
structure SameSlots (s t : Cache) : Prop where
  slots : t.slots = s.slots
  capacity : t.capacity = s.capacity
  cacheCount : t.cacheCount = s.cacheCount
  maxCacheCount : t.maxCacheCount = s.maxCacheCount
  maxCacheEntries : t.maxCacheEntries = s.maxCacheEntries
  smallestFree : t.smallestFree = s.smallestFree

theorem Guided.congr (h : s.Guided) (ht : s.SameSlots t) : t.Guided := by
  constructor
  · constructor
    · simpa only [ht.slots, ht.smallestFree] using h.smallestFree_le
    · simpa only [ht.slots, ht.maxCacheCount] using h.slot_lt
  · simpa only [ht.maxCacheEntries] using h.three_le
  · simpa only [ht.maxCacheCount, ht.maxCacheEntries] using h.maxCacheCount_le
  · simpa only [ht.maxCacheEntries, ht.capacity] using h.entries_le
  · simpa only [ht.capacity] using h.capacity_lt
  · simpa only [ht.cacheCount, ht.capacity, ht.slots] using h.count_eq

theorem Guided.cacheCount_le (h : s.Guided) : s.cacheCount ≤ s.capacity := by
  rw [h.count_eq]
  exact sum_slotCount_le _ _

theorem Guided.lt_capacity (h : s.Guided) {q : ℕ} (hq : s.slots tid = some q) :
    tid < s.capacity := by
  have hlt := h.slot_lt tid q hq
  have hcount := h.maxCacheCount_le
  have hentries := h.entries_le
  omega

/-- The limit that is learnt is above the high-water mark, and the table is cut behind it. -/
theorem Guided.learnLimit (h : s.Guided) (hfull : s.full len = true) :
    (s.learnLimit len).Guided := by
  by_cases hcond : s.overflows len ∧ s.cacheCount < s.maxCacheEntries ∧
      s.maxCacheCount < s.maxCacheEntries ∧ !s.doOnce
  · have hthree := h.three_le
    have hentries := h.entries_le
    have hcap := h.capacity_lt
    have ⟨hover, hcount, hmax, _⟩ := hcond
    have htwo : 2 ≤ s.cacheCount := by
      have hdec : decU32 s.maxCacheEntries = s.maxCacheEntries - 1 :=
        decU32_eq (by omega) (by omega)
      simp only [full, hdec, Bool.or_eq_true, Bool.and_eq_true, decide_eq_true_eq] at hfull
      omega
    have hlearn : s.learnLimit len = { s with
        maxCacheEntries := max s.maxCacheCount s.cacheCount + 1
        doOnce := true
        capacity := min s.capacity (max s.maxCacheCount s.cacheCount + 1 + 1) } := by
      unfold Cache.learnLimit
      rw [if_pos hcond, incU32_eq (by omega), incU32_eq (by omega)]
      by_cases hlt : s.maxCacheCount > s.cacheCount
      · rw [if_pos hlt, Nat.max_eq_left (by omega)]
      · rw [if_neg hlt, Nat.max_eq_right (by omega)]
    rw [hlearn]
    have hshrink : ∑ k ∈ Finset.range s.capacity, slotCount s.slots k =
        ∑ k ∈ Finset.range (min s.capacity (max s.maxCacheCount s.cacheCount + 1 + 1)),
          slotCount s.slots k := by
      apply sum_range_shrink (by omega)
      intro k hk
      cases hslot : s.slots k with
      | none => simp [slotCount, hslot]
      | some q =>
        have hlt := h.lt_capacity hslot
        have hbelow := h.slot_lt k q hslot
        omega
    constructor
    · exact ⟨h.smallestFree_le, h.slot_lt⟩
    all_goals dsimp only
    · omega
    · omega
    · omega
    · omega
    · exact h.count_eq.trans hshrink
  · have hsame : s.learnLimit len = s := if_neg hcond
    rwa [hsame]

theorem Guided.evict (h : s.Guided) {old : ℕ} (hold : s.slots tid = some old) :
    (s.evict tid old).Guided := by
  have hcap := h.lt_capacity hold
  have hsum := sum_range_update (slotCount s.slots) hcap 0
  have hone : slotCount s.slots tid = 1 := by simp [slotCount, hold]
  rw [hone, ← h.count_eq] at hsum
  have hslots : (s.evict tid old).slots = Function.update s.slots tid none := rfl
  constructor
  · constructor
    · intro k hk
      have hfree : (s.evict tid old).smallestFree =
          if tid < s.smallestFree then tid else s.smallestFree := rfl
      rw [hfree]
      by_cases hkt : k = tid
      · split <;> omega
      · rw [hslots, Function.update_of_ne hkt] at hk
        have hle := h.smallestFree_le k hk
        split <;> omega
    · intro k q hk
      by_cases hkt : k = tid
      · simp [hslots, hkt] at hk
      · rw [hslots, Function.update_of_ne hkt] at hk
        exact h.slot_lt k q hk
  · exact h.three_le
  · exact h.maxCacheCount_le
  · exact h.entries_le
  · exact h.capacity_lt
  · have hcount : (s.evict tid old).cacheCount = decU32 s.cacheCount := rfl
    have hle := h.cacheCount_le
    have hlt := h.capacity_lt
    rw [hcount, hslots, slotCount_update, decU32_eq (by omega) (by omega)]
    simp only [Option.isSome_none, Bool.false_eq_true, ↓reduceIte]
    exact (Nat.eq_sub_of_add_eq hsum).symm

/-- A new entry takes a free slot below the limit. -/
theorem Guided.register (h : s.Guided) (q : ℕ) (hfree : s.slots tid = none)
    (hlt : tid < s.maxCacheEntries) : (s.register q tid).Guided := by
  have hcap := h.capacity_lt
  have hentries := h.entries_le
  have hsum := sum_range_update (slotCount s.slots) (show tid < s.capacity by omega) 1
  have hzero : slotCount s.slots tid = 0 := by simp [slotCount, hfree]
  rw [hzero, ← h.count_eq] at hsum
  have hslots : (s.register q tid).slots = Function.update s.slots tid (some q) := rfl
  have hmax : (s.register q tid).maxCacheCount = max s.maxCacheCount (tid + 1) := by
    change (if tid ≥ s.maxCacheCount then incU32 tid else s.maxCacheCount) = _
    rw [incU32_eq (by omega)]
    split <;> omega
  have hsmall : (s.register q tid).smallestFree ≤
      if tid = s.smallestFree then tid + 1 else s.smallestFree := by
    change (if tid ≥ s.maxCacheCount then s.smallestFree
      else if tid = s.smallestFree then incU32 tid else s.smallestFree) ≤ _
    rw [incU32_eq (by omega)]
    split <;> split <;> omega
  constructor
  · constructor
    · intro k hk
      by_cases hkt : k = tid
      · simp [hslots, hkt] at hk
      · rw [hslots, Function.update_of_ne hkt] at hk
        have hle := h.smallestFree_le k hk
        apply hsmall.trans
        split <;> omega
    · intro k r hk
      rw [hmax]
      by_cases hkt : k = tid
      · omega
      · rw [hslots, Function.update_of_ne hkt] at hk
        have hbelow := h.slot_lt k r hk
        omega
  · exact h.three_le
  · have hcount := h.maxCacheCount_le
    rw [hmax]
    exact max_le hcount hlt
  · exact hentries
  · exact hcap
  · have hcount : (s.register q tid).cacheCount = incU32 s.cacheCount := rfl
    have hle := sum_slotCount_le (Function.update s.slots tid (some q)) s.capacity
    have hcapacity : (s.register q tid).capacity = s.capacity := rfl
    rw [hcount, hslots, hcapacity]
    rw [slotCount_update] at hle ⊢
    simp only [Option.isSome_some, ↓reduceIte] at hle ⊢
    rw [incU32_eq (by omega)]
    omega

/-- The walk ends at a free slot, no later than at one that is known. -/
theorem findFree_le {k start : ℕ} (hk : s.slots k = none) (hcap : k < s.capacity)
    (hstart : start ≤ k) :
    ∃ slot, s.findFree (s.capacity + 1) start = some slot ∧ slot ≤ k ∧ s.slots slot = none := by
  have hfuel : k < start + (s.capacity + 1) := by omega
  revert hfuel
  generalize s.capacity + 1 = fuel
  intro hfuel
  induction fuel generalizing start with
  | zero => omega
  | succ fuel ih =>
    rw [findFree, if_pos (by omega)]
    cases hslot : s.slots start with
    | none => exact ⟨start, rfl, hstart, hslot⟩
    | some q =>
      have hne : start ≠ k := by
        intro heq
        rw [heq, hk] at hslot
        exact absurd hslot (by simp)
      exact ih (by omega) (by omega)

/-- A cache that is not full has a free slot two before the limit. -/
theorem Guided.exists_free (h : s.Guided) (hcount : s.cacheCount < decU32 s.maxCacheEntries) :
    ∃ k, s.slots k = none ∧ k + 1 < s.maxCacheEntries := by
  have hthree := h.three_le
  have hentries := h.entries_le
  have hcap := h.capacity_lt
  rw [decU32_eq (by omega) (by omega)] at hcount
  by_contra hnone
  have hone : ∀ k ∈ Finset.range (s.maxCacheEntries - 1), slotCount s.slots k = 1 := by
    intro k hk
    rw [Finset.mem_range] at hk
    cases hslot : s.slots k with
    | none => exact absurd ⟨k, hslot, by omega⟩ hnone
    | some q => simp [slotCount, hslot]
  have hle : ∑ k ∈ Finset.range (s.maxCacheEntries - 1), slotCount s.slots k ≤
      ∑ k ∈ Finset.range s.capacity, slotCount s.slots k := by
    apply Finset.sum_le_sum_of_subset
    exact Finset.range_mono (by omega)
  rw [Finset.sum_congr rfl hone, ← h.count_eq] at hle
  simp at hle
  omega

/-- From the smallest free slot on, the walk finds a slot below the limit. -/
theorem Guided.findFree_smallest (h : s.Guided)
    (hcount : s.cacheCount < decU32 s.maxCacheEntries) :
    ∃ slot, s.findFree (s.capacity + 1) s.smallestFree = some slot ∧
      s.slots slot = none ∧ slot < s.maxCacheEntries := by
  obtain ⟨k, hk, hlt⟩ := h.exists_free hcount
  have hentries := h.entries_le
  obtain ⟨slot, hfind, hle, hfree⟩ := findFree_le hk (by omega) (h.smallestFree_le k hk)
  exact ⟨slot, hfind, hfree, by omega⟩

/-- Where the eviction loop leads: to the high-water mark as long as it evicts nothing, and else
to the slot that it has emptied last. -/
def Leads (s : Cache) (tid : ℕ) : Prop :=
  tid = s.maxCacheCount ∨ (tid < s.maxCacheCount ∧ s.slots tid = none)

theorem Guided.slotForGet (h : s.Guided) (hlead : s.Leads tid)
    (hcount : s.cacheCount < decU32 s.maxCacheEntries) :
    ∃ slot, s.slotForGet tid = some slot ∧ s.slots slot = none ∧ slot < s.maxCacheEntries := by
  unfold Cache.slotForGet
  by_cases hge : tid ≥ s.maxCacheEntries
  · rw [if_pos hge]
    exact h.findFree_smallest hcount
  · have hfree : s.slots tid = none := by
      rcases hlead with heq | ⟨-, hfree⟩
      · cases hslot : s.slots tid with
        | none => rfl
        | some q =>
          have hlt := h.slot_lt tid q hslot
          omega
      · exact hfree
    have hentries := h.entries_le
    rw [if_neg hge]
    obtain ⟨slot, hfind, hle, hslot⟩ := findFree_le hfree (by omega) le_rfl
    exact ⟨slot, hfind, hslot, by omega⟩

theorem Guided.slotForStore (h : s.Guided)
    (hcount : s.cacheCount < decU32 s.maxCacheEntries) :
    ∃ slot, s.slotForStore = some slot ∧ s.slots slot = none ∧ slot < s.maxCacheEntries := by
  obtain ⟨slot, hslot⟩ := h.slotForGet (.inl rfl) hcount
  exact ⟨slot, hslot⟩

theorem evictLoop_induct {P : ℕ → Cache → Prop}
    (hlearn : ∀ tid u, P tid u → u.full len = true → P tid (u.learnLimit len))
    (hevict : ∀ tid u pick old, P tid u → u.slots pick = some old → P pick (u.evict pick old))
    {picks : List ℕ} {tid' : ℕ} (hs : P tid s)
    (hloop : evictLoop cur len picks tid s = some (tid', t)) :
    P tid' t ∧ t.full len = false := by
  induction picks generalizing s tid with
  | nil =>
    by_cases hfull : s.full len = true
    · simp [evictLoop, hfull] at hloop
    · simp only [evictLoop, hfull, Bool.false_eq_true, ↓reduceIte, Option.some.injEq,
        Prod.mk.injEq] at hloop
      obtain ⟨rfl, rfl⟩ := hloop
      exact ⟨hs, by simpa using hfull⟩
  | cons pick picks ih =>
    by_cases hfull : s.full len = true
    · have hlearned := hlearn tid s hs hfull
      rw [evictLoop, if_pos hfull] at hloop
      dsimp only at hloop
      split at hloop
      · split at hloop
        · exact ih hlearned hloop
        · rename_i old hold
          split at hloop
          · exact ih hlearned hloop
          · exact ih (hevict tid _ pick old hlearned hold) hloop
      · exact absurd hloop (by simp)
    · simp only [evictLoop, hfull, Bool.false_eq_true, ↓reduceIte, Option.some.injEq,
        Prod.mk.injEq] at hloop
      obtain ⟨rfl, rfl⟩ := hloop
      exact ⟨hs, by simpa using hfull⟩

theorem Guided.evictLoop (h : s.Guided) {picks : List ℕ}
    (hloop : Cache.evictLoop cur len picks s.maxCacheCount s = some (tid, t)) :
    t.Guided ∧ t.Leads tid ∧ t.cacheCount < decU32 t.maxCacheEntries := by
  have hend := evictLoop_induct (P := fun tid u => u.Guided ∧ u.Leads tid)
    (fun tid u hu hfull => ?_) (fun tid u pick old hu hold => ?_) ⟨h, .inl rfl⟩ hloop
  · obtain ⟨⟨hguided, hlead⟩, hfull⟩ := hend
    refine ⟨hguided, hlead, ?_⟩
    simp only [full, Bool.or_eq_false_iff, decide_eq_false_iff_not] at hfull
    omega
  · have hmax : (u.learnLimit len).maxCacheCount = u.maxCacheCount := by
      unfold Cache.learnLimit
      split <;> rfl
    refine ⟨hu.1.learnLimit hfull, ?_⟩
    rw [Leads, hmax, learnLimit_slots]
    exact hu.2
  · refine ⟨hu.1.evict hold, .inr ⟨hu.1.slot_lt pick old hold, ?_⟩⟩
    exact Function.update_self pick none u.slots

theorem Guided.evictOne (h : s.Guided) {pick : ℕ}
    (ht : Cache.evictOne cur len s pick = some t) : t.Guided := by
  obtain ⟨hfull, -, old, hold, -, rfl⟩ := evictOne_eq_some.mp ht
  exact (h.learnLimit hfull).evict hold

end Steps

/-! ## Runs -/

section Run
variable {s t : Cache}

theorem Guided.queueTestcaseGet (h : s.Guided) {q : ℕ} {cur : Option ℕ} {light : Bool}
    {picks : List ℕ} (hget : s.queueTestcaseGet q cur light picks = some t) : t.Guided := by
  rw [queueTestcaseGet_eq] at hget
  split at hget
  · exact Option.some.inj hget ▸ h
  · split at hget
    · exact Option.some.inj hget ▸ h
    · obtain ⟨⟨tid, u⟩, hloop, hget⟩ := Option.bind_eq_some_iff.mp hget
      obtain ⟨hu, hlead, hcount⟩ := h.evictLoop hloop
      obtain ⟨slot, hslot, hfree, hlt⟩ := hu.slotForGet hlead hcount
      dsimp only at hget
      rw [hslot] at hget
      exact Option.some.inj hget ▸ hu.register q hfree hlt

theorem Stores.cacheCount_lt {q : ℕ} {light : Bool} (h : s.Stores q light) :
    s.cacheCount < decU32 s.maxCacheEntries := by
  unfold Stores at h
  omega

theorem Guided.queueTestcaseStoreMem (h : s.Guided) {q : ℕ} {light : Bool}
    (hstore : s.queueTestcaseStoreMem q light = some t) : t.Guided := by
  rw [queueTestcaseStoreMem_eq] at hstore
  by_cases hcond : s.Stores q light
  · obtain ⟨slot, hslot, hfree, hlt⟩ := h.slotForStore hcond.cacheCount_lt
    rw [if_neg hcond, hslot] at hstore
    exact Option.some.inj hstore ▸ h.register q hfree hlt
  · rw [if_pos (not_not.mp hcond)] at hstore
    exact Option.some.inj hstore ▸ h

theorem Guided.step (h : s.Guided) {op : Op} (hstep : s.step op = some t) : t.Guided := by
  have hsame : ∀ {u : Cache}, u.Guided → ∀ {v : Cache}, u.SameSlots v → v.Guided :=
    fun hu _ hv => hu.congr hv
  cases op with
  | add len =>
    obtain rfl := Option.some.inj hstep
    exact hsame h ⟨rfl, rfl, rfl, rfl, rfl, rfl⟩
  | addStored len light =>
    have hadd : (s.addToQueue len.val).Guided := hsame h ⟨rfl, rfl, rfl, rfl, rfl, rfl⟩
    exact hadd.queueTestcaseStoreMem hstep
  | get q cur light picks =>
    obtain ⟨-, hget⟩ := Option.ite_none_right_eq_some.mp hstep
    exact h.queueTestcaseGet hget
  | trim q len inPlace =>
    obtain ⟨-, htrim⟩ := Option.ite_none_right_eq_some.mp hstep
    obtain rfl := Option.some.inj htrim
    unfold queueTestcaseRetakeMem
    split
    · split <;> exact hsame h ⟨rfl, rfl, rfl, rfl, rfl, rfl⟩
    · exact hsame h ⟨rfl, rfl, rfl, rfl, rfl, rfl⟩
  | trimAborted q len =>
    obtain ⟨-, htrim⟩ := Option.ite_none_right_eq_some.mp hstep
    obtain rfl := Option.some.inj htrim
    exact hsame h ⟨rfl, rfl, rfl, rfl, rfl, rfl⟩
  | trimCustom q len =>
    obtain ⟨-, htrim⟩ := Option.ite_none_right_eq_some.mp hstep
    obtain rfl := Option.some.inj htrim
    unfold queueTestcaseRetake
    split
    · split <;> exact hsame h ⟨rfl, rfl, rfl, rfl, rfl, rfl⟩
    · exact hsame h ⟨rfl, rfl, rfl, rfl, rfl, rfl⟩

theorem Guided.call (h : s.Guided) {c : Call} (hcall : s.call c = some t) : t.Guided := by
  cases c with
  | op op => exact h.step hcall
  | storeMem q light =>
    obtain ⟨-, hstore⟩ := Option.ite_none_right_eq_some.mp hcall
    exact h.queueTestcaseStoreMem hstore

theorem start_guided (maxCacheSize : BitVec 64) {maxCacheEntries : BitVec 32}
    (hthree : 3 ≤ maxCacheEntries.toNat) : (start maxCacheSize maxCacheEntries).Guided := by
  constructor
  · constructor
    · intro tid _
      exact Nat.zero_le tid
    · intro tid q hq
      exact absurd hq (by simp [start])
  · exact hthree
  · exact Nat.zero_le _
  · exact le_rfl
  · exact maxCacheEntries.isLt
  · exact (Finset.sum_eq_zero fun _ _ => rfl).symm

end Run

/-- Here and in every state of an eviction loop that starts here, the smallest free slot and the
high-water mark bound the slots, and a slot that may be drawn is in the table. The slot that a
call takes is a free one of the table. -/
structure SlotsFound (s : Cache) : Prop where
  bounds : ∀ cur len picks t, TransitionSystems.run (evictOne cur len) s picks = some t →
    t.SlotBounds ∧ t.maxCacheCount ≤ t.capacity
  forGet : ∀ cur q picks tid t,
    evictLoop cur (s.len q) picks s.maxCacheCount s = some (tid, t) →
      ∃ slot, t.slotForGet tid = some slot ∧ t.slots slot = none ∧ slot < t.capacity
  forStore : ∀ q light, s.Stores q light →
    ∃ slot, s.slotForStore = some slot ∧ s.slots slot = none ∧ slot < s.capacity

theorem Guided.slotsFound {s : Cache} (h : s.Guided) : s.SlotsFound where
  bounds cur len picks t ht := by
    have hguided : t.Guided := run_invariant (P := Guided) (fun _ _ _ hu => hu.evictOne) h ht
    exact ⟨hguided.toSlotBounds, hguided.maxCacheCount_le.trans hguided.entries_le⟩
  forGet cur q picks tid t hloop := by
    obtain ⟨hguided, hlead, hcount⟩ := h.evictLoop hloop
    obtain ⟨slot, hslot, hfree, hlt⟩ := hguided.slotForGet hlead hcount
    exact ⟨slot, hslot, hfree, hlt.trans_le hguided.entries_le⟩
  forStore q light hstores := by
    obtain ⟨slot, hslot, hfree, hlt⟩ := h.slotForStore hstores.cacheCount_lt
    exact ⟨slot, hslot, hfree, hlt.trans_le h.entries_le⟩

/-- With room for three entries, in every state that calls lead to. -/
theorem run_slots (maxCacheSize : BitVec 64) (maxCacheEntries : BitVec 32)
    (hthree : 3 ≤ maxCacheEntries.toNat) (calls : List Call) (s : Cache)
    (hrun : TransitionSystems.run call (start maxCacheSize maxCacheEntries) calls = some s) :
    s.SlotsFound :=
  (run_invariant (P := Guided) (fun _ _ _ hu => hu.call)
    (start_guided maxCacheSize hthree) hrun).slotsFound

/-- Two entries stored in a cache for three, the first of them twice. -/
theorem run_slots_storedTwice : ∃ s,
    TransitionSystems.run call (start 0x3200000 3)
      [.op (.addStored emptyFile false), .storeMem 0 false, .op (.add emptyFile)] = some s ∧
    s.SlotsFound :=
  ⟨_, rfl, run_slots 0x3200000 3 (by decide)
    [.op (.addStored emptyFile false), .storeMem 0 false, .op (.add emptyFile)] _ rfl⟩

end AflPlusPlus.TestcaseCache.Cache
