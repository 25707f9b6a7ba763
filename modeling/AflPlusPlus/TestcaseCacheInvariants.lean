import AflPlusPlus.TestcaseCache

/-!
# Accounting of the test-case cache

Slots, buffers and the number of cached entries agree in every run. The size agrees with the
lengths of the cached entries as long as no cached entry gets shorter and none gets longer
except through a custom trim.
-/

namespace AflPlusPlus.TestcaseCache.Cache
open ByteWords

theorem sum_range_update (f : ℕ → ℕ) {n k : ℕ} (hk : k < n) (v : ℕ) :
    ∑ i ∈ Finset.range n, Function.update f k v i + f k = ∑ i ∈ Finset.range n, f i + v := by
  have hmem : k ∈ Finset.range n := Finset.mem_range.2 hk
  rw [Finset.sum_update_of_mem hmem, Finset.sdiff_singleton_eq_erase,
    ← Finset.add_sum_erase _ f hmem]
  omega

/-- The contribution of a slot to the number and to the size of the cached entries. -/
def slotCount (slots : ℕ → Option ℕ) (tid : ℕ) : ℕ := if (slots tid).isSome then 1 else 0

def slotLen (slots : ℕ → Option ℕ) (len : ℕ → ℕ) (tid : ℕ) : ℕ := (slots tid).elim 0 len

theorem slotCount_update (slots : ℕ → Option ℕ) (tid : ℕ) (o : Option ℕ) :
    slotCount (Function.update slots tid o) =
      Function.update (slotCount slots) tid (if o.isSome then 1 else 0) := by
  funext t
  unfold slotCount
  by_cases ht : t = tid
  · rw [ht, Function.update_self, Function.update_self]
  · rw [Function.update_of_ne ht, Function.update_of_ne ht]

theorem slotLen_update (slots : ℕ → Option ℕ) (len : ℕ → ℕ) (tid : ℕ) (o : Option ℕ) :
    slotLen (Function.update slots tid o) len =
      Function.update (slotLen slots len) tid (o.elim 0 len) := by
  funext t
  unfold slotLen
  by_cases ht : t = tid
  · rw [ht, Function.update_self, Function.update_self]
  · rw [Function.update_of_ne ht, Function.update_of_ne ht]

/-- Slots, buffers and the counter belong together. -/
structure Linked (s : Cache) : Prop where
  capacity_lt : s.capacity < 2 ^ 32
  entries_lt : s.maxCacheEntries < 2 ^ 32
  len_le : ∀ q, s.len q ≤ maxFile
  slot_lt : ∀ tid q, s.slots tid = some q → tid < s.capacity ∧ tid < s.maxCacheCount ∧ q < s.items
  slot_inj : ∀ tid tid' q, s.slots tid = some q → s.slots tid' = some q → tid = tid'
  buf_iff : ∀ q, s.testcaseBuf q = true ↔ ∃ tid, s.slots tid = some q
  count_eq : s.cacheCount = ∑ tid ∈ Finset.range s.capacity, slotCount s.slots tid

/-- The size is the sum of the lengths of the entries in the slots. -/
def Accounted (s : Cache) : Prop :=
  s.cacheSize = ∑ tid ∈ Finset.range s.capacity, slotLen s.slots s.len tid

theorem sum_slotCount_le (slots : ℕ → Option ℕ) (n : ℕ) :
    ∑ tid ∈ Finset.range n, slotCount slots tid ≤ n := by
  calc ∑ tid ∈ Finset.range n, slotCount slots tid
      ≤ (Finset.range n).card • 1 :=
        Finset.sum_le_card_nsmul _ _ _ fun tid _ => by
          unfold slotCount
          split <;> omega
    _ = n := by simp

theorem sum_slotLen_lt (slots : ℕ → Option ℕ) {len : ℕ → ℕ} {n : ℕ} (hn : n < 2 ^ 32)
    (hlen : ∀ q, len q ≤ maxFile) : ∑ tid ∈ Finset.range n, slotLen slots len tid < 2 ^ 63 := by
  have hle : ∀ tid ∈ Finset.range n, slotLen slots len tid ≤ maxFile := by
    intro tid _
    unfold slotLen
    cases slots tid with
    | none => exact Nat.zero_le _
    | some q => exact hlen q
  calc ∑ tid ∈ Finset.range n, slotLen slots len tid
      ≤ (Finset.range n).card • maxFile := Finset.sum_le_card_nsmul _ _ _ hle
    _ = n * maxFile := by
      rw [Finset.card_range]
      rfl
    _ < 2 ^ 63 := by
      unfold maxFile
      omega

/-- A smaller table is as good if it holds all entries. -/
theorem sum_range_shrink {f : ℕ → ℕ} {m n : ℕ} (hmn : m ≤ n) (h : ∀ t, m ≤ t → f t = 0) :
    ∑ t ∈ Finset.range n, f t = ∑ t ∈ Finset.range m, f t := by
  refine (Finset.sum_subset (Finset.range_mono hmn) fun t _ ht => ?_).symm
  exact h t (by simpa using ht)

section Steps
variable {s : Cache}

theorem Linked.evict (h : s.Linked) {tid old : ℕ} (hold : s.slots tid = some old) :
    (s.evict tid old).Linked := by
  obtain ⟨htid, -, -⟩ := h.slot_lt tid old hold
  have hsum := sum_range_update (slotCount s.slots) htid 0
  have hone : slotCount s.slots tid = 1 := by
    unfold slotCount
    rw [hold]
    rfl
  rw [hone, ← h.count_eq] at hsum
  have hlt : s.cacheCount < 2 ^ 32 :=
    h.count_eq ▸ (sum_slotCount_le s.slots s.capacity).trans_lt h.capacity_lt
  have hslot : ∀ t q, (s.evict tid old).slots t = some q → t ≠ tid ∧ s.slots t = some q := by
    intro t q ht
    change Function.update s.slots tid none t = some q at ht
    by_cases hne : t = tid
    · rw [hne, Function.update_self] at ht
      exact absurd ht nofun
    · rw [Function.update_of_ne hne] at ht
      exact ⟨hne, ht⟩
  refine ⟨h.capacity_lt, h.entries_lt, h.len_le, fun t q ht => h.slot_lt t q (hslot t q ht).2,
    fun t t' q ht ht' => h.slot_inj t t' q (hslot t q ht).2 (hslot t' q ht').2, fun q => ?_, ?_⟩
  · change Function.update s.testcaseBuf old false q = true ↔
      ∃ t, Function.update s.slots tid none t = some q
    by_cases hq : q = old
    · rw [hq, Function.update_self]
      refine iff_of_false Bool.false_ne_true ?_
      rintro ⟨t, ht⟩
      obtain ⟨hne, ht⟩ := hslot t old ht
      exact hne (h.slot_inj t tid old ht hold)
    · rw [Function.update_of_ne hq, h.buf_iff]
      constructor
      · rintro ⟨t, ht⟩
        have hne : t ≠ tid := by
          rintro rfl
          rw [hold] at ht
          exact hq (Option.some_inj.1 ht).symm
        exact ⟨t, by rw [Function.update_of_ne hne, ht]⟩
      · rintro ⟨t, ht⟩
        exact ⟨t, (hslot t q ht).2⟩
  · change decU32 s.cacheCount = ∑ t ∈ Finset.range s.capacity,
      slotCount (Function.update s.slots tid none) t
    rw [slotCount_update, decU32_eq (by omega) hlt]
    simp only [Option.isSome_none, Bool.false_eq_true, ↓reduceIte]
    omega

theorem Accounted.evict (ha : s.Accounted) (h : s.Linked) {tid old : ℕ}
    (hold : s.slots tid = some old) : (s.evict tid old).Accounted := by
  obtain ⟨htid, -, -⟩ := h.slot_lt tid old hold
  have hsum := sum_range_update (slotLen s.slots s.len) htid 0
  have hlen : slotLen s.slots s.len tid = s.len old := by
    unfold slotLen
    rw [hold]
    rfl
  have hlt := sum_slotLen_lt s.slots h.capacity_lt h.len_le
  rw [hlen, ← ha] at hsum
  rw [← ha] at hlt
  change (s.cacheSize + (2 ^ 64 - s.len old)) % 2 ^ 64 =
    ∑ t ∈ Finset.range s.capacity, slotLen (Function.update s.slots tid none) s.len t
  rw [slotLen_update]
  simp only [Option.elim_none]
  omega

theorem Linked.register (h : s.Linked) {q tid : ℕ} (hq : q < s.items)
    (hbuf : s.testcaseBuf q = false) (htid : tid < s.capacity) (hfree : s.slots tid = none) :
    (s.register q tid).Linked := by
  have hsum := sum_range_update (slotCount s.slots) htid 1
  have hzero : slotCount s.slots tid = 0 := by
    unfold slotCount
    rw [hfree]
    rfl
  rw [hzero, ← h.count_eq] at hsum
  have hcap := h.capacity_lt
  have hmax : (s.register q tid).maxCacheCount = max s.maxCacheCount (tid + 1) := by
    change (if tid ≥ s.maxCacheCount then incU32 tid else s.maxCacheCount) = _
    rw [incU32_eq (by omega)]
    split <;> omega
  have hslot : ∀ t r, (s.register q tid).slots t = some r →
      (t = tid ∧ r = q) ∨ (t ≠ tid ∧ r ≠ q ∧ s.slots t = some r) := by
    intro t r ht
    change Function.update s.slots tid (some q) t = some r at ht
    by_cases hne : t = tid
    · rw [hne, Function.update_self, Option.some_inj] at ht
      exact .inl ⟨hne, ht.symm⟩
    · rw [Function.update_of_ne hne] at ht
      refine .inr ⟨hne, fun hr => ?_, ht⟩
      rw [hr] at ht
      rw [(h.buf_iff q).2 ⟨t, ht⟩] at hbuf
      exact absurd hbuf (by decide)
  refine ⟨hcap, h.entries_lt, h.len_le, fun t r ht => ?_, fun t t' r ht ht' => ?_,
    fun r => ?_, ?_⟩
  · rw [hmax]
    rcases hslot t r ht with ⟨rfl, rfl⟩ | ⟨-, -, hold⟩
    · exact ⟨htid, by omega, hq⟩
    · obtain ⟨h1, h2, h3⟩ := h.slot_lt t r hold
      exact ⟨h1, by omega, h3⟩
  · rcases hslot t r ht with ⟨rfl, rfl⟩ | ⟨-, hne, hold⟩
    · rcases hslot t' r ht' with ⟨rfl, -⟩ | ⟨-, hne', -⟩
      · rfl
      · exact absurd rfl hne'
    · rcases hslot t' r ht' with ⟨-, heq⟩ | ⟨-, -, hold'⟩
      · exact absurd heq hne
      · exact h.slot_inj t t' r hold hold'
  · change Function.update s.testcaseBuf q true r = true ↔
      ∃ t, Function.update s.slots tid (some q) t = some r
    by_cases hr : r = q
    · rw [hr, Function.update_self]
      exact iff_of_true rfl ⟨tid, Function.update_self ..⟩
    · rw [Function.update_of_ne hr, h.buf_iff]
      constructor
      · rintro ⟨t, ht⟩
        have hne : t ≠ tid := by
          rintro rfl
          rw [hfree] at ht
          exact absurd ht nofun
        exact ⟨t, by rw [Function.update_of_ne hne, ht]⟩
      · rintro ⟨t, ht⟩
        rcases hslot t r ht with ⟨-, heq⟩ | ⟨-, -, hold⟩
        · exact absurd heq hr
        · exact ⟨t, hold⟩
  · change incU32 s.cacheCount = ∑ t ∈ Finset.range s.capacity,
      slotCount (Function.update s.slots tid (some q)) t
    have hle := sum_slotCount_le (Function.update s.slots tid (some q)) s.capacity
    rw [slotCount_update] at hle ⊢
    simp only [Option.isSome_some, ↓reduceIte] at hle ⊢
    rw [incU32_eq (by omega)]
    omega

theorem Accounted.register (ha : s.Accounted) (h : s.Linked) {q tid : ℕ}
    (htid : tid < s.capacity) (hfree : s.slots tid = none) : (s.register q tid).Accounted := by
  have hsum := sum_range_update (slotLen s.slots s.len) htid (s.len q)
  have hlen : slotLen s.slots s.len tid = 0 := by
    unfold slotLen
    rw [hfree]
    rfl
  have hlt := sum_slotLen_lt (Function.update s.slots tid (some q)) h.capacity_lt h.len_le
  rw [hlen, ← ha] at hsum
  change (s.cacheSize + s.len q) % 2 ^ 64 =
    ∑ t ∈ Finset.range s.capacity, slotLen (Function.update s.slots tid (some q)) s.len t
  rw [slotLen_update] at hlt ⊢
  simp only [Option.elim_some] at hlt ⊢
  omega

theorem learnLimit_spec (h : s.Linked) (len : ℕ) :
    (s.learnLimit len).Linked ∧ (s.Accounted → (s.learnLimit len).Accounted) := by
  unfold learnLimit
  split
  · rename_i hcond
    obtain ⟨-, hcount, hmax, -⟩ := hcond
    have hentries := h.entries_lt
    dsimp only
    generalize hnew : (if s.maxCacheCount > s.cacheCount then incU32 s.maxCacheCount
      else incU32 s.cacheCount) = entries
    rw [incU32_eq (by omega), incU32_eq (by omega)] at hnew
    have hbound : s.maxCacheCount < entries + 1 ∧ entries < 2 ^ 32 := by
      split at hnew <;> omega
    have hempty : ∀ t, min s.capacity (entries + 1) ≤ t → s.slots t = none := by
      intro t ht
      by_contra hsome
      obtain ⟨q, hq⟩ := Option.ne_none_iff_exists'.1 hsome
      obtain ⟨h1, h2, -⟩ := h.slot_lt t q hq
      omega
    have hcount' := sum_range_shrink (f := slotCount s.slots) (min_le_left s.capacity (entries + 1))
      fun t ht => by simp [slotCount, hempty t ht]
    have hlen' := sum_range_shrink (f := slotLen s.slots s.len)
      (min_le_left s.capacity (entries + 1)) fun t ht => by simp [slotLen, hempty t ht]
    refine ⟨⟨(min_le_left _ _).trans_lt h.capacity_lt, hbound.2, h.len_le, fun t q ht => ?_,
      h.slot_inj, h.buf_iff, h.count_eq.trans hcount'⟩, fun ha => ha.trans hlen'⟩
    obtain ⟨h1, h2, h3⟩ := h.slot_lt t q ht
    exact ⟨lt_min h1 (by omega), h2, h3⟩
  · exact ⟨h, id⟩

/-- `t` comes from `s` by calls that keep entries and lengths and cache nothing new. -/
structure Releases (s t : Cache) : Prop where
  linked : t.Linked
  accounted : s.Accounted → t.Accounted
  items_eq : t.items = s.items
  len_eq : t.len = s.len
  buf_of : ∀ q, t.testcaseBuf q = true → s.testcaseBuf q = true

theorem Releases.trans {t u : Cache} (h : s.Releases t) (h' : t.Releases u) : s.Releases u where
  linked := h'.linked
  accounted := h'.accounted ∘ h.accounted
  items_eq := h'.items_eq.trans h.items_eq
  len_eq := h'.len_eq.trans h.len_eq
  buf_of q hq := h.buf_of q (h'.buf_of q hq)

theorem Linked.releases (h : s.Linked) : s.Releases s := ⟨h, id, rfl, rfl, fun _ => id⟩

theorem evict_releases (h : s.Linked) {tid old : ℕ} (hold : s.slots tid = some old) :
    s.Releases (s.evict tid old) := by
  refine ⟨h.evict hold, fun ha => ha.evict h hold, rfl, rfl, fun q hq => ?_⟩
  change Function.update s.testcaseBuf old false q = true at hq
  by_cases hne : q = old
  · rw [hne, Function.update_self] at hq
    exact absurd hq (by decide)
  · rwa [Function.update_of_ne hne] at hq

theorem learnLimit_releases (h : s.Linked) (len : ℕ) : s.Releases (s.learnLimit len) := by
  obtain ⟨hlinked, hacc⟩ := learnLimit_spec h len
  refine ⟨hlinked, hacc, ?_, ?_, fun q => ?_⟩ <;>
    · unfold learnLimit
      split
      · first | rfl | exact id
      · first | rfl | exact id

theorem evictLoop_releases (cur : Option ℕ) (len : ℕ) (picks : List ℕ) {tid tid' : ℕ} {t : Cache}
    (h : s.Linked) (hrun : evictLoop cur len picks tid s = some (tid', t)) : s.Releases t := by
  induction picks generalizing tid s with
  | nil =>
    unfold evictLoop at hrun
    split at hrun
    · exact absurd hrun nofun
    · cases hrun
      exact h.releases
  | cons pick picks ih =>
    have hlearn := learnLimit_releases h len
    unfold evictLoop at hrun
    split at hrun
    · dsimp only at hrun
      split at hrun
      · split at hrun
        · exact hlearn.trans (ih hlearn.linked hrun)
        · split at hrun
          · exact hlearn.trans (ih hlearn.linked hrun)
          · have hevict := evict_releases hlearn.linked ‹_›
            exact (hlearn.trans hevict).trans (ih hevict.linked hrun)
      · exact absurd hrun nofun
    · cases hrun
      exact h.releases

theorem findFree_spec {fuel tid tid' : ℕ} (h : s.findFree fuel tid = some tid') :
    tid' < s.capacity ∧ s.slots tid' = none := by
  induction fuel generalizing tid with
  | zero => exact absurd h nofun
  | succ fuel ih =>
    unfold findFree at h
    split at h
    · split at h
      · cases h
        exact ⟨‹_›, ‹_›⟩
      · exact ih h
    · exact absurd h nofun

/-- Slots, buffers and counter stay linked, and the size stays right. -/
def Maintains (s t : Cache) : Prop := t.Linked ∧ (s.Accounted → t.Accounted)

theorem register_maintains (h : s.Linked) {q tid fuel tid' : ℕ} (hq : q < s.items)
    (hbuf : s.testcaseBuf q = false) (hfind : s.findFree fuel tid = some tid') :
    s.Maintains (s.register q tid') := by
  obtain ⟨htid, hfree⟩ := findFree_spec hfind
  exact ⟨h.register hq hbuf htid hfree, fun ha => ha.register h htid hfree⟩

theorem queueTestcaseGet_maintains (h : s.Linked) {q : ℕ} (hq : q < s.items) {cur : Option ℕ}
    {light : Bool} {picks : List ℕ} {t : Cache}
    (hrun : s.queueTestcaseGet q cur light picks = some t) : s.Maintains t := by
  unfold queueTestcaseGet at hrun
  split at hrun
  · cases hrun
    exact ⟨h, id⟩
  · rename_i hbuf
    split at hrun
    · cases hrun
      exact ⟨h, id⟩
    · rw [Option.bind_eq_bind, Option.bind_eq_some_iff] at hrun
      obtain ⟨⟨tid, u⟩, hevict, hrun⟩ := hrun
      obtain ⟨tid', hfind, hrun⟩ := Option.bind_eq_some_iff.1 hrun
      cases hrun
      have hrel := evictLoop_releases cur _ picks h hevict
      have hbuf' : u.testcaseBuf q = false := by
        by_contra hne
        exact hbuf (hrel.buf_of q (by simpa using hne))
      obtain ⟨hlinked, hacc⟩ :=
        register_maintains hrel.linked (hrel.items_eq ▸ hq) hbuf' hfind
      exact ⟨hlinked, hacc ∘ hrel.accounted⟩

theorem queueTestcaseStoreMem_maintains (h : s.Linked) {q : ℕ} (hq : q < s.items)
    (hbuf : s.testcaseBuf q = false) {light : Bool} {t : Cache}
    (hrun : s.queueTestcaseStoreMem q light = some t) : s.Maintains t := by
  unfold queueTestcaseStoreMem at hrun
  split at hrun
  · cases hrun
    exact ⟨h, id⟩
  · obtain ⟨tid', hfind, hrun⟩ := Option.bind_eq_some_iff.1 hrun
    cases hrun
    exact register_maintains h hq hbuf hfind

/-- The length of an entry without a slot does not matter. -/
theorem slotLen_update_of_uncached {len : ℕ → ℕ} {q : ℕ} (hq : ∀ tid, s.slots tid ≠ some q)
    (v : ℕ) : slotLen s.slots (Function.update len q v) = slotLen s.slots len := by
  funext tid
  unfold slotLen
  cases hslot : s.slots tid with
  | none => rfl
  | some r =>
    have hne : r ≠ q := by
      rintro rfl
      exact hq tid hslot
    exact Function.update_of_ne hne ..

theorem addToQueue_maintains (h : s.Linked) {len : ℕ} (hlen : len ≤ maxFile) :
    s.Maintains (s.addToQueue len) := by
  have hnew : ∀ tid, s.slots tid ≠ some s.items := by
    intro tid htid
    exact (h.slot_lt tid s.items htid).2.2.false
  refine ⟨⟨h.capacity_lt, h.entries_lt, fun q => ?_, fun tid q htid => ?_, h.slot_inj,
    fun q => ?_, h.count_eq⟩, fun ha => ?_⟩
  · change Function.update s.len s.items len q ≤ maxFile
    by_cases hq : q = s.items
    · rwa [hq, Function.update_self]
    · rw [Function.update_of_ne hq]
      exact h.len_le q
  · obtain ⟨h1, h2, h3⟩ := h.slot_lt tid q htid
    exact ⟨h1, h2, h3.trans (Nat.lt_succ_self _)⟩
  · change Function.update s.testcaseBuf s.items false q = true ↔ ∃ tid, s.slots tid = some q
    by_cases hq : q = s.items
    · rw [hq, Function.update_self]
      exact iff_of_false Bool.false_ne_true fun ⟨tid, htid⟩ => hnew tid htid
    · rw [Function.update_of_ne hq]
      exact h.buf_iff q
  · change s.cacheSize = ∑ tid ∈ Finset.range s.capacity,
      slotLen s.slots (Function.update s.len s.items len) tid
    rw [slotLen_update_of_uncached hnew]
    exact ha

/-- After a change of the length of an entry in slot `tid`. -/
theorem slotLen_update_of_cached (h : s.Linked) {q tid : ℕ} (htid : s.slots tid = some q)
    (v : ℕ) : slotLen s.slots (Function.update s.len q v) =
      Function.update (slotLen s.slots s.len) tid v := by
  funext t
  unfold slotLen
  by_cases ht : t = tid
  · rw [ht, Function.update_self, htid]
    exact Function.update_self ..
  · rw [Function.update_of_ne ht]
    cases hslot : s.slots t with
    | none => rfl
    | some r =>
      have hne : r ≠ q := by
        rintro rfl
        exact ht (h.slot_inj t tid r hslot htid)
      exact Function.update_of_ne hne ..

theorem setLen_linked (h : s.Linked) (q : ℕ) {len : ℕ} (hlen : len ≤ maxFile) :
    (s.setLen q len).Linked := by
  refine { h with len_le := fun r => ?_ }
  change Function.update s.len q len r ≤ maxFile
  by_cases hr : r = q
  · rwa [hr, Function.update_self]
  · rw [Function.update_of_ne hr]
    exact h.len_le r

/-- The size that belongs to the slots after the length of an entry has changed. -/
theorem sum_setLen (h : s.Linked) (ha : s.Accounted) {q : ℕ} (hbuf : s.testcaseBuf q = true)
    (len : ℕ) : ∑ tid ∈ Finset.range s.capacity, slotLen s.slots (Function.update s.len q len) tid
      + s.len q = s.cacheSize + len := by
  obtain ⟨tid, htid⟩ := (h.buf_iff q).1 hbuf
  have hsum := sum_range_update (slotLen s.slots s.len) (h.slot_lt tid q htid).1 len
  have hlen : slotLen s.slots s.len tid = s.len q := by
    unfold slotLen
    rw [htid]
    rfl
  rw [hlen, ← ha] at hsum
  rw [slotLen_update_of_cached h htid]
  exact hsum

theorem setLen_accounted_of_uncached (h : s.Linked) (ha : s.Accounted) {q : ℕ}
    (hbuf : s.testcaseBuf q = false) (len : ℕ) : (s.setLen q len).Accounted := by
  have hnone : ∀ tid, s.slots tid ≠ some q := by
    intro tid htid
    rw [(h.buf_iff q).2 ⟨tid, htid⟩] at hbuf
    exact absurd hbuf (by decide)
  change s.cacheSize = ∑ tid ∈ Finset.range s.capacity,
    slotLen s.slots (Function.update s.len q len) tid
  rw [slotLen_update_of_uncached hnone]
  exact ha

theorem setLen_accounted_iff (h : s.Linked) (ha : s.Accounted) {q : ℕ}
    (hbuf : s.testcaseBuf q = true) (len : ℕ) : (s.setLen q len).Accounted ↔ len = s.len q := by
  have hsum := sum_setLen h ha hbuf len
  change s.cacheSize = ∑ tid ∈ Finset.range s.capacity,
    slotLen s.slots (Function.update s.len q len) tid ↔ _
  omega

/-- Adding the `u32` difference of the lengths is right unless the entry got shorter. -/
theorem adjustSize_accounted_iff (h : s.Linked) (ha : s.Accounted) {q : ℕ}
    (hbuf : s.testcaseBuf q = true) {len : ℕ} (hlen : len ≤ maxFile) :
    ((s.setLen q len).adjustSize len (s.len q)).Accounted ↔ s.len q ≤ len := by
  have hsum := sum_setLen h ha hbuf len
  have hold := h.len_le q
  have hlt := sum_slotLen_lt s.slots h.capacity_lt h.len_le
  rw [← ha] at hlt
  change (s.cacheSize + (len + (2 ^ 32 - s.len q)) % 2 ^ 32) % 2 ^ 64 =
    ∑ tid ∈ Finset.range s.capacity, slotLen s.slots (Function.update s.len q len) tid ↔ _
  unfold maxFile at hlen hold
  omega

end Steps

/-! ## Whole runs -/

/-- The change of length that a step makes is one that the size accounts for: none for a
cached entry, except that a custom trim may make it longer. -/
def StepMeets (s : Cache) : Op → Prop
  | .add _ | .addStored _ _ | .get _ _ _ _ => True
  | .trim q len _ | .trimAborted q len => s.testcaseBuf q = true → len.val = s.len q
  | .trimCustom q len => s.testcaseBuf q = true → s.len q ≤ len.val

def RunMeets : Cache → List Op → Prop
  | _, [] => True
  | s, op :: ops => s.StepMeets op ∧ ∀ t, s.step op = some t → RunMeets t ops

/-- The size, the number of entries and the slots of the cache are what they stand for. -/
structure Consistent (s : Cache) : Prop where
  size_eq : s.cacheSize = ∑ q ∈ (Finset.range s.items).filter (fun q => s.testcaseBuf q), s.len q
  count_eq : s.cacheCount =
    ((Finset.range s.capacity).filter (fun tid => s.slots tid ≠ none)).card
  buf_iff : ∀ q, s.testcaseBuf q = true ↔ ∃! tid, s.slots tid = some q

/-- Every state that a run goes through is consistent. -/
def AlwaysConsistent : Cache → List Op → Prop
  | s, [] => s.Consistent
  | s, op :: ops => s.Consistent ∧ ∀ t, s.step op = some t → AlwaysConsistent t ops

section Run
variable {s t : Cache}

theorem retakeMem_linked (h : s.Linked) (q : ℕ) (inPlace : Bool) (len oldLen : ℕ) :
    (s.queueTestcaseRetakeMem q inPlace len oldLen).Linked := by
  unfold queueTestcaseRetakeMem
  split
  · split
    · exact ⟨h.1, h.2, h.3, h.4, h.5, h.6, h.7⟩
    · exact h
  · exact h

theorem retake_linked (h : s.Linked) (q oldLen : ℕ) : (s.queueTestcaseRetake q oldLen).Linked := by
  unfold queueTestcaseRetake
  split
  · split
    · exact ⟨h.1, h.2, h.3, h.4, h.5, h.6, h.7⟩
    · exact h
  · exact h

theorem FileLen.le (len : FileLen) : len.val ≤ maxFile := Nat.lt_succ_iff.1 len.isLt

/-- The steps that add or load an entry keep everything. -/
theorem load_maintains (h : s.Linked) {op : Op}
    (hop : op matches .add _ | .addStored _ _ | .get _ _ _ _) (hstep : s.step op = some t) :
    s.Maintains t := by
  cases op with
  | add len =>
    cases hstep
    exact addToQueue_maintains h (FileLen.le len)
  | addStored len light =>
    obtain ⟨hadd, hacc⟩ := addToQueue_maintains h (FileLen.le len)
    obtain ⟨hstore, hacc'⟩ := queueTestcaseStoreMem_maintains hadd (Nat.lt_succ_self _)
      (Function.update_self ..) hstep
    exact ⟨hstore, hacc' ∘ hacc⟩
  | get q cur light picks =>
    obtain ⟨hq, hget⟩ := Option.ite_none_right_eq_some.1 hstep
    exact queueTestcaseGet_maintains h hq hget
  | trim q len inPlace => exact absurd hop (by simp)
  | trimAborted q len => exact absurd hop (by simp)
  | trimCustom q len => exact absurd hop (by simp)

theorem Linked.step (h : s.Linked) {op : Op} (hstep : s.step op = some t) : t.Linked := by
  cases op with
  | add len => exact (load_maintains h rfl hstep).1
  | addStored len light => exact (load_maintains h rfl hstep).1
  | get q cur light picks => exact (load_maintains h rfl hstep).1
  | trim q len inPlace =>
    obtain ⟨-, htrim⟩ := Option.ite_none_right_eq_some.1 hstep
    cases htrim
    exact retakeMem_linked (setLen_linked h q (FileLen.le len)) ..
  | trimAborted q len =>
    obtain ⟨-, htrim⟩ := Option.ite_none_right_eq_some.1 hstep
    cases htrim
    exact setLen_linked h q (FileLen.le len)
  | trimCustom q len =>
    obtain ⟨-, htrim⟩ := Option.ite_none_right_eq_some.1 hstep
    cases htrim
    exact retake_linked (setLen_linked h q (FileLen.le len)) ..

theorem trim_accounted_iff (h : s.Linked) (ha : s.Accounted) (q : ℕ) (len : FileLen)
    (inPlace : Bool) :
    ((s.setLen q len.val).queueTestcaseRetakeMem q inPlace len.val (s.len q)).Accounted ↔
      (s.testcaseBuf q = true → len.val = s.len q) := by
  have hlen := FileLen.le len
  have hold := h.len_le q
  unfold queueTestcaseRetakeMem
  cases hbuf : s.testcaseBuf q with
  | false =>
    rw [if_neg fun hc => absurd (hbuf ▸ hc.1) Bool.false_ne_true]
    exact iff_of_true (setLen_accounted_of_uncached h ha hbuf _) fun hc => absurd hc nofun
  | true =>
    rw [imp_iff_right rfl]
    split
    · split
      · rename_i hshrink
        rw [adjustSize_accounted_iff h ha hbuf hlen]
        unfold maxFile at hlen hold
        omega
      · exact setLen_accounted_iff h ha hbuf _
    · exact setLen_accounted_iff h ha hbuf _

theorem trimCustom_accounted_iff (h : s.Linked) (ha : s.Accounted) (q : ℕ) (len : FileLen) :
    ((s.setLen q len.val).queueTestcaseRetake q (s.len q)).Accounted ↔
      (s.testcaseBuf q = true → s.len q ≤ len.val) := by
  have hlen := FileLen.le len
  have hold := h.len_le q
  have hset : (s.setLen q len.val).len q = len.val := Function.update_self ..
  unfold queueTestcaseRetake
  rw [hset]
  cases hbuf : s.testcaseBuf q with
  | false =>
    rw [if_neg (show ¬(s.setLen q len.val).testcaseBuf q = true from by simp [setLen, hbuf])]
    exact iff_of_true (setLen_accounted_of_uncached h ha hbuf _) fun hc => absurd hc nofun
  | true =>
    rw [if_pos (show (s.setLen q len.val).testcaseBuf q = true from hbuf), imp_iff_right rfl]
    split
    · exact adjustSize_accounted_iff h ha hbuf hlen
    · rename_i hsame
      rw [setLen_accounted_iff h ha hbuf]
      unfold maxFile at hlen hold
      omega

/-- A step keeps the size right if and only if it meets the condition. -/
theorem step_accounted_iff (h : s.Linked) (ha : s.Accounted) {op : Op}
    (hstep : s.step op = some t) : t.Accounted ↔ s.StepMeets op := by
  cases op with
  | add len => exact iff_of_true ((load_maintains h rfl hstep).2 ha) trivial
  | addStored len light => exact iff_of_true ((load_maintains h rfl hstep).2 ha) trivial
  | get q cur light picks => exact iff_of_true ((load_maintains h rfl hstep).2 ha) trivial
  | trim q len inPlace =>
    obtain ⟨-, htrim⟩ := Option.ite_none_right_eq_some.1 hstep
    cases htrim
    exact trim_accounted_iff h ha q len inPlace
  | trimAborted q len =>
    obtain ⟨-, htrim⟩ := Option.ite_none_right_eq_some.1 hstep
    cases htrim
    cases hbuf : s.testcaseBuf q with
    | false =>
      exact iff_of_true (setLen_accounted_of_uncached h ha hbuf _)
        fun hc => absurd (hbuf ▸ hc) Bool.false_ne_true
    | true =>
      exact (setLen_accounted_iff h ha hbuf _).trans ⟨fun heq _ => heq, fun himp => himp hbuf⟩
  | trimCustom q len =>
    obtain ⟨-, htrim⟩ := Option.ite_none_right_eq_some.1 hstep
    cases htrim
    exact trimCustom_accounted_iff h ha q len

theorem Linked.buf_false (h : s.Linked) {q : ℕ} (hq : ¬q < s.items) :
    s.testcaseBuf q = false := by
  by_contra hbuf
  obtain ⟨tid, htid⟩ := (h.buf_iff q).1 (by simpa using hbuf)
  exact hq (h.slot_lt tid q htid).2.2

/-- A step for an entry that is not in the queue changes no cached length. -/
theorem stepMeets_of_none (h : s.Linked) {op : Op} (hstep : s.step op = none) :
    s.StepMeets op := by
  cases op with
  | add len => trivial
  | addStored len light => trivial
  | get q cur light picks => trivial
  | trim q len inPlace =>
    have hq : ¬q < s.items := fun hq => absurd ((if_pos hq).symm.trans hstep) nofun
    exact fun hbuf => absurd ((h.buf_false hq).symm.trans hbuf) nofun
  | trimAborted q len =>
    have hq : ¬q < s.items := fun hq => absurd ((if_pos hq).symm.trans hstep) nofun
    exact fun hbuf => absurd ((h.buf_false hq).symm.trans hbuf) nofun
  | trimCustom q len =>
    have hq : ¬q < s.items := fun hq => absurd ((if_pos hq).symm.trans hstep) nofun
    exact fun hbuf => absurd ((h.buf_false hq).symm.trans hbuf) nofun

/-- Adding up over the slots is adding up over the cached entries. -/
theorem Linked.sum_slotLen (h : s.Linked) :
    ∑ tid ∈ Finset.range s.capacity, slotLen s.slots s.len tid =
      ∑ q ∈ (Finset.range s.items).filter (fun q => s.testcaseBuf q), s.len q := by
  have hsome : ∀ tid ∈ Finset.range s.capacity, slotLen s.slots s.len tid ≠ 0 →
      s.slots tid ≠ none := by
    intro tid _ hne hnone
    rw [slotLen, hnone] at hne
    exact hne rfl
  rw [← Finset.sum_filter_of_ne hsome]
  refine Finset.sum_nbij (fun tid => (s.slots tid).getD 0) ?_ ?_ ?_ ?_
  · intro tid htid
    obtain ⟨q, hq⟩ := Option.ne_none_iff_exists'.1 (Finset.mem_filter.1 htid).2
    rw [hq]
    exact Finset.mem_filter.2 ⟨Finset.mem_range.2 (h.slot_lt tid q hq).2.2,
      (h.buf_iff q).2 ⟨tid, hq⟩⟩
  · intro tid htid tid' htid' heq
    obtain ⟨q, hq⟩ := Option.ne_none_iff_exists'.1 (Finset.mem_filter.1 htid).2
    obtain ⟨q', hq'⟩ := Option.ne_none_iff_exists'.1 (Finset.mem_filter.1 htid').2
    dsimp only at heq
    rw [hq, hq', Option.getD_some, Option.getD_some] at heq
    exact h.slot_inj tid tid' q hq (heq ▸ hq')
  · intro q hq
    obtain ⟨tid, htid⟩ := (h.buf_iff q).1 (Finset.mem_filter.1 hq).2
    refine ⟨tid, Finset.mem_filter.2 ⟨Finset.mem_range.2 (h.slot_lt tid q htid).1, ?_⟩, ?_⟩
    · rw [htid]
      exact nofun
    · dsimp only
      rw [htid, Option.getD_some]
  · intro tid htid
    obtain ⟨q, hq⟩ := Option.ne_none_iff_exists'.1 (Finset.mem_filter.1 htid).2
    rw [slotLen, hq, Option.getD_some, Option.elim_some]

theorem Linked.card_slots (h : s.Linked) : s.cacheCount =
    ((Finset.range s.capacity).filter (fun tid => s.slots tid ≠ none)).card := by
  rw [h.count_eq, Finset.card_filter]
  refine Finset.sum_congr rfl fun tid _ => ?_
  unfold slotCount
  cases s.slots tid <;> rfl

theorem Linked.consistent_iff (h : s.Linked) : s.Consistent ↔ s.Accounted := by
  have hsum := h.sum_slotLen
  constructor
  · intro hc
    exact hc.size_eq.trans hsum.symm
  · intro ha
    refine ⟨ha.trans hsum, h.card_slots, fun q => (h.buf_iff q).trans ?_⟩
    constructor
    · rintro ⟨tid, htid⟩
      exact ⟨tid, htid, fun tid' htid' => h.slot_inj tid' tid q htid' htid⟩
    · rintro ⟨tid, htid, -⟩
      exact ⟨tid, htid⟩

theorem alwaysConsistent_iff (h : s.Linked) (ha : s.Accounted) (ops : List Op) :
    AlwaysConsistent s ops ↔ RunMeets s ops := by
  induction ops generalizing s with
  | nil => exact iff_of_true (h.consistent_iff.2 ha) trivial
  | cons op ops ih =>
    rw [AlwaysConsistent, RunMeets, and_iff_right (h.consistent_iff.2 ha)]
    cases hstep : s.step op with
    | none =>
      refine iff_of_true (fun t ht => absurd ht nofun) ⟨stepMeets_of_none h hstep, ?_⟩
      exact fun t ht => absurd ht nofun
    | some t =>
      have hlinked := h.step hstep
      have hiff := step_accounted_iff h ha hstep
      constructor
      · intro hall
        have hnext := hall t rfl
        have hacc : t.Accounted := by
          refine hlinked.consistent_iff.1 ?_
          cases ops with
          | nil => exact hnext
          | cons op' ops' => exact hnext.1
        refine ⟨hiff.1 hacc, fun t' ht' => ?_⟩
        cases ht'
        exact (ih hlinked hacc).1 hnext
      · rintro ⟨hmeets, hrest⟩ t' ht'
        cases ht'
        exact (ih hlinked (hiff.2 hmeets)).2 (hrest t rfl)

end Run

theorem start_linked (maxCacheSize : BitVec 64) (maxCacheEntries : BitVec 32) :
    (start maxCacheSize maxCacheEntries).Linked where
  capacity_lt := maxCacheEntries.isLt
  entries_lt := maxCacheEntries.isLt
  len_le _ := Nat.zero_le _
  slot_lt _ _ h := absurd h nofun
  slot_inj _ _ _ h := absurd h nofun
  buf_iff _ := iff_of_false Bool.false_ne_true fun ⟨_, h⟩ => absurd h nofun
  count_eq := (Finset.sum_eq_zero fun _ _ => rfl).symm

/-- The accounting of the cache is right in every state of a run if and only if no step
changes the length of a cached entry, custom trims that make it longer apart. -/
theorem start_alwaysConsistent_iff (maxCacheSize : BitVec 64) (maxCacheEntries : BitVec 32)
    (ops : List Op) : AlwaysConsistent (start maxCacheSize maxCacheEntries) ops ↔
      RunMeets (start maxCacheSize maxCacheEntries) ops :=
  alwaysConsistent_iff (start_linked maxCacheSize maxCacheEntries)
    (Finset.sum_eq_zero fun _ _ => rfl).symm ops

/-- An entry of length 100 that is cached and then trimmed in place to 50 bytes. -/
def trimmedInPlace : List Op := [.addStored 100 false, .trim 0 50 true]

/-- The cache holds 50 bytes but its size still says 100. -/
theorem trimmedInPlace_size :
    ((start 0x3200000 65536).run trimmedInPlace).map (fun s =>
      (s.cacheSize, ∑ q ∈ (Finset.range s.items).filter (fun q => s.testcaseBuf q), s.len q)) =
      some (100, 50) := by
  decide +kernel

end AflPlusPlus.TestcaseCache.Cache
