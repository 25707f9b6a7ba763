import AflPlusPlus.Cmplog

/-!
# Which logged operands the fuzzer considers

The header of an entry counts its calls modulo `64`. The fuzzer takes this count for the number of
operand pairs in the log, which is right as long as the count has not started again.
-/

namespace AflPlusPlus.Cmplog

open ByteWords RingTables

variable {maxLen : ℕ} {t : CmpType} {h : Header} {e : Logged} {slots : ℕ → Mem}
  {es : List Logged}

/-! ## What the hooks log -/

theorem longer_le {n len1 len2 : ℕ} (h1 : len1 ≤ n) (h2 : len2 ≤ n) : longer len1 len2 ≤ n := by
  unfold longer
  split_ifs
  · exact h2
  · exact h1
  · exact max_le h1 h2

/-- The shape that is logged fits its field of the header. -/
theorem Hook.logged_spec {hook : Hook} (h : hook.logged maxLen = some e) (hlen : maxLen ≤ 32) :
    e.type = hook.type ∧ e.shape < 32 := by
  have hins : ∀ {shape : ℕ} {a b : BitVec 64} {attr : BitVec 8}, shape < 32 →
      insOperands shape a b attr = e → e.type = .ins ∧ e.shape < 32 := by
    rintro shape a b attr hshape rfl
    exact ⟨rfl, hshape⟩
  have hins128 : ∀ {shape : ℕ} {a b : BitVec 128} {attr : BitVec 8}, shape < 32 →
      insOperands128 shape a b attr = e → e.type = .ins ∧ e.shape < 32 := by
    rintro shape a b attr hshape rfl
    exact ⟨rfl, hshape⟩
  have hrtn : ∀ {len len1 len2 n1 n2 : ℕ} {ptr1 ptr2 : Pointer}, len ≤ 32 →
      rtnOperands len len1 len2 n1 n2 ptr1 ptr2 = e → e.type = .rtn ∧ e.shape < 32 := by
    rintro len len1 len2 n1 n2 ptr1 ptr2 hle rfl
    exact ⟨rfl, show len - 1 < 32 by omega⟩
  cases hook with
  | ins1 => exact absurd h (by simp [Hook.logged, cmplogInsHook1])
  | ins2 =>
    rw [Hook.logged, cmplogInsHook2] at h
    split_ifs at h
    exact hins (by decide) (Option.some.inj h)
  | ins4 =>
    rw [Hook.logged, cmplogInsHook4] at h
    split_ifs at h
    exact hins (by decide) (Option.some.inj h)
  | ins8 =>
    rw [Hook.logged, cmplogInsHook8] at h
    split_ifs at h
    exact hins (by decide) (Option.some.inj h)
  | insN arg1 arg2 attr size =>
    rw [Hook.logged, cmplogInsHookN] at h
    split_ifs at h
    · exact hins128 (by omega) (Option.some.inj h)
    · exact hins (by omega) (Option.some.inj h)
  | ins16 =>
    rw [Hook.logged, cmplogInsHook16] at h
    split_ifs at h
    exact hins128 (by decide) (Option.some.inj h)
  | switch => exact hins (by decide) (Option.some.inj h)
  | rtnStrn =>
    rw [Hook.logged, cmplogRtnHookStrn] at h
    dsimp only at h
    split_ifs at h
    exact hrtn ((longer_le (accepted_le _ _) (accepted_le _ _)).trans hlen) (Option.some.inj h)
  | rtnStr =>
    rw [Hook.logged, cmplogRtnHookStr] at h
    dsimp only at h
    split_ifs at h
    exact hrtn ((longer_le (accepted_le _ _) (accepted_le _ _)).trans hlen) (Option.some.inj h)
  | rtn =>
    rw [Hook.logged, cmplogRtnHook] at h
    dsimp only at h
    split_ifs at h
    exact hrtn ((min_le_left _ _).trans hlen) (Option.some.inj h)

/-! ## The entry of a compare during a run -/

/-- A slot has every byte that the hook call has set. -/
def Logged.In (e : Logged) (slot : Mem) : Prop := ∀ i b, e.data i = some b → slot i = b

/-- The entry of a compare after hook calls of one kind have logged the given operands since the
header was cleared. -/
structure EntryInv (t : CmpType) (h : Header) (slots : ℕ → Mem) (es : List Logged) : Prop where
  type : h.type = t ∨ es = []
  hits : h.hits.toNat = es.length % 64
  shape : 1 ≤ h.shape.toNat ↔ ∃ e ∈ es, 1 ≤ e.shape
  holds : Holds Logged.In t.height 0 slots es

theorem EntryInv.cleared (t : CmpType) (slots : ℕ → Mem) : EntryInv t {} slots [] :=
  ⟨.inr rfl, rfl, by simp, holds_nil⟩

theorem CmpType.and_height_sub_one (t : CmpType) (n : ℕ) :
    n % 64 &&& (t.height - 1) = n % t.height := by
  cases t with
  | ins =>
    refine (Nat.and_two_pow_sub_one_eq_mod (n % 64) 5).trans ?_
    exact Nat.mod_mod_of_dvd n (by decide)
  | rtn =>
    refine (Nat.and_two_pow_sub_one_eq_mod (n % 64) 4).trans ?_
    exact Nat.mod_mod_of_dvd n (by decide)

/-- The slot of a call is the next one of the table. -/
theorem EntryInv.slot (hinv : EntryInv t h slots es) (he : e.type = t) :
    h.slot e = (0 + es.length) % t.height := by
  unfold Header.slot
  rw [Nat.zero_add, he]
  split_ifs with htype
  · obtain rfl := hinv.type.resolve_left htype
    rw [List.length_nil, Nat.zero_and, Nat.zero_mod]
  · rw [hinv.hits, CmpType.and_height_sub_one]

theorem Header.count_shape (h : Header) (he : e.shape < 32) :
    (h.count e).shape.toNat =
      if h.type ≠ e.type then e.shape else max h.shape.toNat e.shape := by
  have hshape : (BitVec.ofNat 5 e.shape).toNat = e.shape := by
    rw [BitVec.toNat_ofNat]
    exact Nat.mod_eq_of_lt he
  have hbound : e.shape ≤ e.shapeBound ∧ e.shapeBound ≤ e.shape + 1 := by
    unfold Logged.shapeBound
    split <;> omega
  unfold Header.count
  dsimp only
  split_ifs <;> omega

/-- A hook call keeps the entry as it should be. -/
theorem EntryInv.record (hinv : EntryInv t h slots es) (he : e.type = t) (hshape : e.shape < 32) :
    EntryInv t (h.count e)
      (Function.update slots (h.slot e) fun i => (e.data i).getD (slots (h.slot e) i))
      (es ++ [e]) where
  type := .inl he
  hits := by
    rw [Header.count, he, List.length_append, List.length_singleton]
    dsimp only
    split_ifs with htype
    · obtain rfl := hinv.type.resolve_left htype
      rfl
    · have := hinv.hits
      rw [BitVec.toNat_add, show (1 : BitVec 6).toNat = 1 from rfl]
      omega
  shape := by
    rw [Header.count_shape h hshape, he]
    have hold := hinv.shape
    split_ifs with htype
    · obtain rfl := hinv.type.resolve_left htype
      simp
    · simp only [List.mem_append, List.mem_singleton, or_and_right, exists_or, exists_eq_left,
        ← hold]
      omega
  holds := by
    rw [hinv.slot he]
    refine hinv.holds.push fun i b hb => ?_
    rw [hb, Option.getD_some]

section Run
variable {hash : BitVec 64 → BitVec 64} {k : BitVec 16}

/-- After the hook calls of a run, the entry holds what the calls at it have logged. -/
theorem run_entryInv (hlen : maxLen ≤ 32) (calls : List Call) {map : CmpMap}
    (hinv : EntryInv t (map.headers k) (map.log k) es)
    (hkind : ∀ c ∈ callsAt hash calls k, c.hook.type = t) :
    EntryInv t ((map.run hash maxLen calls).headers k) ((map.run hash maxLen calls).log k)
      (es ++ loggedAt hash maxLen calls k) := by
  induction calls generalizing map es with
  | nil => simpa [CmpMap.run, loggedAt, callsAt] using hinv
  | cons c calls ih =>
    rw [CmpMap.run, List.foldl_cons]
    by_cases hkey : c.key hash = k
    · rw [callsAt, List.filter_cons_of_pos (by simpa using hkey)] at hkind
      rw [loggedAt, callsAt, List.filter_cons_of_pos (by simpa using hkey), CmpMap.call]
      have hkind' : ∀ d ∈ callsAt hash calls k, d.hook.type = t := fun d hd =>
        hkind d (List.mem_cons_of_mem c hd)
      cases he : c.logged maxLen with
      | none =>
        rw [List.filterMap_cons_none he]
        exact ih hinv hkind'
      | some e =>
        obtain ⟨htype, hshape⟩ := Hook.logged_spec he hlen
        rw [List.filterMap_cons_some he, List.append_cons]
        refine ih ?_ hkind'
        simp only [CmpMap.record, hkey, Function.update_self]
        exact hinv.record (htype.trans (hkind c List.mem_cons_self)) hshape
    · rw [callsAt, List.filter_cons_of_neg (by simpa using hkey)] at hkind
      rw [loggedAt, callsAt, List.filter_cons_of_neg (by simpa using hkey), CmpMap.call]
      refine ih ?_ hkind
      split
      · exact hinv
      · simpa only [CmpMap.record, Function.update_of_ne (Ne.symm hkey)] using hinv

theorem cleared_entryInv (log : BitVec 16 → ℕ → Mem) (hlen : maxLen ≤ 32) (calls : List Call)
    (hkind : ∀ c ∈ callsAt hash calls k, c.hook.type = t) :
    EntryInv t (((CmpMap.cleared log).run hash maxLen calls).headers k)
      (((CmpMap.cleared log).run hash maxLen calls).log k) (loggedAt hash maxLen calls k) := by
  have hcleared : EntryInv t ((CmpMap.cleared log).headers k) ((CmpMap.cleared log).log k) [] :=
    EntryInv.cleared t (log k)
  exact run_entryInv hlen calls hcleared hkind

/-! ## What the stage considers -/

/-- The stage goes through the entry: earlier passes have not failed too often, and the level asks
for its kind of compare. -/
def Stage.Reads (stage : Stage) (t : CmpType) (k : BitVec 16) : Prop :=
  (stage.faileds k).toNat < cmplogFailMax ∧ (stage.total k).toNat < cmplogFailMax ∧
    (t = .rtn → stage.lvl1 = true ∨ stage.lvl3 = true ∧ stage.enableTransform = true)

instance (stage : Stage) (t : CmpType) (k : BitVec 16) : Decidable (stage.Reads t k) :=
  inferInstanceAs (Decidable (_ ∧ _ ∧ (_ → _)))

/-- The stage considers as many operand pairs as the calls that have logged, modulo `64`, and at
most the height of the table. -/
theorem EntryInv.considered {map : CmpMap} (hinv : EntryInv t (map.headers k) (map.log k) es)
    (stage : Stage) :
    stage.considered map k =
      if stage.Reads t k ∧ ∃ e ∈ es, 1 ≤ e.shape then min (es.length % 64) t.height else 0 := by
  have hhits := hinv.hits
  have hloggeds : (map.headers k).loggeds t =
      if ∃ e ∈ es, 1 ≤ e.shape then min (es.length % 64) t.height else 0 := by
    unfold Header.loggeds
    simp only [← hinv.shape, hhits]
    split_ifs <;> omega
  have hzero : (map.headers k).hits = 0 ↔ es.length % 64 = 0 := by
    rw [← hhits, ← BitVec.toNat_inj]
    rfl
  unfold Stage.considered
  dsimp only
  by_cases h0 : es.length % 64 = 0
  · rw [if_pos (hzero.mpr h0), h0, Nat.zero_min, ite_self]
  · have htype : (map.headers k).type = t :=
      hinv.type.resolve_right fun hes => h0 (by rw [hes]; rfl)
    rw [if_neg (mt hzero.mp h0), htype]
    by_cases hfail :
        cmplogFailMax ≤ (stage.faileds k).toNat ∨ cmplogFailMax ≤ (stage.total k).toNat
    · rw [if_pos hfail, if_neg]
      rintro ⟨⟨hf, ht, -⟩, -⟩
      omega
    · obtain ⟨hf, ht⟩ := not_or.mp hfail
      rw [if_neg hfail]
      cases t with
      | ins =>
        have hreads : stage.Reads .ins k := ⟨by omega, by omega, nofun⟩
        simp only [hreads, true_and, hloggeds]
      | rtn =>
        have hreads : stage.Reads .rtn k ↔
            stage.lvl1 = true ∨ stage.lvl3 = true ∧ stage.enableTransform = true :=
          ⟨fun h => h.2.2 rfl, fun h => ⟨by omega, by omega, fun _ => h⟩⟩
        simp only [hreads, hloggeds, ite_and]

/-- The log of an entry is right after a run: the stage considers as many operand pairs as there
were calls, up to the height of the table, and each of them has been logged in this run. -/
def Agrees (stage : Stage) (t : CmpType) (map : CmpMap) (k : BitVec 16) (calls : ℕ)
    (logged : List Logged) : Prop :=
  stage.considered map k = min calls t.height ∧
    ∀ i < stage.considered map k, ∃ e ∈ logged, e.In (map.log k i)

/-- Let a run call hooks `n` times at an entry, for compares of one kind. What the stage considers
agrees with that if and only if it goes through the entry, some logged operands have more than one
byte, and either all of fewer calls than the height of the table log, or the number of calls that
log is modulo `64` at least the height. -/
theorem run_agrees_iff (env : Option ℤ) (log : BitVec 16 → ℕ → Mem) (calls : List Call)
    (stage : Stage) (hkind : ∀ c ∈ callsAt hash calls k, c.hook.type = t)
    (hcalls : 1 ≤ (callsAt hash calls k).length) :
    Agrees stage t ((CmpMap.cleared log).run hash (cmplogMaxLen env) calls) k
        (callsAt hash calls k).length (loggedAt hash (cmplogMaxLen env) calls k) ↔
      stage.Reads t k ∧ (∃ e ∈ loggedAt hash (cmplogMaxLen env) calls k, 1 ≤ e.shape) ∧
        ((callsAt hash calls k).length < t.height ∧
            (∀ c ∈ callsAt hash calls k, c.logged (cmplogMaxLen env) ≠ none) ∨
          t.height ≤ (callsAt hash calls k).length ∧
            t.height ≤ (loggedAt hash (cmplogMaxLen env) calls k).length % 64) := by
  have hinv := cleared_entryInv log (cmplogMaxLen_le env) calls hkind
  have hle : (loggedAt hash (cmplogMaxLen env) calls k).length ≤ (callsAt hash calls k).length :=
    List.length_filterMap_le _ _
  have hall : (loggedAt hash (cmplogMaxLen env) calls k).length = (callsAt hash calls k).length ↔
      ∀ c ∈ callsAt hash calls k, c.logged (cmplogMaxLen env) ≠ none := by
    rw [loggedAt, List.filterMap_length_eq_length]
    simp only [Option.isSome_iff_ne_none]
  have hheight : 1 ≤ t.height ∧ t.height < 64 := by cases t <;> decide
  rw [Agrees, hinv.considered stage, ← hall]
  by_cases hseen : stage.Reads t k ∧ ∃ e ∈ loggedAt hash (cmplogMaxLen env) calls k, 1 ≤ e.shape
  · rw [if_pos hseen]
    have hfresh : ∀ i < min ((loggedAt hash (cmplogMaxLen env) calls k).length % 64) t.height,
        ∃ e ∈ loggedAt hash (cmplogMaxLen env) calls k,
          e.In (((CmpMap.cleared log).run hash (cmplogMaxLen env) calls).log k i) := by
      intro i hi
      have hmod := Nat.mod_le (loggedAt hash (cmplogMaxLen env) calls k).length 64
      exact hinv.holds.exists_mem (by omega) (by omega)
    rw [and_iff_left hfresh, and_iff_right hseen.1, and_iff_right hseen.2]
    omega
  · rw [if_neg hseen]
    constructor
    · rintro ⟨h0, -⟩
      omega
    · rintro ⟨hreads, hwide, -⟩
      exact (hseen ⟨hreads, hwide⟩).elim

end Run

/-! ## A compare in a loop -/

/-- A stage that reads every entry. -/
def firstStage : Stage := ⟨fun _ => 0, fun _ => 0, true, false, false⟩

/-- A compare of two words of four bytes. -/
def loopCompare : Call := ⟨0x401000, .ins4 1 2 0⟩

/-- The log before a run. -/
def emptyLog : BitVec 16 → ℕ → Mem := fun _ _ _ => 0

/-- A compare that is called 64 times in a run is counted as never called, and not considered. -/
theorem loop_not_considered :
    firstStage.considered
        ((CmpMap.cleared emptyLog).run id (cmplogMaxLen none) (List.replicate 64 loopCompare))
        (loopCompare.key id) = 0 ∧
      ¬Agrees firstStage .ins
        ((CmpMap.cleared emptyLog).run id (cmplogMaxLen none) (List.replicate 64 loopCompare))
        (loopCompare.key id)
        (callsAt id (List.replicate 64 loopCompare) (loopCompare.key id)).length
        (loggedAt id (cmplogMaxLen none) (List.replicate 64 loopCompare)
          (loopCompare.key id)) := by
  have hcalls : callsAt id (List.replicate 64 loopCompare) (loopCompare.key id) =
      List.replicate 64 loopCompare := by
    rw [callsAt, List.filter_replicate, if_pos (by simp)]
  have hlogged : (loggedAt id (cmplogMaxLen none) (List.replicate 64 loopCompare)
      (loopCompare.key id)).length = 64 := by
    rw [loggedAt, hcalls]
    refine (List.filterMap_length_eq_length.mpr fun c hc => ?_).trans List.length_replicate
    exact List.eq_of_mem_replicate hc ▸ rfl
  have hkind : ∀ c ∈ callsAt id (List.replicate 64 loopCompare) (loopCompare.key id),
      c.hook.type = .ins := by
    rw [hcalls]
    exact fun c hc => List.eq_of_mem_replicate hc ▸ rfl
  have hinv := cleared_entryInv emptyLog (cmplogMaxLen_le none) (List.replicate 64 loopCompare)
    hkind
  have hnone := hinv.considered firstStage
  rw [hlogged, Nat.mod_self, Nat.zero_min, ite_self] at hnone
  refine ⟨hnone, fun h => ?_⟩
  have hcount := h.1
  rw [hnone, hcalls, List.length_replicate] at hcount
  exact absurd hcount (by decide)

theorem run_agrees_twice :
    Agrees firstStage .ins
      ((CmpMap.cleared emptyLog).run id (cmplogMaxLen none) [loopCompare, loopCompare])
      (loopCompare.key id) 2 (loggedAt id (cmplogMaxLen none) [loopCompare, loopCompare]
        (loopCompare.key id)) := by
  have hkind : ∀ c ∈ callsAt id [loopCompare, loopCompare] (loopCompare.key id),
      c.hook.type = .ins := by decide
  refine (run_agrees_iff none emptyLog [loopCompare, loopCompare] firstStage hkind
    (by decide)).mpr ⟨by decide, ?_, ?_⟩
  · exact ⟨insOperands 3 1 2 0, List.mem_cons_self, by decide⟩
  · exact .inl ⟨by decide, by decide⟩

end AflPlusPlus.Cmplog
