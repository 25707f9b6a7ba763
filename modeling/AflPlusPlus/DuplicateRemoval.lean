import AflPlusPlus.DuplicateSeeds

/-!
# What the removal of duplicates leaves

Of the comparable entries with one checksum exactly one stays enabled, a shortest. The counters
drop by the entries that the removal has disabled and that had not been taken out before.
-/

namespace AflPlusPlus.DryRun
open ByteWords CoverageMap FavoredSet Fuzzer Deduplication

namespace Startup

/-- The entries that `t` has disabled and that were not yet marked fuzzed in `s`. -/
def released (s t : Startup) : Finset ℕ :=
  (Finset.range s.queuedItems).filter fun q => (s.queueBuf q).disabled = false ∧
    (t.queueBuf q).disabled = true ∧ (s.queueBuf q).wasFuzzed = false

/-- The queue `s` after the removal of its duplicates. -/
structure Deduplicated (s t : Startup) : Prop where
  distinct : ∀ p < s.queuedItems, ∀ q < s.queuedItems, comparable (t.queueBuf p) = true →
    comparable (t.queueBuf q) = true → t.cksum p = t.cksum q → p = q
  one_left : ∀ r < s.queuedItems, comparable (s.queueBuf r) = true →
    ∃! p, p < s.queuedItems ∧ comparable (s.queueBuf p) = true ∧ s.cksum p = s.cksum r ∧
      (t.queueBuf p).disabled = false
  shortest : ∀ p < s.queuedItems, comparable (s.queueBuf p) = true →
    (t.queueBuf p).disabled = false → ∀ r < s.queuedItems, comparable (s.queueBuf r) = true →
      s.cksum r = s.cksum p → (s.queueBuf p).len ≤ (s.queueBuf r).len
  others_kept : ∀ q, ¬(q < s.queuedItems ∧ comparable (s.queueBuf q) = true) →
    (t.queueBuf q).disabled = (s.queueBuf q).disabled
  len_eq : ∀ q, (t.queueBuf q).len = (s.queueBuf q).len
  pending_eq : t.pendingNotFuzzed = s.pendingNotFuzzed - BitVec.ofNat 32 (s.released t).card
  active_eq : t.activeItems = s.activeItems - BitVec.ofNat 32 (s.released t).card

/-! ## The counters -/

/-- The counters after some entries have been taken out: an entry is marked fuzzed with the
step that disables it. -/
structure Released (s t : Startup) : Prop where
  disabled_of : ∀ q, (s.queueBuf q).disabled = true → (t.queueBuf q).disabled = true
  fuzzed_eq : ∀ q, (t.queueBuf q).disabled = false →
    (t.queueBuf q).wasFuzzed = (s.queueBuf q).wasFuzzed
  pending_eq : t.pendingNotFuzzed = s.pendingNotFuzzed - BitVec.ofNat 32 (s.released t).card
  active_eq : t.activeItems = s.activeItems - BitVec.ofNat 32 (s.released t).card

section Counters
variable {s t : Startup} {q : ℕ}

theorem Released.refl (s : Startup) : Released s s := by
  have hnone : s.released s = ∅ := by
    refine Finset.filter_eq_empty_iff.mpr fun q _ hq => ?_
    rw [hq.1] at hq
    exact Bool.false_ne_true hq.2.1
  refine ⟨fun _ => id, fun _ _ => rfl, ?_, ?_⟩
  · simp [hnone]
  · simp [hnone]

theorem retire_counters (t : Startup) (q : ℕ) :
    ((t.retire q).disable q).pendingNotFuzzed =
        (if (t.queueBuf q).wasFuzzed then t.pendingNotFuzzed else t.pendingNotFuzzed - 1) ∧
      ((t.retire q).disable q).activeItems =
        (if (t.queueBuf q).wasFuzzed then t.activeItems else t.activeItems - 1) := by
  unfold retire
  split <;> exact ⟨rfl, rfl⟩

theorem released_takeOut (hq : q < s.queuedItems) (hs : (s.queueBuf q).disabled = false) :
    s.released ((t.retire q).disable q) =
      if (s.queueBuf q).wasFuzzed then s.released t else insert q (s.released t) := by
  have hentry : (((t.retire q).disable q).queueBuf q).disabled = true := by
    rw [takeOut_entry]
  ext r
  by_cases hrq : r = q
  · subst hrq
    cases hfuzzed : (s.queueBuf r).wasFuzzed <;> simp [released, hentry, hq, hs, hfuzzed]
  · have hother := congrArg QueueEntry.disabled ((takeOut_touched q t).other_eq r hrq)
    split <;> simp [released, hother, hrq]

theorem Released.takeOut (h : Released s t) (hq : q < s.queuedItems)
    (henabled : (t.queueBuf q).disabled = false) : Released s ((t.retire q).disable q) := by
  have hs : (s.queueBuf q).disabled = false := by
    cases hd : (s.queueBuf q).disabled with
    | false => rfl
    | true => exact absurd ((h.disabled_of q hd).symm.trans henabled) (by decide)
  have hnot : q ∉ s.released t := by
    intro hmem
    exact absurd ((Finset.mem_filter.mp hmem).2.2.1.symm.trans henabled) (by decide)
  obtain ⟨hpending, hactive⟩ := retire_counters t q
  have hentry := takeOut_entry t q
  refine ⟨fun r hr => ?_, fun r hr => ?_, ?_, ?_⟩
  · by_cases hrq : r = q
    · rw [hrq, hentry]
    · rw [(takeOut_touched q t).other_eq r hrq]
      exact h.disabled_of r hr
  · by_cases hrq : r = q
    · rw [hrq, hentry] at hr
      exact absurd hr (by simp)
    · rw [(takeOut_touched q t).other_eq r hrq] at hr ⊢
      exact h.fuzzed_eq r hr
  · rw [hpending, released_takeOut hq hs, h.fuzzed_eq q henabled, h.pending_eq]
    split
    · rfl
    · rw [Finset.card_insert_of_notMem hnot, BitVec.ofNat_add, sub_sub]
      rfl
  · rw [hactive, released_takeOut hq hs, h.fuzzed_eq q henabled, h.active_eq]
    split
    · rfl
    · rw [Finset.card_insert_of_notMem hnot, BitVec.ofNat_add, sub_sub]
      rfl

theorem removeDuplicates_released (s : Startup) : Released s s.removeDuplicates := by
  refine removeDuplicates_induct (P := Released s) (fun t q hq hcomparable h => ?_)
    (fun t _ _ h => { h with }) (Released.refl s)
  exact h.takeOut hq (comparable_iff.mp hcomparable).1

end Counters

/-! ## The groups -/

section Groups
variable {s t : Startup} {alive : ℕ → Bool} {q : ℕ}

/-- A comparable entry is disabled exactly when it is not left. -/
theorem Thinned.disabled_eq (h : Thinned s alive t) (hq : comparable (s.queueBuf q) = true) :
    (t.queueBuf q).disabled = !alive q := by
  rw [h.entry_eq q, (comparable_iff.mp hq).1, hq]
  rfl

theorem Thinned.disabled_of_not_comparable (h : Thinned s alive t)
    (hq : comparable (s.queueBuf q) = false) :
    (t.queueBuf q).disabled = (s.queueBuf q).disabled := by
  rw [h.entry_eq q, hq]
  exact Bool.or_false _

/-- The loops drop no entry beyond the end of the queue. -/
theorem survivors_of_not_lt (hq : ¬q < s.queuedItems) :
    s.survivors q = comparable (s.queueBuf q) := by
  obtain ⟨hdropped, -⟩ : Dropped s.cksum s.fileLen (List.range s.queuedItems)
      (fun r => comparable (s.queueBuf r)) s.survivors ∧ _ :=
    dropAll_spec List.pairwise_lt_range
  cases hlives : s.survivors q with
  | true => exact (hdropped.of_alive q hlives).symm
  | false =>
    refine (Bool.eq_false_iff.mpr fun hcomparable => ?_).symm
    exact hq (List.mem_range.mp (hdropped.beaten q hcomparable hlives).1)

end Groups

/-- The removal leaves of each group of comparable entries with one checksum a shortest one,
touches no other entry, and takes those it disables out of the counters. -/
theorem removeDuplicates_deduplicated (s : Startup) : Deduplicated s s.removeDuplicates := by
  have hthin := s.removeDuplicates_thinned
  have hreleased := s.removeDuplicates_released
  obtain ⟨hdropped, hunique⟩ : Dropped s.cksum s.fileLen (List.range s.queuedItems)
      (fun r => comparable (s.queueBuf r)) s.survivors ∧ _ :=
    dropAll_spec List.pairwise_lt_range
  have hlives : ∀ p, comparable (s.queueBuf p) = true →
      ((s.removeDuplicates.queueBuf p).disabled = false ↔ s.survivors p = true) := by
    intro p hp
    rw [hthin.disabled_eq hp, Bool.not_eq_false']
  refine ⟨?_, ?_, ?_, ?_, hthin.fileLen_eq, hreleased.pending_eq, hreleased.active_eq⟩
  · intro p hp q hq hplives hqlives hcksum
    rw [hthin.comparable_eq] at hplives hqlives
    rw [hthin.cksum_eq, hthin.cksum_eq] at hcksum
    exact hunique p (List.mem_range.mpr hp) q (List.mem_range.mpr hq) hplives hqlives hcksum
  · intro r hr hcomparable
    obtain ⟨p, ⟨hp, hkey, hplives⟩, honly⟩ : ∃! p, p ∈ List.range s.queuedItems ∧
        s.cksum p = s.cksum r ∧ s.survivors p = true :=
      dropAll_existsUnique List.pairwise_lt_range (List.mem_range.mpr hr) hcomparable
    have hpcomparable := hdropped.of_alive p hplives
    refine ⟨p, ⟨List.mem_range.mp hp, hpcomparable, hkey, (hlives p hpcomparable).mpr hplives⟩, ?_⟩
    rintro q ⟨hq, hqcomparable, hqkey, henabled⟩
    exact honly q ⟨List.mem_range.mpr hq, hqkey, (hlives q hqcomparable).mp henabled⟩
  · intro p hp hcomparable henabled r hr hrcomparable hkey
    exact dropAll_lightest List.pairwise_lt_range (List.mem_range.mpr hp)
      ((hlives p hcomparable).mp henabled) r (List.mem_range.mpr hr) hrcomparable hkey
  · intro q hq
    cases hcomparable : comparable (s.queueBuf q) with
    | false => exact hthin.disabled_of_not_comparable hcomparable
    | true =>
      have hlt : ¬q < s.queuedItems := fun hlt => hq ⟨hlt, hcomparable⟩
      rw [hthin.disabled_eq hcomparable, survivors_of_not_lt hlt, hcomparable,
        (comparable_iff.mp hcomparable).1]
      rfl

end Startup

end AflPlusPlus.DryRun
