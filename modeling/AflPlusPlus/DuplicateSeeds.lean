import AflPlusPlus.ActiveItems
import AflPlusPlus.Deduplication

/-!
# Seeds with duplicate traces

The dry run scores the seeds by speed and length when it calibrates them. Of the seeds with one
trace it then keeps a shortest, which need not be the one that has won the indices of the trace.
-/

namespace AflPlusPlus.DryRun
open ByteWords CoverageMap FavoredSet Fuzzer Deduplication

namespace Startup

/-! ## Which seeds are removed -/

def cksum (s : Startup) (q : ℕ) : BitVec 64 := (s.queueBuf q).execCksum

def fileLen (s : Startup) (q : ℕ) : ℕ := (s.queueBuf q).len

/-- `t` is `s` after the removal of all comparable entries that are not `alive`. -/
structure Thinned (s : Startup) (alive : ℕ → Bool) (t : Startup) : Prop where
  entry_eq : ∀ r, t.queueBuf r = { s.queueBuf r with
    wasFuzzed := (t.queueBuf r).wasFuzzed
    disabled := (s.queueBuf r).disabled || (comparable (s.queueBuf r) && !alive r) }
  alive_le : ∀ r, alive r = true → comparable (s.queueBuf r) = true

section Loops
variable {s t : Startup} {alive : ℕ → Bool} {p q r : ℕ}

theorem comparable_iff {entry : QueueEntry} : comparable entry = true ↔
    entry.disabled = false ∧ entry.calFailed = 0 ∧ entry.execCksum ≠ 0 := by
  simp [comparable, and_assoc]

theorem Thinned.comparable_eq (h : Thinned s alive t) (r : ℕ) :
    comparable (t.queueBuf r) = alive r := by
  rw [h.entry_eq r]
  cases halive : alive r with
  | true =>
    obtain ⟨hdisabled, hcal, hcksum⟩ := comparable_iff.mp (h.alive_le r halive)
    exact comparable_iff.mpr ⟨by simp [hdisabled], hcal, hcksum⟩
  | false =>
    refine Bool.eq_false_iff.mpr fun hcomparable => ?_
    obtain ⟨hdisabled, hcal, hcksum⟩ := comparable_iff.mp hcomparable
    dsimp only at hdisabled hcal hcksum
    obtain ⟨hs, hnot⟩ := Bool.or_eq_false_iff.mp hdisabled
    rw [comparable_iff.mpr ⟨hs, hcal, hcksum⟩] at hnot
    exact absurd hnot (by decide)

theorem takeOut_entry (t : Startup) (p : ℕ) : ((t.retire p).disable p).queueBuf p =
    { t.queueBuf p with wasFuzzed := true, disabled := true } := by
  have hretire : (t.retire p).queueBuf p = { t.queueBuf p with wasFuzzed := true } := by
    unfold retire
    split
    · rename_i hfuzzed
      rw [← hfuzzed]
    · exact Function.update_self ..
  refine (Function.update_self ..).trans ?_
  rw [hretire]

theorem Thinned.takeOut (h : Thinned s alive t) (hp : alive p = true) :
    Thinned s (Function.update alive p false) ((t.retire p).disable p) := by
  refine ⟨fun r => ?_, fun r hr => ?_⟩
  · by_cases hrp : r = p
    · rw [hrp, takeOut_entry, Function.update_self, h.alive_le p hp, h.entry_eq p]
      simp
    · rw [(takeOut_touched p t).other_eq r hrp, Function.update_of_ne hrp]
      exact h.entry_eq r
  · by_cases hrp : r = p
    · rw [hrp, Function.update_self] at hr
      exact absurd hr (by decide)
    · rw [Function.update_of_ne hrp] at hr
      exact h.alive_le r hr

theorem Thinned.cksum_eq (h : Thinned s alive t) (r : ℕ) : t.cksum r = s.cksum r := by
  rw [cksum, h.entry_eq r]
  rfl

theorem Thinned.fileLen_eq (h : Thinned s alive t) (r : ℕ) : t.fileLen r = s.fileLen r := by
  rw [fileLen, h.entry_eq r]
  rfl

/-- The inner loop of the source drops what the loop of the library drops. -/
theorem Thinned.duplicatesOf (hq : alive q = true) {ps : List ℕ} {duplicates : Bool}
    (hps : ∀ p ∈ ps, q < p) (h : Thinned s alive t) :
    Thinned s (dropAfter s.cksum s.fileLen q ps alive) (duplicatesOf q ps (duplicates, t)).2 := by
  induction ps generalizing alive duplicates t with
  | nil => exact h
  | cons p ps ih =>
    obtain ⟨hqp, hps⟩ := List.forall_mem_cons.mp hps
    have hguard : (comparable (t.queueBuf p) = true ∧
        (t.queueBuf p).execCksum = (t.queueBuf q).execCksum) ↔
        alive p = true ∧ s.cksum p = s.cksum q := by
      rw [h.comparable_eq, ← h.cksum_eq, ← h.cksum_eq]
      rfl
    have hlen : (t.queueBuf p).len ≥ (t.queueBuf q).len ↔ s.fileLen q ≤ s.fileLen p := by
      rw [← h.fileLen_eq, ← h.fileLen_eq]
      rfl
    unfold Startup.duplicatesOf
    rw [dropAfter]
    simp only [hguard, hlen]
    split
    · rename_i hsame
      split
      · refine ih ?_ hps (h.takeOut hsame.1)
        rw [Function.update_of_ne hqp.ne, hq]
      · exact h.takeOut hq
    · exact ih hq hps h

/-- The outer loop from entry `k` on, of `m` entries. It leaves out the last entry, after which
nothing follows. -/
theorem Thinned.loops (m k : ℕ) {alive : ℕ → Bool} {t : Bool × Startup}
    (h : Thinned s alive t.2) (hm : k + m = s.queuedItems) :
    Thinned s (dropAll s.cksum s.fileLen (List.range' k m) alive)
      ((List.range' k (m - 1)).foldl (fun t q =>
        if comparable (t.2.queueBuf q) then
          Startup.duplicatesOf q (List.range' (q + 1) (s.queuedItems - (q + 1))) t
        else t) t).2 := by
  induction m generalizing k alive t with
  | zero => exact h
  | succ m ih =>
    rw [List.range'_succ, dropAll]
    cases m with
    | zero =>
      have hnone : (if alive k = true then
          dropAfter s.cksum s.fileLen k (List.range' (k + 1) 0) alive else alive) = alive :=
        ite_self _
      rw [hnone]
      exact h
    | succ m =>
      have hrest : s.queuedItems - (k + 1) = m + 1 := by omega
      have hrange : List.range' k (m + 1) = k :: List.range' (k + 1) m := List.range'_succ
      rw [Nat.add_sub_cancel, hrange, List.foldl_cons, hrest, h.comparable_eq]
      refine ih (k + 1) ?_ (by omega)
      split
      · refine h.duplicatesOf ‹_› fun p hp => ?_
        exact (List.mem_range'_1.mp hp).1
      · exact h

end Loops

/-- A seed with the same trace is shorter, or as long and earlier. -/
def Superseded (s : Startup) (w : ℕ) : Prop :=
  comparable (s.queueBuf w) = true ∧ ∃ p < s.queuedItems, comparable (s.queueBuf p) = true ∧
    s.cksum p = s.cksum w ∧ Precedes s.fileLen p w

/-- The comparable entries that the loops leave. -/
def survivors (s : Startup) : ℕ → Bool :=
  dropAll s.cksum s.fileLen (List.range s.queuedItems) fun r => comparable (s.queueBuf r)

theorem removeDuplicates_thinned (s : Startup) : Thinned s s.survivors s.removeDuplicates := by
  have hstart : Thinned s (fun r => comparable (s.queueBuf r)) s := by
    refine ⟨fun r => ?_, fun _ => id⟩
    simp
  have hloops := hstart.loops (t := (false, s)) s.queuedItems 0 (Nat.zero_add _)
  rw [← List.range_eq_range', ← List.range_eq_range'] at hloops
  unfold removeDuplicates
  dsimp only
  split
  · exact ⟨hloops.entry_eq, hloops.alive_le⟩
  · exact hloops

/-- The removal disables the superseded seeds. -/
theorem removeDuplicates_disabled (s : Startup) {w : ℕ} (hw : w < s.queuedItems) :
    (s.removeDuplicates.queueBuf w).disabled = true ↔
      (s.queueBuf w).disabled = true ∨ s.Superseded w := by
  have hentry := congrArg QueueEntry.disabled (s.removeDuplicates_thinned.entry_eq w)
  have hdrop : s.survivors w = true ↔ _ :=
    dropAll_eq_true_iff List.pairwise_lt_range (List.mem_range.mpr hw)
  refine (iff_of_eq (congrArg (· = true) hentry)).trans ?_
  rw [Bool.or_eq_true, Bool.and_eq_true, Bool.not_eq_true', ← Bool.not_eq_true, hdrop]
  refine or_congr_right (and_congr_right fun hcomparable => ?_)
  rw [not_and]
  push Not
  simp only [hcomparable, true_imp_iff, List.mem_range]

end Startup

end AflPlusPlus.DryRun
