import AflPlusPlus.DuplicateSeedsCull
import AflPlusPlus.TransitionSystems

/-!
# The index of the dry-run loop

The loop of `perform_dry_run` with its index, which is a `u32`. In queue order the index is
advanced at the end of a pass, in place resume steps back at the beginning; whether the loop is
done is decided at the end in both, and a pass that skips its entry does not get there.
-/

namespace AflPlusPlus.DryRun
open ByteWords CoverageMap FavoredSet Fuzzer TransitionSystems

/-- The loop between two passes. The list `calls` is not in the source: it records the calls of
`calibrate_case`. -/
inductive LoopState
  | running (idx : ℕ) (calls : List ℕ) (s : Startup)
  | finished (calls : List ℕ) (s : Startup)
  /-- `stop_soon` is set, or the process has ended. -/
  | left (calls : List ℕ) (result : Except Stop Startup)
  /-- The pass has read `queue_buf` beyond its entries. -/
  | outside (calls : List ℕ)

namespace Startup

/-- The entry is disabled or empty. -/
def skips (s : Startup) (q : ℕ) : Bool := (s.queueBuf q).disabled || (s.queueBuf q).len == 0

/-- The end of a pass in which entry `idx` has been calibrated. -/
def advance (o : Options) (idx : ℕ) (calls : List ℕ) (s : Startup) : LoopState :=
  if o.inPlaceResume then
    if idx = 0 then .finished calls s else .running idx calls s
  else if incU32 idx ≥ s.queuedItems then .finished calls s
  else .running (incU32 idx) calls s

def loopPass (o : Options) (e : Environment) : LoopState → Unit → Option LoopState
  | .running idx calls s, _ =>
    let idx := if o.inPlaceResume then decU32 idx else idx
    if idx < s.queuedItems then
      if s.skips idx then some (.running idx calls s)
      else
        match s.drySeed o e idx with
        | .error stop => some (.left (calls ++ [idx]) (.error stop))
        | .ok s =>
          if s.stopSoon then some (.left (calls ++ [idx]) (.ok s))
          else some (s.advance o idx (calls ++ [idx]))
    else some (.outside calls)
  | _, _ => none

def loopStart (o : Options) (s : Startup) : LoopState :=
  .running (if o.inPlaceResume then s.queuedItems else 0) [] s

/-- The loop has ended inside the queue, with one call for each entry that it is not to skip. When
it was left early no entry has had two. -/
def Calibrates (s : Startup) : LoopState → Prop
  | .running _ _ _ => False
  | .finished calls _ =>
    ∀ q, calls.count q = if q < s.queuedItems ∧ s.skips q = false then 1 else 0
  | .left calls _ =>
    ∀ q, calls.count q ≤ if q < s.queuedItems ∧ s.skips q = false then 1 else 0
  | .outside _ => False

/-! ## One pass -/

section Pass
variable {o : Options} {e : Environment} {q : ℕ} {s t : Startup}

theorem calibrateSeed_len (o : Options) (e : Environment) (q : ℕ) (s : Startup) (r : ℕ) :
    ((s.calibrateSeed o e q).2.queueBuf r).len = (s.queueBuf r).len := by
  obtain ⟨-, f, hf, heq⟩ := s.calibrateSeed_cases o e q
  have hcal : ((s.calibrateCase o.config e q 0 true).2.queueBuf r).len = (s.queueBuf r).len :=
    congrArg (fun f => (Fuzzer.Frame.entries f r).len)
      (@AflState.calibrateCase_frame o.config e q 0 true s.toAflState)
  rw [heq, ← hcal]
  by_cases hr : r = q
  · rw [hr]
    refine (congrArg QueueEntry.len (Function.update_self ..)).trans ?_
    rw [hf]
  · exact congrArg QueueEntry.len (Function.update_of_ne hr ..)

/-- A seed changes no other entry's part in the loop. -/
theorem drySeed_skips (h : s.drySeed o e q = .ok t) {r : ℕ} (hr : r ≠ q) :
    t.skips r = s.skips r := by
  have hdisabled := calibrateSeed_disabled o e q s r
  have hlen := calibrateSeed_len o e q s r
  unfold skips
  rw [← hdisabled, ← hlen]
  rcases drySeed_cases h with ⟨-, rfl⟩ | ⟨-, hjudge⟩
  · rfl
  · rw [(judge_touched hjudge).other_eq r hr]

theorem loopPass_skip {idx : ℕ} {calls : List ℕ} (hq : q = if o.inPlaceResume then decU32 idx
    else idx) (hlt : q < s.queuedItems) (hskip : s.skips q = true) :
    loopPass o e (.running idx calls s) () = some (.running q calls s) := by
  unfold loopPass
  dsimp only
  rw [← hq, if_pos hlt, hskip, if_pos rfl]

end Pass

/-! ## The calls -/

/-- The entries in `visited` have had their pass. -/
structure Underway (s : Startup) (visited : Finset ℕ) (calls : List ℕ) (t : Startup) : Prop where
  items_eq : t.queuedItems = s.queuedItems
  skips_eq : ∀ q ∉ visited, t.skips q = s.skips q
  count_eq : ∀ q, calls.count q = if q ∈ visited ∧ s.skips q = false then 1 else 0

section Calls
variable {o : Options} {e : Environment} {s t u : Startup} {visited : Finset ℕ} {calls : List ℕ}
  {q : ℕ}

theorem Underway.skip (h : Underway s visited calls t) (hq : q ∉ visited)
    (hskip : t.skips q = true) : Underway s (insert q visited) calls t where
  items_eq := h.items_eq
  skips_eq r hr := h.skips_eq r fun hmem => hr (Finset.mem_insert_of_mem hmem)
  count_eq r := by
    rw [h.count_eq r]
    by_cases hrq : r = q
    · have hs : s.skips r = true := hrq ▸ (h.skips_eq q hq).symm.trans hskip
      simp [hs]
    · simp [hrq]

theorem Underway.count_concat (h : Underway s visited calls t) (hq : q ∉ visited)
    (hskip : t.skips q = false) (r : ℕ) :
    (calls ++ [q]).count r = if r ∈ insert q visited ∧ s.skips r = false then 1 else 0 := by
  rw [List.count_append, h.count_eq r]
  by_cases hrq : r = q
  · have hs : s.skips r = false := hrq ▸ (h.skips_eq q hq).symm.trans hskip
    simp [hrq, hq, hrq ▸ hs]
  · simp [hrq, Ne.symm hrq]

theorem Underway.calibrate (h : Underway s visited calls t) (hq : q ∉ visited)
    (hskip : t.skips q = false) (hdry : t.drySeed o e q = .ok u) :
    Underway s (insert q visited) (calls ++ [q]) u where
  items_eq := (drySeed_queuedItems hdry).trans h.items_eq
  skips_eq r hr := by
    obtain ⟨hrq, hvisited⟩ := not_or.mp (Finset.mem_insert.not.mp hr)
    rw [drySeed_skips hdry hrq]
    exact h.skips_eq r hvisited
  count_eq := h.count_concat hq hskip

theorem Underway.left (h : Underway s visited calls t) (hq : q ∉ visited)
    (hskip : t.skips q = false) (hlt : ∀ r ∈ insert q visited, r < s.queuedItems)
    (result : Except Stop Startup) : Calibrates s (.left (calls ++ [q]) result) := by
  intro r
  rw [h.count_concat hq hskip r]
  by_cases hr : r ∈ insert q visited
  · simp only [and_iff_right hr, and_iff_right (hlt r hr), le_refl]
  · rw [if_neg fun hc => hr hc.1]
    exact Nat.zero_le _

theorem Underway.finished (h : Underway s visited calls t)
    (hall : ∀ r, r ∈ visited ↔ r < s.queuedItems) : Calibrates s (.finished calls t) := by
  intro r
  simp only [h.count_eq r, hall]

end Calls

/-! ## Queues that the loop gets through -/

/-- The entries before which the loop has its index at `idx`. -/
def visited (o : Options) (n idx : ℕ) : Finset ℕ :=
  if o.inPlaceResume then Finset.Ico idx n else Finset.range idx

/-- The loop has its index in the queue and has been through the entries before it. -/
def Passed (o : Options) (s : Startup) : LoopState → Prop
  | .running idx calls t => Underway s (visited o s.queuedItems idx) calls t ∧
    if o.inPlaceResume then 0 < idx ∧ idx ≤ s.queuedItems else idx < s.queuedItems
  | state => Calibrates s state

section Through
variable {o : Options} {e : Environment} {s t : Startup} {state state' : LoopState} {idx : ℕ}
  {calls : List ℕ}

end Through

/-! ## The loop over the list of the seeds -/

/-- The entries that the loop has ahead of it with its index at `idx`. -/
def ahead (o : Options) (n idx : ℕ) : List ℕ :=
  if o.inPlaceResume then (List.range idx).reverse else List.range' idx (n - idx)

section Ahead
variable {o : Options} {e : Environment} {s t : Startup} {n idx q : ℕ} {qs calls : List ℕ}

/-- The first entry ahead is the one that the next pass looks at; when it is the last one too,
the loop is done. -/
theorem ahead_cons (hn : n < 2 ^ 32) (hidx : idx ≤ n) (h : ahead o n idx = q :: qs) :
    (q = if o.inPlaceResume then decU32 idx else idx) ∧ q < n ∧
      ∃ next ≤ n, ahead o n next = qs ∧ (o.inPlaceResume = true → next = q) ∧
        ∀ u : Startup, u.queuedItems = n → ∀ calls, u.advance o q calls =
          if qs = [] then .finished calls u else .running next calls u := by
  unfold ahead at h
  cases hmode : o.inPlaceResume with
  | true =>
    rw [hmode, if_pos rfl] at h
    cases idx with
    | zero => exact absurd h (by simp)
    | succ idx =>
      rw [List.range_succ, List.reverse_append] at h
      obtain ⟨rfl, rfl⟩ := List.cons.inj h
      refine ⟨?_, hidx, idx, (Nat.le_succ idx).trans hidx, ?_, fun _ => rfl,
        fun u _ calls => ?_⟩
      · rw [if_pos rfl, decU32_eq idx.succ_pos (by omega)]
        rfl
      · unfold ahead
        rw [if_pos hmode]
        rfl
      · unfold advance
        rw [if_pos hmode]
        simp
  | false =>
    rw [hmode, if_neg Bool.false_ne_true] at h
    have hlt : idx < n := by
      by_contra hge
      rw [Nat.sub_eq_zero_of_le (not_lt.mp hge)] at h
      exact absurd h (by simp)
    rw [show n - idx = n - (idx + 1) + 1 by omega, List.range'_succ] at h
    obtain ⟨rfl, rfl⟩ := List.cons.inj h
    refine ⟨rfl, hlt, idx + 1, hlt, ?_, by simp, fun u hu calls => ?_⟩
    · unfold ahead
      rw [hmode, if_neg Bool.false_ne_true]
    · unfold advance
      rw [hmode, if_neg Bool.false_ne_true, incU32_eq (by omega), hu]
      by_cases hlast : idx + 1 ≥ n
      · rw [if_pos hlast, if_pos (by simp; omega)]
      · rw [if_neg hlast, if_neg (by simp; omega)]

/-- Where the loop over the list returns, the loop with the index returns the same. -/
theorem seedLoop_run (hn : s.queuedItems < 2 ^ 32) (hidx : idx ≤ s.queuedItems)
    (hqs : ahead o s.queuedItems idx = qs) (hne : qs ≠ []) (h : seedLoop o e qs s = .ok t) :
    ∃ actions calls', TransitionSystems.run (loopPass o e) (.running idx calls s) actions =
        some (.finished calls' t) ∨
      TransitionSystems.run (loopPass o e) (.running idx calls s) actions =
        some (.left calls' (.ok t)) := by
  induction qs generalizing idx calls s with
  | nil => exact absurd rfl hne
  | cons q qs ih =>
    obtain ⟨hq, hlt, next, hnext, hahead, hback, hadvance⟩ := ahead_cons hn hidx hqs
    unfold seedLoop at h
    split at h
    · rename_i hskips
      have hskip : s.skips q = true := by
        simpa [skips] using hskips
      split at h
      · rename_i hresume
        rw [Bool.and_eq_true, Bool.not_eq_true', List.isEmpty_eq_false_iff] at hresume
        obtain ⟨actions, calls', hrun⟩ := @ih s next calls hn hnext hahead hresume.2 h
        refine ⟨() :: actions, calls', ?_⟩
        rw [run_cons, loopPass_skip hq hlt hskip, Option.bind_some, ← hback hresume.1]
        exact hrun
      · exact absurd h (by simp)
    · rename_i hskips
      have hskip : s.skips q = false := by
        simpa [skips] using hskips
      cases hdry : s.drySeed o e q with
      | error stop =>
        rw [hdry] at h
        exact absurd h (by simp)
      | ok u =>
        rw [hdry] at h
        dsimp only at h
        have hitems := drySeed_queuedItems hdry
        have hpass : loopPass o e (.running idx calls s) () =
            if u.stopSoon then some (.left (calls ++ [q]) (.ok u))
            else some (u.advance o q (calls ++ [q])) := by
          unfold loopPass
          dsimp only
          rw [← hq, if_pos hlt, hskip, if_neg Bool.false_ne_true, hdry]
        split at h
        · rename_i hstop
          obtain rfl := Except.ok.inj h
          refine ⟨[()], calls ++ [q], .inr ?_⟩
          rw [run_cons, hpass, if_pos hstop]
          rfl
        · rename_i hstop
          rw [if_neg hstop, hadvance u hitems] at hpass
          by_cases hlast : qs = []
          · subst hlast
            obtain rfl := Except.ok.inj h
            refine ⟨[()], calls ++ [q], .inl ?_⟩
            rw [run_cons, hpass]
            rfl
          · obtain ⟨actions, calls', hrun⟩ := @ih u next (calls ++ [q]) (hitems ▸ hn)
              (hitems ▸ hnext) (hitems ▸ hahead) hlast h
            refine ⟨() :: actions, calls', ?_⟩
            rw [run_cons, hpass, if_neg hlast, Option.bind_some]
            exact hrun

/-- The loop of the dry run with its index refines the loop over the list of the seeds. -/
theorem seedLoop_refined (hn : s.queuedItems < 2 ^ 32) (hpos : 0 < s.queuedItems)
    (h : seedLoop o e (seedOrder o s) s = .ok t) :
    ∃ actions calls, TransitionSystems.run (loopPass o e) (loopStart o s) actions =
        some (.finished calls t) ∨
      TransitionSystems.run (loopPass o e) (loopStart o s) actions =
        some (.left calls (.ok t)) := by
  have hahead : ahead o s.queuedItems (if o.inPlaceResume then s.queuedItems else 0) =
      seedOrder o s := by
    unfold ahead seedOrder
    cases o.inPlaceResume with
    | true => rfl
    | false => exact List.range_eq_range'.symm
  have hne : seedOrder o s ≠ [] := List.ne_nil_of_mem (mem_seedOrder.mpr hpos)
  refine seedLoop_run hn ?_ hahead hne h
  split
  · exact le_rfl
  · exact Nat.zero_le _

end Ahead

/-! ## Queues that the loop does not get through -/

section Timeouts
variable {s t : Startup} {q idx n : ℕ} {calls : List ℕ} {skipped : ℕ → Bool} {inPlaceResume : Bool}

end Timeouts

end Startup

end AflPlusPlus.DryRun
