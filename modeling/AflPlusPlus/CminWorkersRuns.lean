import AflPlusPlus.CminWorkersSpec

/-!
# Runs of the corpus minimization

Every run of the workers and the main process ends, and it ends when all files are traced and all
results are fetched.
-/

namespace AflPlusPlus.CminWorkers
open EqualBlocks OrderedCounters TransitionSystems

variable {c : Config} {s t : System} {traced : ℕ → List ℕ} {i k : ℕ}

/-- What is still to be done. -/
def Config.measure (c : Config) (s : System) : ℕ :=
  2 * s.jobQueue.length + 2 * (jobFiles s.jobQueue).length +
    2 * ∑ i ∈ Finset.range c.workers, (s.workers i).batch.length +
    s.progressQueue.length + s.resultQueue.length

theorem sum_batch (hi : i < c.workers) (w : Worker) :
    ∑ j ∈ Finset.range c.workers, (s.workers j).batch.length + w.batch.length =
      ∑ j ∈ Finset.range c.workers, (Function.update s.workers i w j).batch.length +
        (s.workers i).batch.length := by
  have hsum := sum_replace (f := fun j => (s.workers j).batch.length)
    (g := fun j => (Function.update s.workers i w j).batch.length) hi
    fun j hj => by rw [Function.update_of_ne hj]
  rwa [Function.update_self] at hsum

theorem jobFiles_cons (job : Option (List ℕ)) (jobs : List (Option (List ℕ))) :
    jobFiles (job :: jobs) = job.getD [] ++ jobFiles jobs := List.flatMap_cons ..

theorem take_spec (h : c.Inv traced s) (hstep : c.take i s = some t) :
    c.Inv traced t ∧ c.measure t < c.measure s := by
  rw [Config.take] at hstep
  split at hstep
  · next hguard =>
    obtain ⟨hi, hrun, hbatch⟩ := hguard
    cases hjobs : s.jobQueue with
    | nil =>
      rw [hjobs] at hstep
      cases hstep
    | cons job jobs =>
      rw [hjobs] at hstep
      cases job with
      | none =>
        obtain rfl := Option.some.inj hstep
        refine ⟨h.takeEnd hi hrun hbatch hjobs, ?_⟩
        have hsum := sum_batch (s := s) hi (s.workers i).stop
        have hstop : (s.workers i).stop.batch = [] := hbatch
        rw [hstop, hbatch] at hsum
        rw [Config.measure, Config.measure, hjobs, jobFiles_cons]
        simp only [List.length_append, List.length_cons, List.length_nil,
          Option.getD_none] at hsum ⊢
        omega
      | some batch =>
        obtain rfl := Option.some.inj hstep
        refine ⟨h.takeBatch hi hrun hbatch hjobs, ?_⟩
        have hsum := sum_batch (s := s) hi ((s.workers i).takeBatch batch)
        rw [Worker.takeBatch, hbatch] at hsum
        rw [Config.measure, Config.measure, hjobs, jobFiles_cons]
        simp only [Worker.takeBatch, List.length_append, List.length_cons, List.length_nil,
          Option.getD_some] at hsum ⊢
        omega
  · cases hstep

theorem trace_spec (h : c.Inv traced s) (hfits : c.Fits) (hstep : c.trace i s = some t) :
    (∃ traced', c.Inv traced' t) ∧ c.measure t < c.measure s := by
  rw [Config.trace] at hstep
  split at hstep
  · next hguard =>
    obtain ⟨hi, hrun⟩ := hguard
    cases hbatch : (s.workers i).batch with
    | nil =>
      rw [hbatch] at hstep
      cases hstep
    | cons idx batch =>
      obtain ⟨w, record, htrace, hinv⟩ := h.trace hfits hi hrun hbatch
      rw [hbatch] at hstep
      dsimp only at hstep
      rw [htrace] at hstep
      obtain rfl := Option.some.inj hstep
      refine ⟨⟨_, hinv⟩, ?_⟩
      have hsum := sum_batch (s := s) hi (w.takeBatch batch)
      rw [Worker.takeBatch, hbatch] at hsum
      rw [Config.measure, Config.measure]
      simp only [Worker.takeBatch, List.length_append, List.length_cons, List.length_nil] at hsum ⊢
      omega
  · cases hstep

theorem progress_spec (h : c.Inv traced s) (hstep : c.progress k s = some t) :
    c.Inv traced t ∧ c.measure t < c.measure s := by
  rw [Config.progress] at hstep
  split at hstep
  · rw [Option.map_eq_some_iff] at hstep
    obtain ⟨⟨idx, record⟩, hk, rfl⟩ := hstep
    obtain ⟨hlt, -⟩ := List.getElem?_eq_some_iff.mp hk
    refine ⟨h.progress hk, ?_⟩
    rw [Config.measure, Config.measure]
    dsimp only
    rw [List.length_eraseIdx_of_lt hlt]
    omega
  · cases hstep

theorem result_spec (h : c.Inv traced s) (hstep : c.result k s = some t) :
    c.Inv traced t ∧ c.measure t < c.measure s := by
  rw [Config.result] at hstep
  split at hstep
  · rw [Option.map_eq_some_iff] at hstep
    obtain ⟨i, hk, rfl⟩ := hstep
    obtain ⟨hlt, -⟩ := List.getElem?_eq_some_iff.mp hk
    refine ⟨h.result hk, ?_⟩
    rw [Config.measure, Config.measure]
    dsimp only
    rw [List.length_eraseIdx_of_lt hlt]
    omega
  · cases hstep

theorem step_spec (h : c.Inv traced s) (hfits : c.Fits) {a : Action}
    (hstep : c.step s a = some t) :
    (∃ traced', c.Inv traced' t) ∧ c.measure t < c.measure s := by
  cases a with
  | take i => exact (take_spec h hstep).imp_left fun hinv => ⟨traced, hinv⟩
  | trace i => exact trace_spec h hfits hstep
  | progress k => exact (progress_spec h hstep).imp_left fun hinv => ⟨traced, hinv⟩
  | result k => exact (result_spec h hstep).imp_left fun hinv => ⟨traced, hinv⟩

/-! ## The end -/

/-- All files are traced, and all results are fetched. -/
structure Config.Done (c : Config) (traced : ℕ → List ℕ) (s : System) : Prop where
  inv : c.Inv traced s
  results : s.results.Perm (List.range c.workers)
  files : ∑ i ∈ Finset.range c.workers, (traced i : Multiset ℕ) = Multiset.range c.runs.length
  progress : s.progressQueue = []

section Stuck
variable (h : c.Inv traced s) (hstuck : Stuck c.step s)
include h

theorem Config.Inv.received_le : s.received + s.progressQueue.length ≤ c.runs.length := by
  have hcard := congrArg Multiset.card h.files
  rw [Multiset.card_add, Multiset.card_range, Multiset.card_sum] at hcard
  rw [h.messages, ← hcard]
  refine (Finset.sum_le_sum fun i _ => ?_).trans (Nat.le_add_left _ _)
  rw [Multiset.card_add, Multiset.coe_card]
  exact Nat.le_add_right _ _

theorem Config.Inv.length_le : (s.resultQueue ++ s.results).length ≤ c.workers := by
  have hsub : s.resultQueue ++ s.results ⊆ List.range c.workers := fun i hi =>
    List.mem_range.mpr ((h.ended i).mp hi).1
  have hle := (List.subperm_of_subset h.once hsub).length_le
  rwa [List.length_range] at hle

include hstuck

theorem stuck_progress : s.progressQueue = [] := by
  by_contra hne
  have hpos := List.length_pos_of_ne_nil hne
  have hle := h.received_le
  have hnone : c.progress 0 s = none := hstuck (.progress 0)
  rw [Config.progress, if_pos (by omega), List.getElem?_eq_getElem hpos] at hnone
  cases hnone

theorem stuck_batch (hi : i < c.workers) : (s.workers i).batch = [] := by
  by_cases hrun : (s.workers i).running = true
  · cases hbatch : (s.workers i).batch with
    | nil => rfl
    | cons idx batch =>
      have hnone : c.trace i s = none := hstuck (.trace i)
      rw [Config.trace, if_pos ⟨hi, hrun⟩, hbatch] at hnone
      dsimp only at hnone
      split at hnone <;> cases hnone
  · exact h.idle i hi (by simpa using hrun)

/-- A worker that runs would take a job, and there is one for each of them. -/
theorem stuck_ended (hi : i < c.workers) : (s.workers i).running = false := by
  by_contra hrun
  rw [Bool.not_eq_false] at hrun
  have hjobs : s.jobQueue = [] := by
    have hnone : c.take i s = none := hstuck (.take i)
    rw [Config.take, if_pos ⟨hi, hrun, stuck_batch h hstuck hi⟩] at hnone
    cases hqueue : s.jobQueue with
    | nil => rfl
    | cons job jobs =>
      rw [hqueue] at hnone
      cases job <;> cases hnone
  obtain ⟨batches, k, hqueue, hends, -⟩ := h.jobs
  rw [hjobs] at hqueue
  have hk : k = 0 := by
    have hlen := congrArg List.length hqueue
    rw [List.length_append, List.length_replicate, List.length_nil] at hlen
    omega
  have hsub : i :: (s.resultQueue ++ s.results) ⊆ List.range c.workers :=
    List.cons_subset.mpr ⟨List.mem_range.mpr hi, fun j hj =>
      List.mem_range.mpr ((h.ended j).mp hj).1⟩
  have hnot : i ∉ s.resultQueue ++ s.results := fun hmem => by
    rw [((h.ended i).mp hmem).2] at hrun
    cases hrun
  have hle := (List.subperm_of_subset (List.nodup_cons.mpr ⟨hnot, h.once⟩) hsub).length_le
  rw [List.length_cons, List.length_range] at hle
  omega

theorem stuck_done (hfits : c.Fits) : c.Done traced s := by
  have hperm : (s.resultQueue ++ s.results).Perm (List.range c.workers) := by
    rw [List.perm_ext_iff_of_nodup h.once List.nodup_range]
    intro i
    rw [h.ended, List.mem_range]
    exact and_iff_left_of_imp fun hi => stuck_ended h hstuck hi
  have hjobs : jobFiles s.jobQueue = [] := by
    obtain ⟨batches, k, hqueue, hends, hnone⟩ := h.jobs
    have hlen := hperm.length_eq
    rw [List.length_range] at hlen
    have hworkers := hfits.workers
    rw [hqueue, hnone (by omega), List.map_nil, List.nil_append, jobFiles_ends]
  have hfiles : ∑ i ∈ Finset.range c.workers, (traced i : Multiset ℕ) =
      Multiset.range c.runs.length := by
    rw [← h.files, hjobs, Multiset.coe_nil, zero_add]
    refine Finset.sum_congr rfl fun i hi => ?_
    rw [stuck_batch h hstuck (Finset.mem_range.mp hi), Multiset.coe_nil, add_zero]
  have hprogress := stuck_progress h hstuck
  have hreceived : s.received = c.runs.length := by
    have hcard := congrArg Multiset.card hfiles
    rw [Multiset.card_range, Multiset.card_sum] at hcard
    have hmessages := h.messages
    rw [hprogress, List.length_nil, Nat.add_zero] at hmessages
    rw [hmessages, ← hcard]
    rfl
  have hqueue : s.resultQueue = [] := by
    by_contra hne
    have hnone : c.result 0 s = none := hstuck (.result 0)
    rw [Config.result, if_pos hreceived.ge,
      List.getElem?_eq_getElem (List.length_pos_of_ne_nil hne)] at hnone
    cases hnone
  rw [hqueue, List.nil_append] at hperm
  exact ⟨h, hperm, hfiles, hprogress⟩

end Stuck

/-- Every run ends, when everything is done. -/
theorem endsIn_done (hfits : c.Fits) : EndsIn c.step (fun s => ∃ traced, c.Done traced s) c.start :=
  endsIn_of_measure (P := fun s => ∃ traced, c.Inv traced s) c.measure
    (fun _ _ _ ⟨_, h⟩ hstep => (step_spec h hfits hstep).1)
    (fun _ _ _ ⟨_, h⟩ hstep => (step_spec h hfits hstep).2)
    (fun _ ⟨traced, h⟩ hstuck => ⟨traced, stuck_done h hstuck hfits⟩) ⟨_, inv_start c⟩

end AflPlusPlus.CminWorkers
