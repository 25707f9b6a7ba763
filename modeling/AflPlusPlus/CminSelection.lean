import AflPlusPlus.CminWorkersRuns

/-!
# The selection of the corpus minimization

When the workers are through, files are selected that hit, among them, everything that any file
hits. Each is the first file of something that the files before it do not hit.
-/

namespace AflPlusPlus.CminWorkers
open OrderedCounters TransitionSystems

/-! ## The first file of a tuple -/

section Minima
variable {m : List ℕ} {ms : List (List ℕ)} {t x : ℕ}

theorem foldl_min (h : ∀ m' ∈ ms, m'.length = m.length) :
    (ms.foldl (List.zipWith min) m).length = m.length ∧
      ∀ t x : ℕ, (ms.foldl (List.zipWith min) m)[t]? = some x →
        (∃ m' ∈ m :: ms, m'[t]? = some x) ∧ ∀ m' ∈ m :: ms, ∀ y, m'[t]? = some y → x ≤ y := by
  induction ms generalizing m with
  | nil =>
    refine ⟨rfl, fun t x hx => ⟨⟨m, List.mem_cons_self, hx⟩, fun m' hm' y hy => ?_⟩⟩
    obtain rfl := List.mem_singleton.mp hm'
    rw [List.foldl_nil, hy] at hx
    exact (Option.some.inj hx).ge
  | cons m₁ ms ih =>
    rw [List.forall_mem_cons] at h
    have hlen : (List.zipWith min m m₁).length = m.length := by
      rw [List.length_zipWith, h.1, min_self]
    obtain ⟨hlength, hmin⟩ := ih (m := List.zipWith min m m₁) fun m' hm' => by
      rw [hlen]
      exact h.2 m' hm'
    rw [List.foldl_cons]
    refine ⟨hlength.trans hlen, fun t x hx => ?_⟩
    obtain ⟨⟨m', hm', hget⟩, hle⟩ := hmin t x hx
    have hboth : ∀ y z, m[t]? = some y → m₁[t]? = some z →
        (List.zipWith min m m₁)[t]? = some (min y z) := fun y z hy hz => by
      rw [List.getElem?_zipWith, hy, hz]
    have hlt : t < m.length := by
      obtain ⟨hlt, -⟩ := List.getElem?_eq_some_iff.mp hx
      omega
    have hm := List.getElem?_eq_getElem hlt
    have hm₁ := List.getElem?_eq_getElem (h.1 ▸ hlt : t < m₁.length)
    have hfirst := hle _ List.mem_cons_self _ (hboth _ _ hm hm₁)
    refine ⟨?_, fun m' hm' y hy => ?_⟩
    · rcases List.mem_cons.mp hm' with rfl | hm'
      · rw [hboth _ _ hm hm₁, Option.some_inj] at hget
        rcases min_choice m[t] m₁[t] with heq | heq
        · exact ⟨m, List.mem_cons_self, hm.trans (congrArg some (heq.symm.trans hget))⟩
        · exact ⟨m₁, List.mem_cons_of_mem _ List.mem_cons_self,
            hm₁.trans (congrArg some (heq.symm.trans hget))⟩
      · exact ⟨m', List.mem_cons_of_mem _ (List.mem_cons_of_mem _ hm'), hget⟩
    · rcases List.mem_cons.mp hm' with rfl | hm'
      · rw [hm, Option.some_inj] at hy
        exact hfirst.trans (hy ▸ min_le_left _ _)
      · rcases List.mem_cons.mp hm' with rfl | hm'
        · rw [hm₁, Option.some_inj] at hy
          exact hfirst.trans (hy ▸ min_le_right _ _)
        · exact hle m' (List.mem_cons_of_mem _ hm') y hy

theorem minima_spec (hne : ms ≠ []) {n : ℕ} (h : ∀ m ∈ ms, m.length = n) (ht : t < n) :
    ∃ x, (minima ms)[t]? = some x ∧ (∃ m ∈ ms, m[t]? = some x) ∧
      ∀ m ∈ ms, ∀ y, m[t]? = some y → x ≤ y := by
  cases ms with
  | nil => exact absurd rfl hne
  | cons m ms =>
    rw [List.forall_mem_cons] at h
    obtain ⟨hlen, hmin⟩ := foldl_min (show ∀ m' ∈ ms, m'.length = m.length from
      fun m' hm' => (h.2 m' hm').trans h.1.symm)
    have hget := List.getElem?_eq_getElem
      (show t < (ms.foldl (List.zipWith min) m).length by rw [hlen, h.1]; exact ht)
    exact ⟨_, hget, hmin t _ hget⟩

end Minima

/-- The first of the files that have the tuple. -/
def Config.First (c : Config) (t idx : ℕ) : Prop :=
  t ∈ c.tuples idx ∧ ∀ other, t ∈ c.tuples other → idx ≤ other

/-- How often the tuple occurs in all files. -/
def Config.total (c : Config) (t : ℕ) : ℕ :=
  ∑ idx ∈ Finset.range c.runs.length, (c.tuples idx).count t

section Done
variable {c : Config} {s : System} {traced : ℕ → List ℕ} {t idx : ℕ}

theorem Config.Fits.idx_lt (hfits : c.Fits) (ht : t ∈ c.tuples idx) : idx < c.runs.length := by
  obtain ⟨edge, k, ⟨-, bits, hrun, -⟩, -⟩ := (mem_tuples hfits).mp ht
  exact (List.getElem?_eq_some_iff.mp hrun).1

theorem total_pos (hfits : c.Fits) (ht : t ∈ c.tuples idx) : 0 < c.total t :=
  Finset.sum_pos' (fun _ _ => Nat.zero_le _)
    ⟨idx, Finset.mem_range.mpr (hfits.idx_lt ht), List.count_pos_iff.mpr ht⟩

theorem exists_of_total_pos (h : 0 < c.total t) : ∃ idx, t ∈ c.tuples idx := by
  obtain ⟨idx, -, hpos⟩ := Finset.exists_ne_zero_of_sum_ne_zero h.ne'
  exact ⟨idx, List.count_pos_iff.mp (Nat.pos_of_ne_zero hpos)⟩

/-- A tuple that is counted once occurs in one file only. -/
theorem eq_of_total_one (hfits : c.Fits) (h : c.total t = 1) {other : ℕ}
    (ht : t ∈ c.tuples idx) (ht' : t ∈ c.tuples other) : idx = other := by
  by_contra hne
  have hsub : ({idx, other} : Finset ℕ) ⊆ Finset.range c.runs.length := by
    rw [Finset.insert_subset_iff, Finset.singleton_subset_iff, Finset.mem_range, Finset.mem_range]
    exact ⟨hfits.idx_lt ht, hfits.idx_lt ht'⟩
  have hle := Finset.sum_le_sum_of_subset (f := fun idx => (c.tuples idx).count t) hsub
  rw [Finset.sum_pair hne] at hle
  have hpos := List.count_pos_iff.mpr ht
  have hpos' := List.count_pos_iff.mpr ht'
  rw [Config.total] at h
  omega

variable (h : c.Done traced s) (hfits : c.Fits)
include h

theorem Config.Done.mem_results {i : ℕ} : i ∈ s.results ↔ i < c.workers := by
  rw [h.results.mem_iff, List.mem_range]

theorem Config.Done.mem_traced (hidx : idx < c.runs.length) :
    ∃ i < c.workers, idx ∈ traced i := by
  have hmem : idx ∈ Multiset.range c.runs.length := Multiset.mem_range.mpr hidx
  rw [← h.files, Multiset.mem_sum] at hmem
  obtain ⟨i, hi, hmem⟩ := hmem
  exact ⟨i, Finset.mem_range.mp hi, hmem⟩

include hfits

theorem Config.Done.bestIdxes (ht : t ∈ c.tuples idx) :
    ∃ first, s.bestIdxes[t]? = some first ∧ c.First t first ∧ first < c.runs.length ∧
      ∃ r, (first, r) ∈ s.traceInfo := by
  have hlen : ∀ m ∈ s.results.map (fun i => (s.workers i).m), m.length = c.maxTuple := by
    rw [List.forall_mem_map]
    exact fun i hi => (h.inv.noted i (h.mem_results.mp hi)).length
  have hne : s.results.map (fun i => (s.workers i).m) ≠ [] := by
    have hpos := hfits.workers
    rw [← List.length_range (n := c.workers), ← h.results.length_eq] at hpos
    rw [ne_eq, List.map_eq_nil_iff]
    exact List.ne_nil_of_length_pos hpos
  obtain ⟨first, hget, ⟨m, hm, hfirst⟩, hmin⟩ := minima_spec hne hlen (hfits.tuple_lt ht)
  have hle : ∀ other, t ∈ c.tuples other → first ≤ other := fun other hother => by
    obtain ⟨i, hi, htraced⟩ := h.mem_traced (hfits.idx_lt hother)
    have hnoted := h.inv.noted i hi
    have hlt : t < (s.workers i).m.length := by
      rw [hnoted.length]
      exact hfits.tuple_lt ht
    have hold := List.getElem?_eq_getElem hlt
    exact (hmin _ (List.mem_map_of_mem (h.mem_results.mpr hi)) _ hold).trans
      ((hnoted.first t _ hold).1 other htraced hother)
  have hlt : first < c.runs.length := (hle idx ht).trans_lt (hfits.idx_lt ht)
  have hnot := (hfits.lt_maxFileIndex hlt).ne
  obtain ⟨i, hi, rfl⟩ := List.mem_map.mp hm
  rw [h.mem_results] at hi
  refine ⟨first, hget, ⟨(((h.inv.noted i hi).first t first hfirst).2.resolve_left hnot).2, hle⟩,
    hlt, ?_⟩
  obtain ⟨r, hr⟩ := h.inv.infos i hi t first hfirst hnot
  rw [h.progress] at hr
  exact ⟨r, hr.resolve_left List.not_mem_nil⟩

theorem Config.Done.pick (ht : t ∈ c.tuples idx) :
    ∃ first, c.pick s t = .ok first ∧ c.First t first := by
  obtain ⟨first, hget, hfirst, hlt, -⟩ := h.bestIdxes hfits ht
  refine ⟨first, ?_, hfirst⟩
  rw [Config.pick, hget]
  exact if_pos hlt

/-- The trace of the first file of a tuple can be read. -/
theorem Config.Done.savedTuples (hfirst : c.First t idx) :
    (∃ r, s.info idx = .ok r) ∧ c.savedTuples s idx = .ok (c.tuples idx) := by
  obtain ⟨first, -, hfirst', -, r, hr⟩ := h.bestIdxes hfits hfirst.1
  obtain rfl : first = idx := le_antisymm (hfirst'.2 idx hfirst.1) (hfirst.2 first hfirst'.1)
  have hsome : (s.traceInfo.find? fun e => e.1 == first).isSome := by
    rw [List.find?_isSome]
    exact ⟨(first, r), hr, beq_self_eq_true first⟩
  obtain ⟨⟨idx, r'⟩, hfound⟩ := Option.isSome_iff_exists.mp hsome
  have heq := List.find?_some hfound
  obtain rfl : idx = first := beq_iff_eq.mp heq
  have hinfo : s.info idx = .ok r' := by rw [System.info, hfound]
  refine ⟨⟨r', hinfo⟩, ?_⟩
  rw [Config.savedTuples, hinfo]
  exact (h.inv.records idx r' (Or.inr (List.mem_of_find?_eq_some hfound))).2

omit hfits in
theorem Config.Done.counter : Counts s.counter c.total := by
  have hfold : ∀ (results : List ℕ), (∀ i ∈ results, i < c.workers) →
      ∀ (d : Counter ℕ) (f : ℕ → ℕ), Counts d f →
        Counts (results.foldl (fun d i => merge d (s.workers i).counter) d) fun t =>
          f t + (results.map fun i => ((traced i).map fun idx => (c.tuples idx).count t).sum).sum := by
    intro results hlt
    induction results with
    | nil => exact fun d f hd => hd
    | cons i results ih =>
      rw [List.forall_mem_cons] at hlt
      intro d f hd
      rw [List.foldl_cons]
      refine (ih hlt.2 _ _ (hd.merge (h.inv.noted i hlt.1).counts)).congr fun t => ?_
      rw [List.map_cons, List.sum_cons, Nat.add_assoc]
  refine (hfold s.results (fun i => h.mem_results.mp) [] 0 counts_empty).congr fun t => ?_
  have hsum : ∑ i ∈ Finset.range c.workers, ((traced i).map fun idx => (c.tuples idx).count t).sum =
      ((∑ i ∈ Finset.range c.workers, (traced i : Multiset ℕ)).map fun idx =>
        (c.tuples idx).count t).sum := by
    rw [← Multiset.coe_mapAddMonoidHom, map_sum, Multiset.sum_sum]
    rfl
  rw [Pi.zero_apply, Nat.zero_add, (h.results.map _).sum_eq]
  refine hsum.trans ?_
  rw [h.files]
  rfl

end Done

/-! ## The saved files -/

/-- A saved file has the tuple. -/
def Config.Has (c : Config) (saved : List ℕ) (t : ℕ) : Prop := ∃ idx ∈ saved, t ∈ c.tuples idx

/-- None of the tuples that the saved files miss is rarer. -/
def Config.Rarest (c : Config) (saved : List ℕ) (t : ℕ) : Prop :=
  ¬c.Has saved t ∧ ∀ other, 0 < c.total other → ¬c.Has saved other → c.total t ≤ c.total other

/-- Each file is the first one of a rarest tuple that the files before it miss. -/
def Config.Greedy (c : Config) (saved : List ℕ) : Prop :=
  ∀ pre idx post, saved = pre ++ idx :: post → ∃ t, c.First t idx ∧ c.Rarest pre t

section Greedy
variable {c : Config} {saved alreadyHave : List ℕ} {t idx : ℕ}

theorem greedy_nil (c : Config) : c.Greedy [] := fun pre _ _ heq =>
  absurd heq.symm (List.append_ne_nil_of_right_ne_nil pre (List.cons_ne_nil _ _))

theorem Config.Greedy.concat (h : c.Greedy saved) (hfirst : c.First t idx)
    (hrarest : c.Rarest saved t) : c.Greedy (saved ++ [idx]) := by
  intro pre other post heq
  cases post using List.reverseRecOn with
  | nil =>
    obtain ⟨rfl, hlast⟩ := List.append_inj' heq rfl
    rw [List.cons.injEq] at hlast
    obtain ⟨rfl, -⟩ := hlast
    exact ⟨t, hfirst, hrarest⟩
  | append_singleton post last =>
    rw [← List.cons_append, ← List.append_assoc] at heq
    exact h pre other post (List.append_inj' heq rfl).1

theorem Config.Greedy.first (h : c.Greedy saved) (hidx : idx ∈ saved) : ∃ t, c.First t idx := by
  obtain ⟨pre, post, rfl⟩ := List.append_of_mem hidx
  obtain ⟨t, hfirst, -⟩ := h pre idx post rfl
  exact ⟨t, hfirst⟩

theorem Config.Greedy.nodup (h : c.Greedy saved) : saved.Nodup := by
  induction saved using List.reverseRecOn with
  | nil => exact List.nodup_nil
  | append_singleton saved idx ih =>
    obtain ⟨t, hfirst, hnot, -⟩ := h saved idx [] rfl
    rw [List.nodup_append]
    refine ⟨ih fun pre other post heq => ?_, List.nodup_singleton _, fun other hother last hlast => ?_⟩
    · refine h pre other (post ++ [idx]) ?_
      rw [heq, List.append_assoc, List.cons_append]
    · obtain rfl := List.mem_singleton.mp hlast
      rintro rfl
      exact hnot ⟨other, hother, hfirst.1⟩

theorem has_concat : c.Has (saved ++ [idx]) t ↔ c.Has saved t ∨ t ∈ c.tuples idx := by
  constructor
  · rintro ⟨other, hmem, ht⟩
    rcases List.mem_append.mp hmem with hmem | hmem
    · exact Or.inl ⟨other, hmem, ht⟩
    · obtain rfl := List.mem_singleton.mp hmem
      exact Or.inr ht
  · rintro (⟨other, hmem, ht⟩ | ht)
    · exact ⟨other, List.mem_append_left _ hmem, ht⟩
    · exact ⟨idx, List.mem_append_right _ (List.mem_singleton_self idx), ht⟩

variable {s : System} {traced : ℕ → List ℕ} (h : c.Done traced s) (hfits : c.Fits)
include h hfits

theorem saveUnique_spec {unique : Counter ℕ}
    (hunique : ∀ e ∈ unique, e.2 = c.total e.1 ∧ 0 < e.2) (hsaved : c.Greedy saved) :
    ∃ saved', c.saveUnique s unique saved = .ok saved' ∧ c.Greedy saved' := by
  induction unique generalizing saved with
  | nil => exact ⟨saved, rfl, hsaved⟩
  | cons e unique ih =>
    obtain ⟨t, n⟩ := e
    rw [List.forall_mem_cons] at hunique
    obtain ⟨⟨hn, hpos⟩, hunique⟩ := hunique
    dsimp only at hn hpos
    rw [Config.saveUnique]
    by_cases hone : n = 1
    · rw [if_neg (not_not.mpr hone)]
      obtain ⟨q, hq⟩ := exists_of_total_pos (hn ▸ hpos)
      obtain ⟨first, hpick, hfirst⟩ := h.pick hfits hq
      rw [hpick]
      dsimp only [bind, Except.bind]
      by_cases hin : first ∈ saved
      · rw [if_pos hin]
        exact ih hunique hsaved
      · obtain ⟨⟨r, hinfo⟩, -⟩ := h.savedTuples hfits hfirst
        rw [if_neg hin, hinfo]
        dsimp only
        refine ih hunique (hsaved.concat hfirst ⟨?_, fun other hother _ => ?_⟩)
        · rintro ⟨other, hmem, ht⟩
          rw [eq_of_total_one hfits (hn.symm.trans hone) hfirst.1 ht] at hin
          exact hin hmem
        · rw [← hn, hone]
          exact hother
    · rw [if_pos hone]
      exact ih hunique hsaved

theorem combineTraces_spec (hsaved : ∀ idx ∈ saved, ∃ t, c.First t idx) :
    ∃ tuples, c.combineTraces s saved = .ok tuples ∧ ∀ t, t ∈ tuples ↔ c.Has saved t := by
  induction saved with
  | nil => exact ⟨[], rfl, fun t => by simp [Config.Has]⟩
  | cons idx saved ih =>
    rw [List.forall_mem_cons] at hsaved
    obtain ⟨⟨t, hfirst⟩, hsaved⟩ := hsaved
    obtain ⟨tuples, heq, hmem⟩ := ih hsaved
    refine ⟨c.tuples idx ++ tuples, ?_, fun t => ?_⟩
    · rw [Config.combineTraces, (h.savedTuples hfits hfirst).2, heq]
      rfl
    · rw [List.mem_append, hmem, Config.Has, Config.Has, List.exists_mem_cons_iff]

/-- The tuples are gone through from the rarest on, and the rest holds all that are missing. -/
theorem saveRest_spec {rest : Counter ℕ} (hrest : ∀ e ∈ rest, e.2 = c.total e.1 ∧ 0 < e.2)
    (hsorted : rest.Pairwise fun a b => a.2 ≤ b.2) (hsaved : c.Greedy saved)
    (hhave : ∀ t, t ∈ alreadyHave ↔ c.Has saved t)
    (hall : ∀ t, 0 < c.total t → c.Has saved t ∨ ∃ n, (t, n) ∈ rest) :
    ∃ saved', c.saveRest s rest alreadyHave saved = .ok saved' ∧ c.Greedy saved' ∧
      ∀ t, 0 < c.total t → c.Has saved' t := by
  induction rest generalizing saved alreadyHave with
  | nil =>
    refine ⟨saved, rfl, hsaved, fun t ht => (hall t ht).resolve_right ?_⟩
    rintro ⟨n, hn⟩
    exact List.not_mem_nil hn
  | cons e rest ih =>
    obtain ⟨t, n⟩ := e
    rw [List.forall_mem_cons] at hrest
    rw [List.pairwise_cons] at hsorted
    obtain ⟨⟨hn, hpos⟩, hrest⟩ := hrest
    obtain ⟨hleast, hsorted⟩ := hsorted
    dsimp only at hn hpos hleast
    rw [Config.saveRest]
    by_cases hin : t ∈ alreadyHave
    · rw [if_pos hin]
      refine ih hrest hsorted hsaved hhave fun u hu => ?_
      rcases hall u hu with hhas | ⟨k, hk⟩
      · exact Or.inl hhas
      · rcases List.mem_cons.mp hk with heq | hk
        · rw [(Prod.mk.inj heq).1]
          exact Or.inl ((hhave t).mp hin)
        · exact Or.inr ⟨k, hk⟩
    · rw [if_neg hin]
      rw [hhave] at hin
      obtain ⟨q, hq⟩ := exists_of_total_pos (hn ▸ hpos)
      obtain ⟨first, hpick, hfirst⟩ := h.pick hfits hq
      rw [hpick]
      dsimp only [bind, Except.bind]
      rw [(h.savedTuples hfits hfirst).2]
      dsimp only
      refine ih hrest hsorted (hsaved.concat hfirst ⟨hin, fun u hu hnot => ?_⟩) (fun u => ?_)
        fun u hu => ?_
      · obtain ⟨k, hk⟩ := (hall u hu).resolve_left hnot
        rcases List.mem_cons.mp hk with heq | hk
        · rw [(Prod.mk.inj heq).1]
        · have hle := hleast _ hk
          rw [hn, (hrest _ hk).1] at hle
          exact hle
      · rw [List.mem_append, has_concat, hhave]
      · rw [has_concat]
        rcases hall u hu with hhas | ⟨k, hk⟩
        · exact Or.inl (Or.inl hhas)
        · rcases List.mem_cons.mp hk with heq | hk
          · rw [(Prod.mk.inj heq).1]
            exact Or.inl (Or.inr hfirst.1)
          · exact Or.inr ⟨k, hk⟩

/-- All tuples are there in the end, and each file was needed when it was saved. -/
theorem select_spec :
    ∃ saved, c.select s = .ok saved ∧ c.Greedy saved ∧ ∀ t, 0 < c.total t → c.Has saved t := by
  have hmem : ∀ e ∈ s.allUnique, e.2 = c.total e.1 ∧ 0 < e.2 := fun e he =>
    h.counter.mem_mostCommon.mp he
  obtain ⟨unique, hunique, hgreedy⟩ := saveUnique_spec h hfits hmem (greedy_nil c)
  obtain ⟨tuples, hcombine, hhave⟩ := combineTraces_spec h hfits fun _ hidx => hgreedy.first hidx
  have hsorted : s.allUnique.reverse.Pairwise fun a b => a.2 ≤ b.2 := by
    rw [List.pairwise_reverse]
    refine (List.pairwise_mergeSort (fun a b d hab hbd => ?_) (fun a b => ?_) _).imp fun hle =>
      of_decide_eq_true hle
    · exact decide_eq_true ((of_decide_eq_true hbd).trans (of_decide_eq_true hab))
    · rw [Bool.or_eq_true, decide_eq_true_iff, decide_eq_true_iff]
      exact le_total _ _
  obtain ⟨saved, hrest, hsaved, hall⟩ := saveRest_spec h hfits
    (fun e he => hmem e (List.mem_reverse.mp he)) hsorted hgreedy hhave fun t ht =>
      Or.inr ⟨c.total t, List.mem_reverse.mpr (h.counter.mem_mostCommon.mpr ⟨rfl, ht⟩)⟩
  refine ⟨saved, ?_, hsaved, hall⟩
  rw [Config.select, hunique]
  dsimp only [bind, Except.bind]
  rw [hcombine]
  exact hrest

end Greedy

/-! ## Edges and classes of hit counts -/

/-- The first of the files that hit the edge with the given class. -/
def Config.FirstHit (c : Config) (idx edge k : ℕ) : Prop :=
  c.Hits idx edge k ∧ ∀ other, c.Hits other edge k → idx ≤ other

/-- The smallest of the files that hit the edge with the given class, and of those the first. -/
def Config.Smallest (c : Config) (files : List InputFile) (idx edge k : ℕ) : Prop :=
  (c.withFiles files).Hits idx edge k ∧ ∀ other, (c.withFiles files).Hits other edge k →
    fileSize files idx ≤ fileSize files other ∧ idx ≤ other

/-- How many files hit the edge with the given class. -/
noncomputable def Config.hitters (c : Config) (edge k : ℕ) : ℕ := {idx | c.Hits idx edge k}.ncard

section Hits
variable {c : Config} {idx edge k : ℕ}

theorem mem_tuples_iff (hfits : c.Fits) (hk : k ≤ 8) :
    edge * 9 + k ∈ c.tuples idx ↔ c.Hits idx edge k := by
  rw [mem_tuples hfits]
  constructor
  · rintro ⟨edge', k', hhits, heq⟩
    obtain ⟨rfl, rfl⟩ := tuple_inj hk hhits.le heq
    exact hhits
  · exact fun hhits => ⟨edge, k, hhits, rfl⟩

/-- `afl-showmap` writes one line for each edge. -/
theorem cminLines_nodup {bits : List ℕ} (hle : ∀ k ∈ bits, k ≤ 8) :
    ((cminLines bits).map tupleIndex).Nodup := by
  rw [cminLines, List.map_map]
  have hsnd : (bits.zipIdx.map Prod.snd).Nodup := by
    rw [List.zipIdx_map_snd]
    exact List.nodup_range' ..
  refine List.Nodup.map_on (fun e he e' he' heq => ?_) ((List.Nodup.of_map _ hsnd).filter _)
  have hmem := List.mem_zipIdx_iff_getElem?.mp (List.mem_filter.mp he).1
  have hmem' := List.mem_zipIdx_iff_getElem?.mp (List.mem_filter.mp he').1
  rw [Function.comp_apply, Function.comp_apply,
    tupleIndex_line (hle _ (List.mem_of_getElem? hmem)),
    tupleIndex_line (hle _ (List.mem_of_getElem? hmem'))] at heq
  obtain ⟨hedge, hclass⟩ := tuple_inj (hle _ (List.mem_of_getElem? hmem))
    (hle _ (List.mem_of_getElem? hmem')) heq
  exact Prod.ext hclass hedge

theorem tuples_nodup (hfits : c.Fits) (idx : ℕ) : (c.tuples idx).Nodup := by
  rw [Config.tuples, Config.traced, hfits.traceFile, Config.leaves]
  cases c.runs[idx]?.getD .skipped with
  | skipped => exact List.nodup_nil
  | failed => exact List.nodup_nil
  | traced bits => exact cminLines_nodup fun k => classifyCounts_le

/-- A tuple is counted once for each file that has it. -/
theorem total_eq_hitters (hfits : c.Fits) (hk : k ≤ 8) :
    c.total (edge * 9 + k) = c.hitters edge k := by
  have hset : {idx | c.Hits idx edge k} =
      ((Finset.range c.runs.length).filter fun idx => edge * 9 + k ∈ c.tuples idx : Finset ℕ) := by
    ext idx
    rw [Set.mem_ofPred_eq, Finset.coe_filter, Set.mem_ofPred_eq, mem_tuples_iff hfits hk,
      Finset.mem_range]
    exact (and_iff_right_of_imp fun hhits =>
      hfits.idx_lt ((mem_tuples_iff hfits hk).mpr hhits)).symm
  rw [Config.hitters, hset, Set.ncard_coe_finset, Finset.card_filter, Config.total]
  refine Finset.sum_congr rfl fun idx _ => ?_
  exact (tuples_nodup hfits idx).count

theorem has_iff (hfits : c.Fits) (hk : k ≤ 8) {saved : List ℕ} :
    c.Has saved (edge * 9 + k) ↔ ∃ other ∈ saved, c.Hits other edge k := by
  rw [Config.Has]
  exact exists_congr fun other => and_congr_right fun _ => mem_tuples_iff hfits hk

end Hits

/-- Each saved file is the first that hits some edge with a class that no file saved before it hits
the edge with. What the files saved before miss is never hit by fewer files than that. -/
theorem select_first {c : Config} (hfits : c.Fits) :
    EndsIn c.step (fun s => ∀ saved, c.select s = .ok saved →
      ∀ pre idx post, saved = pre ++ idx :: post → ∃ edge k, c.FirstHit idx edge k ∧
        (∀ other ∈ pre, ¬c.Hits other edge k) ∧
        ∀ edge' k', (∃ q, c.Hits q edge' k') → (∀ other ∈ pre, ¬c.Hits other edge' k') →
          c.hitters edge k ≤ c.hitters edge' k') c.start := by
  refine (endsIn_done hfits).mono fun s hdone saved hselect pre idx post heq => ?_
  obtain ⟨traced, h⟩ := hdone
  obtain ⟨saved', hselect', hgreedy, -⟩ := select_spec h hfits
  rw [hselect, Except.ok.injEq] at hselect'
  subst hselect'
  obtain ⟨t, hfirst, hnot, hleast⟩ := hgreedy pre idx post heq
  obtain ⟨edge, k, hhits, rfl⟩ := (mem_tuples hfits).mp hfirst.1
  refine ⟨edge, k, ⟨hhits, fun other hother => ?_⟩, fun other hother hhits' => ?_,
    fun edge' k' hq hmiss => ?_⟩
  · exact hfirst.2 other ((mem_tuples_iff hfits hhits.le).mpr hother)
  · exact hnot ((has_iff hfits hhits.le).mpr ⟨other, hother, hhits'⟩)
  · obtain ⟨q, hq⟩ := hq
    rw [← total_eq_hitters hfits hhits.le, ← total_eq_hitters hfits hq.le]
    refine hleast _ (total_pos hfits ((mem_tuples_iff hfits hq.le).mpr hq)) fun hhas => ?_
    obtain ⟨other, hother, hhits'⟩ := (has_iff hfits hq.le).mp hhas
    exact hmiss other hother hhits'

theorem fileSize_mono {files : List InputFile} {idx other : ℕ} (hle : idx ≤ other)
    (hlt : other < (sortFiles files).length) : fileSize files idx ≤ fileSize files other := by
  have hsorted : (sortFiles files).Pairwise fun a b => a.size ≤ b.size := by
    have htrans : IsTrans InputFile fun a b => a.size ≤ b.size := ⟨fun _ _ _ => le_trans⟩
    have htotal : Std.Total fun a b : InputFile => a.size ≤ b.size := ⟨fun _ _ => le_total _ _⟩
    exact List.pairwise_insertionSort _ files
  have hget := List.getElem?_eq_getElem hlt
  have hget' := List.getElem?_eq_getElem (hle.trans_lt hlt)
  rw [fileSize, fileSize, hget, hget']
  rcases hle.lt_or_eq with hlt' | rfl
  · exact List.pairwise_iff_getElem.mp hsorted idx other _ hlt hlt'
  · exact le_rfl

/-- Each saved file is the smallest that hits some edge with a class that no file saved before it
hits the edge with. What the files saved before miss is never hit by fewer files than that. -/
theorem select_rarest {c : Config} {files : List InputFile} (hfits : (c.withFiles files).Fits) :
    EndsIn (c.withFiles files).step (fun s => ∀ saved, (c.withFiles files).select s = .ok saved →
      ∀ pre idx post, saved = pre ++ idx :: post → ∃ edge k, c.Smallest files idx edge k ∧
        (∀ other ∈ pre, ¬(c.withFiles files).Hits other edge k) ∧
        ∀ edge' k', (∃ q, (c.withFiles files).Hits q edge' k') →
          (∀ other ∈ pre, ¬(c.withFiles files).Hits other edge' k') →
          (c.withFiles files).hitters edge k ≤ (c.withFiles files).hitters edge' k')
      (c.withFiles files).start := by
  refine (select_first hfits).mono fun s h saved hselect pre idx post heq => ?_
  obtain ⟨edge, k, ⟨hhits, hfirst⟩, hmiss, hleast⟩ := h saved hselect pre idx post heq
  refine ⟨edge, k, ⟨hhits, fun other hother => ⟨?_, hfirst other hother⟩⟩, hmiss, hleast⟩
  have hlt := hfits.idx_lt ((mem_tuples_iff hfits hother.le).mpr hother)
  rw [Config.withFiles, List.length_map] at hlt
  exact fileSize_mono (hfirst other hother) hlt

/-- Three files and two workers. The first file hits an edge once, the second hits it twice, and the
third hits two edges. -/
def threeFiles : Config where
  runs := [.traced [0, 1], .traced [0, 2], .traced [1, 1]]
  basename idx := if idx = 0 then "a" else if idx = 1 then "b" else "c"
  edgeMode := false
  crashDir := false
  workers := 2
  aflMapSize := some 2

theorem threeFiles_fits : threeFiles.Fits where
  workers := by decide
  files := by decide
  names := by decide
  map := by decide
  runs bits hbits := by
    simp only [threeFiles, List.mem_cons, Run.traced.injEq, List.not_mem_nil, or_false] at hbits
    rcases hbits with rfl | rfl | rfl <;> decide

/-- The same files, the largest first. -/
def unsortedFiles : List InputFile :=
  [⟨3, .traced [1, 1], "c"⟩, ⟨1, .traced [0, 1], "a"⟩, ⟨2, .traced [0, 2], "b"⟩]

theorem unsortedFiles_fits : (threeFiles.withFiles unsortedFiles).Fits where
  workers := by decide
  files := by decide
  names := by decide
  map := by decide
  runs bits hbits := threeFiles_fits.runs bits hbits

theorem select_rarest_unsorted :
    let c := threeFiles.withFiles unsortedFiles
    EndsIn c.step (fun s => ∀ saved, c.select s = .ok saved →
      ∀ pre idx post, saved = pre ++ idx :: post → ∃ edge k,
        threeFiles.Smallest unsortedFiles idx edge k ∧ (∀ other ∈ pre, ¬c.Hits other edge k) ∧
        ∀ edge' k', (∃ q, c.Hits q edge' k') → (∀ other ∈ pre, ¬c.Hits other edge' k') →
          c.hitters edge k ≤ c.hitters edge' k') c.start :=
  select_rarest unsortedFiles_fits

end AflPlusPlus.CminWorkers
