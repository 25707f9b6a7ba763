import AflPlusPlus.CminWorkers

/-!
# What the workers of the corpus minimization report

Whichever worker takes which batch, and in whatever order the messages arrive, the main process
ends up with the first file of every tuple, the number of its occurrences, and the place of the
traces it needs.
-/

namespace AflPlusPlus.CminWorkers
open EqualBlocks OrderedCounters

/-! ## Traces -/

abbrev Config.tuples (c : Config) (idx : ℕ) : List ℕ := (c.traced idx).tuples

/-- The file hits the edge, with the given class of hit counts. -/
def Config.Hits (c : Config) (idx edge k : ℕ) : Prop :=
  k ≠ 0 ∧ ∃ bits, c.runs[idx]? = some (.traced bits) ∧
    (classifyCounts c.edgeMode bits)[edge]? = some k

section Traces
variable {c : Config} {idx edge k t : ℕ}

theorem countClassHuman_le (hits : ℕ) : countClassHuman hits ≤ 8 := by
  rw [countClassHuman]
  split_ifs <;> omega

theorem classifyCounts_le {bits : List (BitVec 8)} (h : k ∈ classifyCounts c.edgeMode bits) :
    k ≤ 8 := by
  obtain ⟨hits, -, rfl⟩ := List.mem_map.mp h
  split_ifs
  · decide
  · decide
  · exact countClassHuman_le _

theorem tupleIndex_line (hk : k ≤ 8) : tupleIndex (edge * 1000 + k) = edge * 9 + k := by
  rw [tupleIndex]
  omega

/-- Edges and classes of hit counts are told apart by their tuple. -/
theorem tuple_inj {edge' k' : ℕ} (hk : k ≤ 8) (hk' : k' ≤ 8)
    (h : edge * 9 + k = edge' * 9 + k') : edge = edge' ∧ k = k' := by
  omega

theorem Config.Hits.le (h : c.Hits idx edge k) : k ≤ 8 := by
  obtain ⟨-, bits, -, hget⟩ := h
  exact classifyCounts_le (List.mem_of_getElem? hget)

theorem mem_cminLines {bits : List ℕ} {line : ℕ} :
    line ∈ cminLines bits ↔ ∃ e b, bits[e]? = some b ∧ b ≠ 0 ∧ line = e * 1000 + b := by
  rw [cminLines, List.mem_map]
  constructor
  · rintro ⟨⟨b, e⟩, hmem, rfl⟩
    rw [List.mem_filter, decide_eq_true_iff] at hmem
    exact ⟨e, b, (List.mem_zipIdx_iff_getElem?.mp hmem.1), hmem.2, rfl⟩
  · rintro ⟨e, b, hget, hne, rfl⟩
    refine ⟨(b, e), ?_, rfl⟩
    rw [List.mem_filter, decide_eq_true_iff]
    exact ⟨List.mem_zipIdx_iff_getElem?.mpr hget, hne⟩

theorem crashed_iff : (c.traced idx).crashed = ((c.tuples idx).length == 0) := by
  rw [Config.tuples, Config.traced, aflShowmap.eq_def]
  cases c.traceFile idx with
  | none => rfl
  | some values =>
    dsimp only
    rw [List.length_map]

/-- The files of a batch have different names, and `afl-showmap` writes no more bits than the map
has. -/
structure Config.Fits (c : Config) : Prop where
  workers : 0 < c.workers
  files : c.runs.length < 256 ^ 8
  names : ∀ batch ∈ c.batches, (batch.map c.basename).Nodup
  map : c.maxTuple < 256 ^ 8
  runs : ∀ bits, .traced bits ∈ c.runs → bits.length ≤ c.mapSize

theorem flatten_batches (c : Config) : c.batches.flatten = List.range c.runs.length := by
  rw [Config.batches]
  split
  · next hrest =>
    rw [← List.append_nil (List.flatten _), ← hrest]
    exact flatten_blocks
  · rw [List.flatten_append, List.flatten_singleton]
    exact flatten_blocks

theorem batchOf_mem (hidx : idx < c.runs.length) :
    idx ∈ c.batchOf idx ∧ c.batchOf idx ∈ c.batches := by
  rw [← List.mem_range, ← flatten_batches, List.mem_flatten] at hidx
  obtain ⟨batch, hbatch, hidx⟩ := hidx
  have hsome : (c.batches.find? fun batch => idx ∈ batch).isSome := by
    rw [List.find?_isSome]
    exact ⟨batch, hbatch, decide_eq_true hidx⟩
  obtain ⟨found, hfound⟩ := Option.isSome_iff_exists.mp hsome
  rw [Config.batchOf, hfound, Option.getD_some]
  have hprop := List.find?_some hfound
  exact ⟨of_decide_eq_true hprop, List.mem_of_find?_eq_some hfound⟩

theorem batchOf_out (hidx : c.runs.length ≤ idx) : c.batchOf idx = [] := by
  rw [Config.batchOf, List.find?_eq_none.mpr, Option.getD_none]
  intro batch hbatch hmem
  have hrange : idx ∈ c.batches.flatten :=
    List.mem_flatten.mpr ⟨batch, hbatch, of_decide_eq_true hmem⟩
  rw [flatten_batches, List.mem_range] at hrange
  omega

/-- A file keeps its own trace file. -/
theorem Config.Fits.traceFile (h : c.Fits) (idx : ℕ) : c.traceFile idx = c.leaves none idx := by
  rw [Config.traceFile]
  rcases lt_or_ge idx c.runs.length with hidx | hidx
  · obtain ⟨hmem, hbatch⟩ := batchOf_mem hidx
    have hnames := h.names _ hbatch
    have hsame : (c.batchOf idx).filter (fun other => c.basename other = c.basename idx) =
        [idx] := by
      have hother : ∀ other ∈ c.batchOf idx,
          decide (c.basename other = c.basename idx) = decide (other = idx) := fun other hin =>
        decide_eq_decide.mpr ⟨fun heq => List.inj_on_of_nodup_map hnames hin hmem heq,
          congrArg c.basename⟩
      rw [List.filter_congr hother, List.filter_eq,
        List.count_eq_one_of_mem (List.Nodup.of_map _ hnames) hmem, List.replicate_one]
    rw [hsame, List.head?_cons, if_pos rfl, List.foldl_cons, List.foldl_nil]
  · rw [batchOf_out hidx, List.filter_nil, List.head?_nil, if_neg (by simp), Config.leaves,
      List.getElem?_eq_none hidx, Option.getD_none]

theorem mem_tuples (hfits : c.Fits) :
    t ∈ c.tuples idx ↔ ∃ edge k, c.Hits idx edge k ∧ t = edge * 9 + k := by
  have hnone : (∀ bits, c.runs[idx]? ≠ some (.traced bits)) →
      ¬∃ edge k, c.Hits idx edge k ∧ t = edge * 9 + k := by
    rintro hnot ⟨edge, k, ⟨-, bits, hbits, -⟩, -⟩
    exact hnot bits hbits
  rw [Config.tuples, Config.traced, hfits.traceFile, Config.leaves]
  cases hrun : c.runs[idx]? with
  | none => exact iff_of_false List.not_mem_nil (hnone fun bits => by rw [hrun]; simp)
  | some run =>
    cases run with
    | skipped => exact iff_of_false List.not_mem_nil (hnone fun bits => by rw [hrun]; simp)
    | failed => exact iff_of_false List.not_mem_nil (hnone fun bits => by rw [hrun]; simp)
    | traced bits =>
      rw [Option.getD_some]
      dsimp only [aflShowmap]
      rw [List.mem_map]
      constructor
      · rintro ⟨line, hline, rfl⟩
        obtain ⟨e, b, hbit, hne, rfl⟩ := mem_cminLines.mp hline
        exact ⟨e, b, ⟨hne, bits, hrun, hbit⟩,
          tupleIndex_line (classifyCounts_le (List.mem_of_getElem? hbit))⟩
      · rintro ⟨e, b, ⟨hne, bits', hget', hbit⟩, rfl⟩
        rw [hrun, Option.some_inj, Run.traced.injEq] at hget'
        subst hget'
        exact ⟨e * 1000 + b, mem_cminLines.mpr ⟨e, b, hbit, hne, rfl⟩,
          tupleIndex_line (classifyCounts_le (List.mem_of_getElem? hbit))⟩

theorem Config.Fits.tuple_lt (h : c.Fits) (ht : t ∈ c.tuples idx) : t < c.maxTuple := by
  obtain ⟨edge, k, hhits, rfl⟩ := (mem_tuples h).mp ht
  have hk := hhits.le
  obtain ⟨-, bits, hrun, hbit⟩ := hhits
  have hedge : edge < bits.length := by
    obtain ⟨hlt, -⟩ := List.getElem?_eq_some_iff.mp hbit
    rwa [classifyCounts, List.length_map] at hlt
  have hlen := h.runs bits (List.mem_of_getElem? hrun)
  rw [Config.maxTuple]
  omega

/-- The items of the type that is chosen hold the size. -/
theorem lt_detectTypeCode {size : ℕ} (h : size < 256 ^ 8) :
    size < 256 ^ (detectTypeCode size).getD 8 := by
  cases hfind : detectTypeCode size with
  | none => exact h
  | some itemsize =>
    have hsize := List.find?_some hfind
    exact of_decide_eq_true hsize

theorem detectTypeCode_pos (size : ℕ) : 0 < (detectTypeCode size).getD 8 := by
  cases hfind : detectTypeCode size with
  | none => decide
  | some itemsize =>
    have hmem := List.mem_of_find?_eq_some hfind
    have hpos : ∀ itemsize ∈ itemSizes, 0 < itemsize := by decide
    exact hpos itemsize hmem

theorem Config.tupleIndexItemsize_pos (c : Config) : 0 < c.tupleIndexItemsize := by
  rw [Config.tupleIndexItemsize]
  split
  · exact detectTypeCode_pos _
  · decide

theorem Config.Fits.maxTuple_lt (h : c.Fits) : c.maxTuple < 256 ^ c.tupleIndexItemsize := by
  have hmap := h.map
  rw [Config.tupleIndexItemsize]
  rw [Config.maxTuple, Config.mapSize] at hmap ⊢
  cases hsize : c.aflMapSize with
  | none =>
    rw [Option.getD_none]
    decide
  | some size =>
    rw [hsize, Option.getD_some] at hmap
    exact lt_detectTypeCode hmap

theorem Config.Fits.lt_maxFileIndex (h : c.Fits) (hidx : idx < c.runs.length) :
    idx < c.maxFileIndex := by
  have hlt := lt_detectTypeCode h.files
  rw [Config.maxFileIndex, Config.fileIndexItemsize]
  omega

end Traces

/-! ## Reading a pack -/

section Pack
variable {c : Config} {pack ext tuples : List ℕ} {pos count : ℕ}

theorem readPack_append (h : c.readPack pack pos count = .ok tuples) :
    c.readPack (pack ++ ext) pos count = .ok tuples := by
  rw [Config.readPack] at h ⊢
  by_cases hle : count ≤ (pack.drop (pos / c.tupleIndexItemsize)).length
  · rw [if_pos hle] at h
    rw [List.drop_append, List.length_append, if_pos (hle.trans (Nat.le_add_right ..)),
      List.take_append_of_le_length hle, h]
  · rw [if_neg hle] at h
    cases h

theorem readPack_last (hpos : pos = pack.length * c.tupleIndexItemsize) :
    c.readPack (pack ++ tuples) pos tuples.length = .ok tuples := by
  rw [Config.readPack, hpos, Nat.mul_div_cancel _ c.tupleIndexItemsize_pos]
  rw [List.drop_left, if_pos le_rfl, List.take_length]

end Pack

/-! ## One worker -/

/-- What a worker has noted of the files it has traced. -/
structure Config.Noted (c : Config) (traced : List ℕ) (w : Worker) : Prop where
  length : w.m.length = c.maxTuple
  first : ∀ t x, w.m[t]? = some x → (∀ idx ∈ traced, t ∈ c.tuples idx → x ≤ idx) ∧
    (x = c.maxFileIndex ∨ x ∈ traced ∧ t ∈ c.tuples x)
  counts : Counts w.counter fun t => (traced.map fun idx => (c.tuples idx).count t).sum
  pos : w.packPos = w.tracePack.length * c.tupleIndexItemsize

section Worker
variable {c : Config} {w : Worker} {traced r m : List ℕ} {i idx : ℕ}

theorem noted_start (c : Config) : c.Noted [] c.worker where
  length := List.length_replicate
  first t x hget := by
    refine ⟨fun idx hmem => absurd hmem List.not_mem_nil, Or.inl ?_⟩
    exact List.eq_of_mem_replicate (List.mem_of_getElem? hget)
  counts := counts_empty
  pos := (Nat.zero_mul _).symm

/-- Every tuple of the file is noted, unless an earlier file is. -/
theorem noteTuples_spec (idx : ℕ) (used : Bool) (hr : ∀ t ∈ r, t < m.length) : ∃ m' used',
    noteTuples idx r (m, used) = some (m', used') ∧ m'.length = m.length ∧
      (∀ t x, m[t]? = some x → m'[t]? = some (if t ∈ r then min idx x else x)) ∧
      (used' = false → m' = m) ∧ (used = true → used' = true) := by
  induction r generalizing m used with
  | nil => exact ⟨m, used, rfl, rfl, fun t x h => by simpa using h, fun _ => rfl, id⟩
  | cons s r ih =>
    rw [List.forall_mem_cons] at hr
    rw [noteTuples, List.getElem?_eq_getElem hr.1, Option.bind_some]
    by_cases hlt : idx < m[s]
    · rw [if_pos hlt]
      obtain ⟨m', used', hnote, hlen, hget, hused, hkeep⟩ :=
        ih true (m := m.set s idx) (by rw [List.length_set]; exact hr.2)
      rw [List.length_set] at hlen
      refine ⟨m', used', hnote, hlen, fun t x hx => ?_, fun hfalse => ?_, fun _ => hkeep rfl⟩
      · by_cases hts : t = s
        · subst hts
          rw [List.getElem?_eq_getElem hr.1, Option.some_inj] at hx
          have hself : (m.set t idx)[t]? = some idx := List.getElem?_set_self hr.1
          rw [hget t idx hself, if_pos List.mem_cons_self, min_self, ite_self, ← hx,
            min_eq_left hlt.le]
        · rw [hget t x (by rwa [List.getElem?_set_ne (Ne.symm hts)])]
          simp only [List.mem_cons, hts, false_or]
      · rw [hkeep rfl] at hfalse
        exact absurd hfalse (by decide)
    · rw [if_neg hlt]
      obtain ⟨m', used', hnote, hlen, hget, hused, hkeep⟩ := ih used hr.2
      refine ⟨m', used', hnote, hlen, fun t x hx => ?_, hused, hkeep⟩
      rw [hget t x hx]
      by_cases hts : t = s
      · subst hts
        rw [List.getElem?_eq_getElem hr.1, Option.some_inj] at hx
        rw [if_pos List.mem_cons_self, min_eq_right (hx ▸ not_lt.mp hlt), ite_self]
      · simp only [List.mem_cons, hts, false_or]

theorem Config.Noted.counts_concat (h : c.Noted traced w) (idx : ℕ) :
    Counts (update w.counter (c.tuples idx))
      fun t => ((traced ++ [idx]).map fun idx => (c.tuples idx).count t).sum := by
  refine (h.counts.update (c.tuples idx)).congr fun t => ?_
  rw [List.map_append, List.sum_append, List.map_singleton, List.sum_singleton]

/-- A file is traced: it is noted, its trace can be read from the pack if it is needed, and what
was in the pack before stays there. -/
theorem Config.Noted.traceStep (h : c.Noted traced w) (hfits : c.Fits) (i idx : ℕ) :
    ∃ w' record, c.traceStep i idx w = some (w', record) ∧ c.Noted (traced ++ [idx]) w' ∧
      w'.running = w.running ∧ (∃ ext, w'.tracePack = w.tracePack ++ ext) ∧
      (∀ r, record = some r → r.worker = i ∧
        c.readPack w'.tracePack r.pos r.tupleCount = .ok (c.tuples idx)) ∧
      ∀ t x : ℕ, w'.m[t]? = some x → w.m[t]? = some x ∨ x = idx ∧ record.isSome := by
  have hlt : ∀ t ∈ c.tuples idx, t < w.m.length := fun t ht => by
    rw [h.length]
    exact hfits.tuple_lt ht
  have hall : (c.tuples idx).all fun t => t < 256 ^ c.tupleIndexItemsize := by
    rw [List.all_eq_true]
    exact fun t ht => decide_eq_true ((hfits.tuple_lt ht).trans hfits.maxTuple_lt)
  obtain ⟨m', used, hnote, hlen, hget, hused, -⟩ := noteTuples_spec idx false hlt
  -- a crash leaves no tuples, so it does not matter whether it is skipped
  have hnoted : (if !(c.traced idx).crashed || !c.crashDir then
      noteTuples idx (c.tuples idx) (w.m, false) else some (w.m, false)) = some (m', used) := by
    split
    · exact hnote
    · next hskip =>
      have hcrash : (c.traced idx).crashed = true := by
        by_contra hfalse
        exact hskip (by simp [hfalse])
      rw [crashed_iff, beq_iff_eq, List.length_eq_zero_iff] at hcrash
      rw [hcrash, noteTuples] at hnote
      exact hnote
  have hfirst : ∀ t x : ℕ, m'[t]? = some x →
      (∀ q ∈ traced ++ [idx], t ∈ c.tuples q → x ≤ q) ∧
      (x = c.maxFileIndex ∨ x ∈ traced ++ [idx] ∧ t ∈ c.tuples x) := by
    intro t x hx
    obtain ⟨ht, -⟩ := List.getElem?_eq_some_iff.mp hx
    rw [hlen] at ht
    have hold := List.getElem?_eq_getElem ht
    obtain ⟨hle, hcases⟩ := h.first t _ hold
    rw [hget t _ hold, Option.some_inj] at hx
    subst hx
    refine ⟨fun q hq htq => ?_, ?_⟩
    · rcases List.mem_append.mp hq with hq | hq
      · split
        · exact (min_le_right _ _).trans (hle q hq htq)
        · exact hle q hq htq
      · obtain rfl := List.mem_singleton.mp hq
        rw [if_pos htq]
        exact min_le_left _ _
    · have hstay : w.m[t] = c.maxFileIndex ∨
          w.m[t] ∈ traced ++ [idx] ∧ t ∈ c.tuples w.m[t] :=
        hcases.imp id fun hmem => ⟨List.mem_append_left _ hmem.1, hmem.2⟩
      split
      · next htuple =>
        rcases min_choice idx w.m[t] with heq | heq
        · rw [heq]
          exact Or.inr ⟨List.mem_append_right _ (List.mem_singleton_self idx), htuple⟩
        · rwa [heq]
      · exact hstay
  have hkept : ∀ t x : ℕ, m'[t]? = some x → w.m[t]? = some x ∨ x = idx ∧ used = true := by
    intro t x hx
    obtain ⟨ht, -⟩ := List.getElem?_eq_some_iff.mp hx
    rw [hlen] at ht
    have hold := List.getElem?_eq_getElem ht
    cases used with
    | false =>
      rw [hused rfl] at hx
      exact Or.inl hx
    | true =>
      rw [hget t _ hold, Option.some_inj] at hx
      split at hx
      · rcases min_choice idx w.m[t] with heq | heq
        · exact Or.inr ⟨hx.symm.trans heq, rfl⟩
        · exact Or.inl (hold.trans (congrArg some (heq.symm.trans hx)))
      · exact Or.inl (hold.trans (congrArg some hx))
  rw [Config.traceStep]
  dsimp only
  rw [if_pos hall, hnoted, Option.map_some]
  cases used with
  | false =>
    refine ⟨_, _, rfl, ⟨hlen.trans h.length, hfirst, h.counts_concat idx, h.pos⟩, rfl,
      ⟨[], (List.append_nil _).symm⟩, fun r hr => ?_, fun t x hx => ?_⟩
    · cases hr
    · exact (hkept t x hx).imp_right fun hfalse => absurd hfalse.2 (by decide)
  | true =>
    refine ⟨_, _, rfl, ⟨hlen.trans h.length, hfirst, h.counts_concat idx, ?_⟩, rfl, ⟨_, rfl⟩,
      fun r hr => ?_, fun t x hx => ?_⟩
    · dsimp only
      rw [List.length_append, Nat.add_mul, h.pos]
    · rw [Option.some_inj] at hr
      subst hr
      exact ⟨rfl, readPack_last h.pos⟩
    · exact (hkept t x hx).imp_right fun hnew => ⟨hnew.1, rfl⟩

end Worker

/-! ## The system -/

def jobFiles (jobs : List (Option (List ℕ))) : List ℕ := jobs.flatMap fun job => job.getD []

/-- Every file is in a batch that waits, in the hands of a worker, or traced by a worker. What the
main process will need has been sent to it. -/
structure Config.Inv (c : Config) (traced : ℕ → List ℕ) (s : System) : Prop where
  noted : ∀ i < c.workers, c.Noted (traced i) (s.workers i)
  files : (jobFiles s.jobQueue : Multiset ℕ) + ∑ i ∈ Finset.range c.workers,
    ((traced i : Multiset ℕ) + (s.workers i).batch) = Multiset.range c.runs.length
  jobs : ∃ batches k, s.jobQueue = batches.map some ++ List.replicate k none ∧
    k + (s.resultQueue ++ s.results).length = c.workers ∧ (k < c.workers → batches = [])
  once : (s.resultQueue ++ s.results).Nodup
  ended : ∀ i, i ∈ s.resultQueue ++ s.results ↔ i < c.workers ∧ (s.workers i).running = false
  idle : ∀ i < c.workers, (s.workers i).running = false → (s.workers i).batch = []
  records : ∀ idx r, (idx, some r) ∈ s.progressQueue ∨ (idx, r) ∈ s.traceInfo →
    r.worker < c.workers ∧
      c.readPack (s.workers r.worker).tracePack r.pos r.tupleCount = .ok (c.tuples idx)
  infos : ∀ i < c.workers, ∀ t x : ℕ, (s.workers i).m[t]? = some x → x ≠ c.maxFileIndex →
    ∃ r, (x, some r) ∈ s.progressQueue ∨ (x, r) ∈ s.traceInfo
  messages : s.received + s.progressQueue.length = ∑ i ∈ Finset.range c.workers, (traced i).length

section System
variable {c : Config} {s t : System} {traced : ℕ → List ℕ} {i k n : ℕ}

/-- Two sums that differ in one term. -/
theorem sum_replace {M : Type} [AddCommMonoid M] {f g : ℕ → M} (hi : i < n)
    (h : ∀ j ≠ i, g j = f j) :
    ∑ j ∈ Finset.range n, f j + g i = ∑ j ∈ Finset.range n, g j + f i := by
  have hmem : i ∈ Finset.range n := Finset.mem_range.mpr hi
  rw [← Finset.add_sum_erase _ f hmem, ← Finset.add_sum_erase _ g hmem,
    Finset.sum_congr rfl fun j hj => (h j (Finset.ne_of_mem_erase hj)).symm]
  abel

theorem jobFiles_append (jobs jobs' : List (Option (List ℕ))) :
    jobFiles (jobs ++ jobs') = jobFiles jobs ++ jobFiles jobs' := List.flatMap_append ..

theorem jobFiles_batches (batches : List (List ℕ)) :
    jobFiles (batches.map some) = batches.flatten := by
  rw [jobFiles, List.flatMap_map, List.flatten_eq_flatMap]
  rfl

theorem jobFiles_ends (k : ℕ) : jobFiles (List.replicate k none) = [] := by
  rw [jobFiles, List.flatMap_eq_nil_iff]
  intro job hjob
  rw [List.eq_of_mem_replicate hjob]
  rfl

theorem inv_start (c : Config) : c.Inv (fun _ => []) c.start where
  noted i _ := noted_start c
  files := by
    have hzero : ∑ i ∈ Finset.range c.workers,
        ((([] : List ℕ) : Multiset ℕ) + ((c.start.workers i).batch : Multiset ℕ)) = 0 :=
      Finset.sum_eq_zero fun _ _ => rfl
    rw [hzero, add_zero, Config.start, jobFiles_append, jobFiles_batches, jobFiles_ends,
      List.append_nil, flatten_batches]
    rfl
  jobs := ⟨c.batches, c.workers, rfl, rfl, fun h => absurd h (lt_irrefl _)⟩
  once := List.nodup_nil
  ended i := by
    refine iff_of_false List.not_mem_nil ?_
    rintro ⟨-, hfalse⟩
    cases hfalse
  idle i _ _ := rfl
  records idx r h := by
    rcases h with h | h <;> exact absurd h List.not_mem_nil
  infos i _ t x hx hne := by
    refine absurd ?_ hne
    exact List.eq_of_mem_replicate (List.mem_of_getElem? hx)
  messages := by
    rw [List.length_nil, Finset.sum_const_zero]
    rfl

/-- What holds of all workers before one changes, and of the one that changes. -/
theorem update_forall {workers : ℕ → Worker} {P : ℕ → Worker → Prop} {w : Worker}
    (h : ∀ j ≠ i, P j (workers j)) (hw : P i w) (j : ℕ) : P j (Function.update workers i w j) := by
  by_cases hj : j = i
  · subst hj
    rwa [Function.update_self]
  · rw [Function.update_of_ne hj]
    exact h j hj

theorem Config.Noted.takeBatch {w : Worker} {files : List ℕ} (h : c.Noted files w)
    (batch : List ℕ) : c.Noted files (w.takeBatch batch) :=
  ⟨h.length, h.first, h.counts, h.pos⟩

theorem Config.Noted.stop {w : Worker} {files : List ℕ} (h : c.Noted files w) :
    c.Noted files w.stop :=
  ⟨h.length, h.first, h.counts, h.pos⟩

/-- The records and the firsts of the tuples are as before when only the batch or the state of a
worker changes. -/
theorem Config.Inv.sameNotes (h : c.Inv traced s) {w : Worker}
    (hpack : w.tracePack = (s.workers i).tracePack) (hm : w.m = (s.workers i).m) :
    (∀ idx r, (idx, some r) ∈ s.progressQueue ∨ (idx, r) ∈ s.traceInfo → r.worker < c.workers ∧
      c.readPack (Function.update s.workers i w r.worker).tracePack r.pos r.tupleCount =
        .ok (c.tuples idx)) ∧
    ∀ j < c.workers, ∀ t x : ℕ, (Function.update s.workers i w j).m[t]? = some x →
      x ≠ c.maxFileIndex → ∃ r, (x, some r) ∈ s.progressQueue ∨ (x, r) ∈ s.traceInfo := by
  have hpacks : ∀ j, (Function.update s.workers i w j).tracePack = (s.workers j).tracePack :=
    update_forall (P := fun j w => w.tracePack = (s.workers j).tracePack) (fun _ _ => rfl) hpack
  have hms : ∀ j, (Function.update s.workers i w j).m = (s.workers j).m :=
    update_forall (P := fun j w => w.m = (s.workers j).m) (fun _ _ => rfl) hm
  refine ⟨fun idx r hr => ?_, fun j hj t x hx => ?_⟩
  · rw [hpacks]
    exact h.records idx r hr
  · rw [hms] at hx
    exact h.infos j hj t x hx

theorem Config.Inv.takeBatch (h : c.Inv traced s) (hi : i < c.workers)
    (hrun : (s.workers i).running = true) (hbatch : (s.workers i).batch = []) {batch : List ℕ}
    {jobs : List (Option (List ℕ))} (hjobs : s.jobQueue = some batch :: jobs) :
    c.Inv traced { s with
      jobQueue := jobs
      workers := Function.update s.workers i ((s.workers i).takeBatch batch) } where
  noted := update_forall (P := fun j w => j < c.workers → c.Noted (traced j) w)
    (fun j _ => h.noted j) fun hi => (h.noted i hi).takeBatch batch
  files := by
    have hsum := sum_replace (f := fun j => (traced j : Multiset ℕ) + (s.workers j).batch)
      (g := fun j => (traced j : Multiset ℕ) +
        (Function.update s.workers i ((s.workers i).takeBatch batch) j).batch) hi
      fun j hj => by rw [Function.update_of_ne hj]
    rw [Function.update_self, Worker.takeBatch, hbatch, Multiset.coe_nil, add_zero,
      add_comm (traced i : Multiset ℕ), ← add_assoc, add_right_cancel_iff] at hsum
    have hfiles := h.files
    rw [hjobs, jobFiles, List.flatMap_cons, Option.getD_some, ← jobFiles, ← Multiset.coe_add,
      add_comm (batch : Multiset ℕ), add_assoc, add_comm (batch : Multiset ℕ), hsum] at hfiles
    exact hfiles
  jobs := by
    obtain ⟨batches, k, hqueue, hends, hnone⟩ := h.jobs
    cases batches with
    | nil =>
      rw [hqueue, List.map_nil, List.nil_append] at hjobs
      have hmem : some batch ∈ List.replicate k (none : Option (List ℕ)) := by
        rw [hjobs]
        exact List.mem_cons_self
      cases List.eq_of_mem_replicate hmem
    | cons b batches =>
      rw [hqueue, List.map_cons, List.cons_append, List.cons.injEq] at hjobs
      exact ⟨batches, k, hjobs.2.symm, hends, fun hlt => absurd (hnone hlt) (List.cons_ne_nil _ _)⟩
  once := h.once
  ended j := by
    refine (h.ended j).trans (and_congr_right fun _ => ?_)
    exact update_forall (w := (s.workers i).takeBatch batch)
      (P := fun j w => (s.workers j).running = false ↔ w.running = false) (fun j _ => Iff.rfl)
      Iff.rfl j
  idle := update_forall
    (P := fun j w => j < c.workers → w.running = false → w.batch = []) (fun j _ => h.idle j)
    fun _ hfalse => by
      rw [Worker.takeBatch, hrun] at hfalse
      cases hfalse
  records := (h.sameNotes (w := (s.workers i).takeBatch batch) rfl rfl).1
  infos := (h.sameNotes (w := (s.workers i).takeBatch batch) rfl rfl).2
  messages := h.messages

/-- A worker that takes the end of the jobs ends, and its result is on the way. -/
theorem Config.Inv.takeEnd (h : c.Inv traced s) (hi : i < c.workers)
    (hrun : (s.workers i).running = true) (hbatch : (s.workers i).batch = [])
    {jobs : List (Option (List ℕ))} (hjobs : s.jobQueue = none :: jobs) :
    c.Inv traced { s with
      jobQueue := jobs
      workers := Function.update s.workers i (s.workers i).stop
      resultQueue := s.resultQueue ++ [i] } where
  noted := update_forall (P := fun j w => j < c.workers → c.Noted (traced j) w)
    (fun j _ => h.noted j) fun hi => (h.noted i hi).stop
  files := by
    have hfiles := h.files
    rw [hjobs, jobFiles, List.flatMap_cons, Option.getD_none, List.nil_append, ← jobFiles] at hfiles
    rw [← hfiles]
    refine congrArg _ (Finset.sum_congr rfl fun j _ => ?_)
    exact update_forall (w := (s.workers i).stop) (P := fun j w => (traced j : Multiset ℕ) + w.batch =
      (traced j : Multiset ℕ) + (s.workers j).batch) (fun _ _ => rfl) rfl j
  jobs := by
    obtain ⟨batches, k, hqueue, hends, hnone⟩ := h.jobs
    cases batches with
    | nil =>
      rw [hqueue, List.map_nil, List.nil_append] at hjobs
      cases k with
      | zero => cases hjobs
      | succ k =>
        rw [List.replicate_succ, List.cons.injEq] at hjobs
        refine ⟨[], k, hjobs.2.symm, ?_, fun _ => rfl⟩
        rw [← hends]
        simp only [List.length_append, List.length_singleton]
        omega
    | cons b batches =>
      rw [hqueue, List.map_cons, List.cons_append, List.cons.injEq] at hjobs
      cases hjobs.1
  once := by
    have hnot : i ∉ s.resultQueue ++ s.results := fun hmem => by
      have hfalse := ((h.ended i).mp hmem).2
      rw [hrun] at hfalse
      cases hfalse
    rw [List.append_assoc, List.singleton_append, List.perm_middle.nodup_iff, List.nodup_cons]
    exact ⟨hnot, h.once⟩
  ended j := by
    have hmem : j ∈ s.resultQueue ++ [i] ++ s.results ↔ j = i ∨ j ∈ s.resultQueue ++ s.results := by
      rw [List.append_assoc, List.singleton_append, List.perm_middle.mem_iff, List.mem_cons]
    rw [hmem, h.ended j]
    dsimp only
    by_cases hj : j = i
    · subst hj
      rw [Function.update_self]
      exact iff_of_true (Or.inl rfl) ⟨hi, rfl⟩
    · rw [Function.update_of_ne hj]
      exact or_iff_right hj
  idle := update_forall
    (P := fun j w => j < c.workers → w.running = false → w.batch = []) (fun j _ => h.idle j)
    fun _ _ => hbatch
  records := (h.sameNotes (w := (s.workers i).stop) rfl rfl).1
  infos := (h.sameNotes (w := (s.workers i).stop) rfl rfl).2
  messages := h.messages

/-- A worker traces a file, and sends the record of its trace when it is needed. -/
theorem Config.Inv.trace (h : c.Inv traced s) (hfits : c.Fits) (hi : i < c.workers)
    (hrun : (s.workers i).running = true) {idx : ℕ} {batch : List ℕ}
    (hbatch : (s.workers i).batch = idx :: batch) : ∃ w record,
      c.traceStep i idx (s.workers i) = some (w, record) ∧
      c.Inv (Function.update traced i (traced i ++ [idx])) { s with
        workers := Function.update s.workers i (w.takeBatch batch)
        progressQueue := s.progressQueue ++ [(idx, record)] } := by
  obtain ⟨w, record, hstep, hnoted, hrun', ⟨ext, hpack⟩, hread, hfirst⟩ :=
    (h.noted i hi).traceStep hfits i idx
  refine ⟨w, record, hstep, ?_, ?_, h.jobs, h.once, fun j => ?_, ?_, ?_, ?_, ?_⟩
  · intro j hj
    dsimp only
    by_cases hji : j = i
    · subst hji
      rw [Function.update_self, Function.update_self]
      exact hnoted.takeBatch batch
    · rw [Function.update_of_ne hji, Function.update_of_ne hji]
      exact h.noted j hj
  · rw [← h.files]
    refine congrArg _ (Finset.sum_congr rfl fun j _ => ?_)
    dsimp only
    by_cases hji : j = i
    · subst hji
      rw [Function.update_self, Function.update_self, Worker.takeBatch, hbatch, Multiset.coe_add,
        Multiset.coe_add, List.append_assoc, List.singleton_append]
    · rw [Function.update_of_ne hji, Function.update_of_ne hji]
  · refine (h.ended j).trans (and_congr_right fun _ => ?_)
    exact update_forall (w := w.takeBatch batch)
      (P := fun j w => (s.workers j).running = false ↔ w.running = false) (fun j _ => Iff.rfl)
      (by rw [Worker.takeBatch, hrun']) j
  · refine update_forall (P := fun j w => j < c.workers → w.running = false → w.batch = [])
      (fun j _ => h.idle j) fun _ hfalse => ?_
    rw [Worker.takeBatch, hrun', hrun] at hfalse
    cases hfalse
  · intro q r hr
    have hcases : ((q, some r) ∈ s.progressQueue ∨ (q, r) ∈ s.traceInfo) ∨
        q = idx ∧ record = some r := by
      rcases hr with hr | hr
      · rcases List.mem_append.mp hr with hr | hr
        · exact Or.inl (Or.inl hr)
        · rw [List.mem_singleton, Prod.mk.injEq] at hr
          exact Or.inr ⟨hr.1, hr.2.symm⟩
      · exact Or.inl (Or.inr hr)
    rcases hcases with hold | ⟨rfl, hnew⟩
    · obtain ⟨hlt, hold⟩ := h.records q r hold
      refine ⟨hlt, ?_⟩
      dsimp only
      by_cases hri : r.worker = i
      · rw [hri] at hold ⊢
        rw [Function.update_self, Worker.takeBatch, hpack]
        exact readPack_append hold
      · rwa [Function.update_of_ne hri]
    · obtain ⟨hworker, hlast⟩ := hread r hnew
      refine ⟨hworker ▸ hi, ?_⟩
      dsimp only
      rw [hworker, Function.update_self]
      exact hlast
  · intro j hj t x hx hne
    dsimp only at hx
    have hold : ∀ y, (∃ r, (y, some r) ∈ s.progressQueue ∨ (y, r) ∈ s.traceInfo) →
        ∃ r, (y, some r) ∈ s.progressQueue ++ [(idx, record)] ∨ (y, r) ∈ s.traceInfo :=
      fun y ⟨r, hr⟩ => ⟨r, hr.imp_left (List.mem_append_left _)⟩
    by_cases hji : j = i
    · subst hji
      rw [Function.update_self, Worker.takeBatch] at hx
      rcases hfirst t x hx with hx | ⟨rfl, hsome⟩
      · exact hold x (h.infos j hj t x hx hne)
      · obtain ⟨r, rfl⟩ := Option.isSome_iff_exists.mp hsome
        exact ⟨r, Or.inl (List.mem_append_right _ (List.mem_singleton_self _))⟩
    · rw [Function.update_of_ne hji] at hx
      exact hold x (h.infos j hj t x hx hne)
  · have hsum := sum_replace (f := fun j => (traced j).length)
      (g := fun j => (Function.update traced i (traced i ++ [idx]) j).length) hi
      fun j hj => by rw [Function.update_of_ne hj]
    rw [Function.update_self, List.length_append, List.length_singleton] at hsum
    have hmessages := h.messages
    dsimp only
    rw [List.length_append, List.length_singleton]
    omega

theorem Config.Inv.progress (h : c.Inv traced s) {idx : ℕ} {record : Option Record}
    (hk : s.progressQueue[k]? = some (idx, record)) :
    c.Inv traced { s with
      progressQueue := s.progressQueue.eraseIdx k
      received := s.received + 1
      traceInfo := (record.map fun r => (idx, r)).toList ++ s.traceInfo } := by
  obtain ⟨hlt, hget⟩ := List.getElem?_eq_some_iff.mp hk
  have hperm : ((idx, record) :: s.progressQueue.eraseIdx k).Perm s.progressQueue := by
    rw [← hget]
    exact List.getElem_cons_eraseIdx_perm hlt
  have hinfo : ∀ q r, (q, r) ∈ (record.map fun r => (idx, r)).toList ↔
      q = idx ∧ record = some r := by
    intro q r
    cases record with
    | none => simp
    | some r' =>
      simp only [Option.map_some, Option.toList_some, List.mem_singleton, Prod.mk.injEq,
        Option.some_inj]
      exact and_congr_right fun _ => eq_comm
  refine ⟨h.noted, h.files, h.jobs, h.once, h.ended, h.idle, fun q r hr => ?_,
    fun j hj t x hx hne => ?_, ?_⟩
  · refine h.records q r ?_
    rcases hr with hr | hr
    · exact Or.inl (hperm.subset (List.mem_cons_of_mem _ hr))
    · rcases List.mem_append.mp hr with hr | hr
      · obtain ⟨rfl, rfl⟩ := (hinfo q r).mp hr
        exact Or.inl (hperm.subset List.mem_cons_self)
      · exact Or.inr hr
  · obtain ⟨r, hr⟩ := h.infos j hj t x hx hne
    refine ⟨r, ?_⟩
    rcases hr with hr | hr
    · rcases List.mem_cons.mp (hperm.symm.subset hr) with heq | hr
      · rw [Prod.mk.injEq] at heq
        exact Or.inr (List.mem_append_left _ ((hinfo x r).mpr ⟨heq.1, heq.2.symm⟩))
      · exact Or.inl hr
    · exact Or.inr (List.mem_append_right _ hr)
  · have hlen := hperm.length_eq
    rw [List.length_cons] at hlen
    have hmessages := h.messages
    dsimp only
    omega

theorem Config.Inv.result (h : c.Inv traced s) (hk : s.resultQueue[k]? = some i) :
    c.Inv traced { s with
      resultQueue := s.resultQueue.eraseIdx k, results := s.results ++ [i] } := by
  obtain ⟨hlt, hget⟩ := List.getElem?_eq_some_iff.mp hk
  have hperm : (s.resultQueue.eraseIdx k ++ (s.results ++ [i])).Perm
      (s.resultQueue ++ s.results) := by
    have hcons : (i :: s.resultQueue.eraseIdx k).Perm s.resultQueue := by
      rw [← hget]
      exact List.getElem_cons_eraseIdx_perm hlt
    refine List.Perm.trans ?_ (hcons.append_right s.results)
    rw [← List.append_assoc, List.cons_append]
    exact List.perm_append_singleton i _
  refine ⟨h.noted, h.files, ?_, hperm.nodup_iff.mpr h.once,
    fun j => hperm.mem_iff.trans (h.ended j), h.idle, h.records, h.infos, h.messages⟩
  obtain ⟨batches, k, hqueue, hends, hnone⟩ := h.jobs
  exact ⟨batches, k, hqueue, by rw [← hends, ← hperm.length_eq], hnone⟩

end System

end AflPlusPlus.CminWorkers
