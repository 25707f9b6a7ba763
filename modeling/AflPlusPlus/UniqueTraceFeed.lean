import AflPlusPlus.SaveIfInterestingRuns

/-!
# The unique-trace abstraction

An input goes to the sanitizer builds when its bucketed trace has a checksum that was not
marked before. The mark is set at the checksum of the trace, but it is looked up at the
checksum of the power schedules, which only the schedules from FAST to RARE compute.
-/

namespace AflPlusPlus.Fuzzer
open ByteWords CoverageMap FavoredSet VirginMap

namespace AflState
variable (cfg : Config) (e : Environment)

/-! ## Only the sanitizer block touches the bitmap -/

theorem keepAsCrash_feed (l : Locals) (s : AflState) :
    (keepAsCrash l s).2.nFuzzDup = s.nFuzzDup ∧ (keepAsCrash l s).2.sanExecs = s.sanExecs := by
  unfold keepAsCrash
  dsimp only
  split
  · exact ⟨rfl, rfl⟩
  · split
    · exact ⟨rfl, rfl⟩
    · split <;> exact ⟨rfl, rfl⟩

theorem feed_of_records {s t : AflState} (h : t.records = s.records) :
    t.nFuzzDup = s.nFuzzDup ∧ t.sanExecs = s.sanExecs :=
  ⟨congrArg Records.nFuzzDup h, congrArg Records.sanExecs h⟩

theorem maySaveFault_feed (fuel : ℕ) (l : Locals) (s : AflState) :
    (maySaveFault cfg e fuel l s).2.nFuzzDup = s.nFuzzDup ∧
      (maySaveFault cfg e fuel l s).2.sanExecs = s.sanExecs := by
  rcases maySaveFault_cases cfg e fuel l s with hsame | ⟨l', t, ht, hkeep⟩
  · exact feed_of_records hsame
  · obtain ⟨hdup, hexecs⟩ := keepAsCrash_feed l' t
    obtain ⟨hdup', hexecs'⟩ := feed_of_records ht
    rw [hkeep]
    exact ⟨hdup.trans hdup', hexecs.trans hexecs'⟩

theorem keepIfNewBits_feed (fuel : ℕ) (l : Locals) (s : AflState) :
    (keepIfNewBits cfg e fuel l s).2.nFuzzDup = s.nFuzzDup ∧
      (keepIfNewBits cfg e fuel l s).2.sanExecs = s.sanExecs := by
  have hlooked : (if cfg.sanAbstraction = .coverageIncrease ∧ l.feedSan then (l, s)
      else lookForNewBits cfg l s).2.records = s.records := by
    split
    · rfl
    · exact lookForNewBits_records cfg l s
  unfold keepIfNewBits
  generalize (if cfg.sanAbstraction = .coverageIncrease ∧ l.feedSan then (l, s)
    else lookForNewBits cfg l s) = looked at hlooked
  dsimp only
  rw [← (feed_of_records hlooked).1, ← (feed_of_records hlooked).2]
  split
  · split
    · split <;> exact ⟨rfl, rfl⟩
    · exact maySaveFault_feed ..
  · obtain ⟨hdup, hexecs⟩ := feed_of_records
      (saveToQueue_records cfg e { looked.1 with fault := looked.1.sanFault } looked.2)
    split
    · obtain ⟨hdup', hexecs'⟩ := maySaveFault_feed cfg e fuel
        (saveToQueue cfg e { looked.1 with fault := looked.1.sanFault } looked.2).2.1
        (saveToQueue cfg e { looked.1 with fault := looked.1.sanFault } looked.2).2.2
      exact ⟨hdup'.trans hdup, hexecs'.trans hexecs⟩
    · exact ⟨hdup, hexecs⟩

/-- The loop over the builds keeps the bitmap and executes at least one build. -/
theorem runSanitizers_feed (ks : List ℕ) (l : Locals) (s : AflState) :
    (runSanitizers e ks l s).2.nFuzzDup = s.nFuzzDup ∧
      s.sanExecs ≤ (runSanitizers e ks l s).2.sanExecs ∧
      (ks ≠ [] → s.sanExecs < (runSanitizers e ks l s).2.sanExecs) := by
  induction ks generalizing l s with
  | nil => exact ⟨rfl, le_rfl, fun h => absurd rfl h⟩
  | cons k ks ih =>
    unfold runSanitizers
    dsimp only
    split
    · exact ⟨rfl, Nat.le_succ _, fun _ => Nat.lt_succ_self _⟩
    · obtain ⟨hdup, hexecs, -⟩ := ih
        { l with
          len := e.writeToTestcase (s.execs + s.sanExecs) l.len false
          sanFault := .ok }
        { s with
          sanExecs := s.sanExecs + 1
          sanCaseStatus := if e.sanTarget s.sanExecs k ≠ .ok then s.sanCaseStatus ||| sanCrashOnly
            else s.sanCaseStatus }
      exact ⟨hdup, Nat.le_of_succ_le hexecs, fun _ => hexecs⟩

/-- The test on a trace that is raw or bucketed, as the flag `classified` says. -/
theorem feedUnique_spec {l : Locals} {s : AflState} (traceBits : Mem) (hl : l.feedSan = false)
    (htrace : s.traceBits = if l.classified then classifyCounts s.geometry traceBits
      else traceBits) :
    (feedUnique e l s).1.feedSan = !s.nFuzzDup (l.cksum.setWidth 32) ∧
      (feedUnique e l s).2.nFuzzDup = (if s.nFuzzDup (l.cksum.setWidth 32) then s.nFuzzDup
        else Function.update s.nFuzzDup (s.hash32 e (classifyCounts s.geometry traceBits)) true) ∧
      (feedUnique e l s).2.sanExecs = s.sanExecs := by
  have hclass : (if l.classified then s else s.classify) =
      { s with traceBits := classifyCounts s.geometry traceBits } := by
    cases hc : l.classified with
    | true =>
      rw [hc, if_pos rfl] at htrace
      rw [if_pos rfl, ← htrace]
    | false =>
      rw [hc, if_neg Bool.false_ne_true] at htrace
      rw [if_neg Bool.false_ne_true, classify, htrace]
  unfold feedUnique
  rw [hclass]
  dsimp only
  cases s.nFuzzDup (l.cksum.setWidth 32) with
  | true => exact ⟨hl, rfl, rfl⟩
  | false => exact ⟨rfl, rfl, rfl⟩

theorem updateFrequency_cksum (l : Locals) (s : AflState) :
    (updateFrequency e l s).1.cksum = if Schedule.hashesInputs s.schedule then
      s.hash64 e (classifyCounts s.geometry s.traceBits) else l.cksum := by
  unfold updateFrequency
  split <;> rfl

end AflState

namespace Call
variable (cfg : Config) (e : Environment)

/-- The input gets as far as the unique-trace test. -/
def Tested (c : Call) : Prop :=
  c.len ≠ 0 ∧ ¬(c.fault = .tmout ∧ cfg.ignoreTimeouts) ∧ c.fault = cfg.crashMode

/-- `cksum_unique`, the checksum of the bucketed trace. -/
def checksum (c : Call) : BitVec 32 :=
  c.before.hash32 e (classifyCounts c.before.geometry c.before.traceBits)

/-- Where the mark is looked up: at the checksum of the power schedules. -/
def lookedUp (c : Call) : BitVec 32 :=
  if Schedule.hashesInputs c.before.schedule then c.checksum e else 0

/-- The call executes a sanitizer build. -/
def Forwarded (c : Call) : Prop := c.before.sanExecs < (c.after cfg e).sanExecs

variable {cfg e}

/-- The marks after a call that gets to the test. -/
def marked (e : Environment) (c : Call) : BitVec 32 → Bool :=
  if c.before.nFuzzDup (c.lookedUp e) then c.before.nFuzzDup
  else Function.update c.before.nFuzzDup (c.checksum e) true

/-- The sanitizer block of a call that gets to the test. -/
theorem consultSanitizers_start (habs : cfg.sanAbstraction = .uniqueTrace)
    (hsan : cfg.sanBinaryLength ≠ 0) (c : Call) :
    let start := AflState.updateFrequency e { len := c.len, fault := c.fault }
      { c.before with sanCaseStatus := 0 }
    let fed := AflState.consultSanitizers cfg e start.1 start.2
    fed.2.nFuzzDup = c.marked e ∧
      (c.before.sanExecs < fed.2.sanExecs ↔ c.before.nFuzzDup (c.lookedUp e) = false) := by
  have hrecords := AflState.updateFrequency_records e { len := c.len, fault := c.fault }
    { c.before with sanCaseStatus := 0 }
  have hcksum := AflState.updateFrequency_cksum e { len := c.len, fault := c.fault }
    { c.before with sanCaseStatus := 0 }
  obtain ⟨classified, needHash, cksum, hlocals, -, htrace⟩ :=
    AflState.updateFrequency_start e c.len c.fault c.before
  dsimp only
  generalize AflState.updateFrequency e { len := c.len, fault := c.fault }
    { c.before with sanCaseStatus := 0 } = start at hrecords hcksum hlocals htrace
  have hgeom : start.2.geometry = c.before.geometry := congrArg Records.geometry hrecords
  have hdup : start.2.nFuzzDup = c.before.nFuzzDup := congrArg Records.nFuzzDup hrecords
  have hexecs : start.2.sanExecs = c.before.sanExecs := congrArg Records.sanExecs hrecords
  have hread : start.1.cksum.setWidth 32 = c.lookedUp e := by
    rw [hcksum]
    unfold lookedUp
    split <;> rfl
  obtain ⟨hfeed, hmark, hsame⟩ := AflState.feedUnique_spec e (l := start.1) (s := start.2)
    c.before.traceBits (by rw [hlocals]) (by rw [hlocals, hgeom]; exact htrace)
  have hsum : start.2.hash32 e (classifyCounts start.2.geometry c.before.traceBits) =
      c.checksum e := by
    unfold checksum AflState.hash32 AflState.hash64
    rw [hgeom]
  rw [hread, hdup] at hfeed
  rw [hread, hdup, hsum] at hmark
  rw [hexecs] at hsame
  unfold AflState.consultSanitizers AflState.decideFeed
  rw [if_neg hsan, habs]
  generalize AflState.feedUnique e start.1 start.2 = fed at hfeed hmark hsame
  dsimp only
  rw [hfeed]
  cases hlook : c.before.nFuzzDup (c.lookedUp e) with
  | true =>
    rw [Bool.not_true, if_neg Bool.false_ne_true]
    refine ⟨hmark, iff_of_false ?_ (by decide)⟩
    rw [hsame]
    exact lt_irrefl _
  | false =>
    obtain ⟨hdup', -, hlt⟩ := AflState.runSanitizers_feed e (List.range cfg.sanBinaryLength)
      fed.1 fed.2
    rw [Bool.not_false, if_pos rfl]
    refine ⟨hdup'.trans hmark, iff_of_true ?_ rfl⟩
    rw [hsame] at hlt
    exact hlt (by rw [Ne, List.range_eq_nil]; exact hsan)

theorem after_tested (habs : cfg.sanAbstraction = .uniqueTrace) (hsan : cfg.sanBinaryLength ≠ 0)
    {c : Call} (h : c.Tested cfg) :
    (c.after cfg e).nFuzzDup = c.marked e ∧
      (c.Forwarded cfg e ↔ c.before.nFuzzDup (c.lookedUp e) = false) := by
  obtain ⟨hlen, hkeep, hfault⟩ := h
  obtain ⟨hmark, hfed⟩ := consultSanitizers_start (e := e) habs hsan c
  unfold Forwarded after AflState.saveIfInteresting
  rw [if_neg hlen, if_neg hkeep]
  dsimp only at hmark hfed ⊢
  rw [if_pos hfault]
  rw [(AflState.keepIfNewBits_feed ..).1, (AflState.keepIfNewBits_feed ..).2]
  exact ⟨hmark, hfed⟩

theorem after_untested {c : Call} (h : ¬c.Tested cfg) :
    (c.after cfg e).nFuzzDup = c.before.nFuzzDup ∧ ¬c.Forwarded cfg e := by
  suffices hfeed : (c.after cfg e).nFuzzDup = c.before.nFuzzDup ∧
      (c.after cfg e).sanExecs = c.before.sanExecs by
    refine ⟨hfeed.1, ?_⟩
    unfold Forwarded
    rw [hfeed.2]
    exact lt_irrefl _
  unfold after AflState.saveIfInteresting
  by_cases hlen : c.len = 0
  · rw [if_pos hlen]
    exact ⟨rfl, rfl⟩
  rw [if_neg hlen]
  by_cases hkeep : c.fault = .tmout ∧ cfg.ignoreTimeouts
  · rw [if_pos hkeep]
    split
    · exact AflState.feed_of_records (AflState.noteFrequency_records ..)
    · exact ⟨rfl, rfl⟩
  · rw [if_neg hkeep]
    dsimp only
    rw [if_neg (fun hfault => h ⟨hlen, hkeep, hfault⟩)]
    obtain ⟨hdup, hexecs⟩ := AflState.feed_of_records (AflState.updateFrequency_records e
      { len := c.len, fault := c.fault } { c.before with sanCaseStatus := 0 })
    rw [(AflState.maySaveFault_feed ..).1, (AflState.maySaveFault_feed ..).2]
    exact ⟨hdup, hexecs⟩

/-- A call adds the mark of its checksum exactly if it is forwarded. -/
theorem after_marks (habs : cfg.sanAbstraction = .uniqueTrace) (hsan : cfg.sanBinaryLength ≠ 0)
    (c : Call) (k : BitVec 32) :
    (c.after cfg e).nFuzzDup k = true ↔
      c.before.nFuzzDup k = true ∨ (c.Forwarded cfg e ∧ c.checksum e = k) := by
  by_cases h : c.Tested cfg
  · obtain ⟨hmark, hfed⟩ := after_tested (e := e) habs hsan h
    rw [hmark, hfed]
    unfold marked
    cases hlook : c.before.nFuzzDup (c.lookedUp e) with
    | true => simp
    | false =>
      by_cases hk : k = c.checksum e
      · simp [hk]
      · simp [Function.update_of_ne hk, Ne.symm hk]
  · obtain ⟨hmark, hfed⟩ := after_untested (e := e) h
    rw [hmark]
    simp [hfed]

/-- The marks that a call finds are those of the inputs forwarded before it. -/
theorem Chained.marks (habs : cfg.sanAbstraction = .uniqueTrace)
    (hsan : cfg.sanBinaryLength ≠ 0) {r : Records} {pre post : List Call} {c : Call}
    (h : Chained cfg e r (pre ++ c :: post)) (k : BitVec 32) :
    c.before.nFuzzDup k = true ↔
      r.nFuzzDup k = true ∨ ∃ d ∈ pre, d.Forwarded cfg e ∧ d.checksum e = k := by
  induction pre generalizing r with
  | nil =>
    have hc : c.before.nFuzzDup = r.nFuzzDup := congrArg Records.nFuzzDup h.1
    rw [hc]
    simp
  | cons d pre ih =>
    have hd : d.before.nFuzzDup = r.nFuzzDup := congrArg Records.nFuzzDup h.1
    have hmark := after_marks (e := e) habs hsan d k
    change (d.after cfg e).records.nFuzzDup k = true ↔ _ at hmark
    rw [ih h.2, hmark, hd, List.exists_mem_cons_iff, or_assoc]

end Call

instance (cfg : Config) (e : Environment) (c : Call) : Decidable (c.Forwarded cfg e) :=
  inferInstanceAs (Decidable (_ < _))

end AflPlusPlus.Fuzzer
