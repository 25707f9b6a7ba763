import AflPlusPlus.SaveIfInterestingRuns

/-!
# Unique crashes and the crash counter

`virgin_crash` summarises the crashes considered so far: for every map byte it tells whether
one of them hit the byte, and whether one of them missed it. A crash is saved when it shows
for some byte what none of them has shown. The counter `total_crashes` is raised in
`keep_as_crash` and, in crash exploration mode, on the way out without new bits; an input
that crashes with new bits in that mode passes neither place.
-/

namespace AflPlusPlus.Fuzzer
open ByteWords CoverageMap FavoredSet VirginMap

/-- What `simplify_trace` writes for a byte that was hit, or missed. -/
def hitStatus (hit : Bool) : Byte := if hit then 128 else 1

/-- The byte is in one of the words that `has_new_bits` looks at. -/
def Scans (g : MapGeometry) (i : ℕ) : Prop := i / 8 < (g.realMapSize + 7) >>> 3

/-- The virgin map has lost exactly the statuses that the crashes in `past` have shown. -/
def Recorded (g : MapGeometry) (past : List (ℕ → Bool)) (virgin : Mem) : Prop :=
  ∀ i, Scans g i → ∀ hit, hitStatus hit &&& virgin i ≠ 0#8 ↔ ∀ t ∈ past, t i ≠ hit

theorem recorded_fresh (g : MapGeometry) : Recorded g [] (fun _ => 0xff) := by
  intro i _ hit
  cases hit <;> simp [hitStatus]

theorem simplifyLookup_eq (b : Byte) : simplifyLookup b = hitStatus (b != 0) := by
  unfold simplifyLookup hitStatus
  by_cases hb : b = 0 <;> simp [hb]

theorem hitStatus_beq (hit : Bool) : (hitStatus hit == 128) = hit := by
  cases hit <;> rfl

theorem countClassLookup8_bne_zero (b : Byte) : (countClassLookup8 b != 0) = (b != 0) := by
  revert b
  decide

section Scan
variable {g : MapGeometry} {past : List (ℕ → Bool)} {virgin traceBits : Mem} {t : ℕ → Bool}

/-- Clearing the status of one crash leaves the other status of the byte alone. -/
theorem hitStatus_and_clear (hit shown : Bool) (v : Byte) :
    hitStatus hit &&& (v &&& ~~~hitStatus shown) ≠ 0#8 ↔
      hitStatus hit &&& v ≠ 0#8 ∧ shown ≠ hit := by
  revert v
  cases hit <;> cases shown <;> decide

theorem Recorded.scan (h : Recorded g past virgin)
    (htrace : ∀ i, Scans g i → traceBits i = hitStatus (t i)) :
    Recorded g (past ++ [t]) (hasNewBits g traceBits virgin).2 := by
  intro i hi hit
  have hclear : (hasNewBits g traceBits virgin).2 i = virgin i &&& ~~~hitStatus (t i) := by
    rw [(hasNewBits_scanned g traceBits virgin).virgin_eq, ← htrace i hi]
    exact if_pos hi
  rw [hclear, hitStatus_and_clear, h i hi hit]
  simp only [List.forall_mem_append, List.forall_mem_singleton]

/-- The scan finds something exactly if the crash shows a byte as none before it did. -/
theorem Recorded.found_iff (h : Recorded g past virgin)
    (htrace : ∀ i, Scans g i → traceBits i = hitStatus (t i)) :
    (hasNewBits g traceBits virgin).1 ≠ 0 ↔ ∃ i, Scans g i ∧ ∀ u ∈ past, u i ≠ t i := by
  rw [← Nat.pos_iff_ne_zero, (hasNewBits_scanned g traceBits virgin).pos_iff]
  constructor
  · rintro ⟨i, hi, hne⟩
    rw [htrace i hi] at hne
    exact ⟨i, hi, (h i hi (t i)).1 hne⟩
  · rintro ⟨i, hi, hnew⟩
    refine ⟨i, hi, ?_⟩
    rw [htrace i hi]
    exact (h i hi (t i)).2 hnew

end Scan

namespace Call
variable (cfg : Config) (e : Environment)

/-- The call has gone through `keep_as_crash`. -/
def considered (c : Call) : Bool := (c.after cfg e).totalCrashes != c.before.totalCrashes

/-- The bytes that the crash considered by the call has hit, as they stand in the simplified
trace that `keep_as_crash` leaves in the buffer. -/
def hits (c : Call) : ℕ → Bool := fun i => (c.after cfg e).traceBits i == 128

/-- The crashes considered in a sequence of calls. -/
def crashes (cs : List Call) : List (ℕ → Bool) :=
  (cs.filter (considered cfg e)).map (hits cfg e)

variable {cfg e}

theorem crashes_cons (c : Call) (cs : List Call) :
    crashes cfg e (c :: cs) =
      if c.considered cfg e then c.hits cfg e :: crashes cfg e cs else crashes cfg e cs := by
  unfold crashes
  rw [List.filter_cons]
  split <;> rfl

theorem considered_of_same {c : Call} (h : (c.after cfg e).records = c.before.records) :
    c.considered cfg e = false := by
  have htotal : (c.after cfg e).totalCrashes = c.before.totalCrashes :=
    congrArg Records.totalCrashes h
  unfold considered
  rw [htotal, bne_self_eq_false]

/-- In normal mode and without sanitizer builds a call leaves the records alone, or it ends in
`keep_as_crash`. -/
theorem after_cases (hmode : cfg.crashMode = .ok) (hsan : cfg.sanBinaryLength = 0) (c : Call) :
    (c.after cfg e).records = c.before.records ∨
      ∃ l t, t.records = c.before.records ∧ c.after cfg e = (AflState.keepAsCrash l t).2 := by
  unfold after
  by_cases hlen : c.len = 0
  · refine .inl ?_
    unfold AflState.saveIfInteresting
    rw [if_pos hlen]
  by_cases hkeep : c.fault = .tmout ∧ cfg.ignoreTimeouts
  · refine .inl ?_
    unfold AflState.saveIfInteresting
    rw [if_neg hlen, if_pos hkeep]
    split
    · exact AflState.noteFrequency_records ..
    · rfl
  rw [AflState.saveIfInteresting_eq e hsan hlen hkeep]
  have hstart := AflState.updateFrequency_records e { len := c.len, fault := c.fault }
    { c.before with sanCaseStatus := 0 }
  obtain ⟨classified, needHash, cksum, hlocals, -, -⟩ :=
    AflState.updateFrequency_start e c.len c.fault c.before
  generalize AflState.updateFrequency e { len := c.len, fault := c.fault }
    { c.before with sanCaseStatus := 0 } = start at hstart hlocals
  dsimp only
  by_cases hfault : c.fault = cfg.crashMode
  · rw [if_pos hfault, AflState.keepIfNewBits_records cfg e c.fuel start.2 (by rw [hlocals])
      (by rw [hlocals]), if_neg (fun h => h.2 hmode)]
    exact .inl hstart
  · rw [if_neg hfault]
    rcases AflState.maySaveFault_cases cfg e c.fuel start.1 start.2 with hsame | ⟨l, t, ht, hkeep⟩
    · exact .inl (hsame.trans hstart)
    · exact .inr ⟨l, t, ht.trans hstart, congrArg Prod.snd hkeep⟩

/-- A run that crashed goes to `keep_as_crash` with its own trace. -/
theorem after_crash (hmode : cfg.crashMode = .ok) (hsan : cfg.sanBinaryLength = 0) (c : Call)
    (hlen : c.len ≠ 0) (hfault : c.fault = .crash) :
    ∃ l t, t.records = c.before.records ∧ c.after cfg e = (AflState.keepAsCrash l t).2 ∧
      (t.traceBits = c.before.traceBits ∨
        t.traceBits = classifyCounts c.before.geometry c.before.traceBits) := by
  have hstart := AflState.updateFrequency_records e { len := c.len, fault := c.fault }
    { c.before with sanCaseStatus := 0 }
  obtain ⟨classified, needHash, cksum, hlocals, -, htrace⟩ :=
    AflState.updateFrequency_start e c.len c.fault c.before
  unfold after
  rw [AflState.saveIfInteresting_eq e hsan hlen (by rw [hfault]; simp)]
  generalize AflState.updateFrequency e { len := c.len, fault := c.fault }
    { c.before with sanCaseStatus := 0 } = start at hstart hlocals htrace
  dsimp only
  rw [if_neg (by rw [hfault, hmode]; decide)]
  refine ⟨start.1, start.2, hstart, ?_, ?_⟩
  · unfold AflState.maySaveFault
    rw [hlocals, hfault]
  · cases classified with
    | true => exact .inr htrace
    | false => exact .inl htrace

/-- `keep_as_crash` below the limit, on the state that a call hands to it. -/
theorem keepAsCrash_recorded {past : List (ℕ → Bool)} {c : Call} {l : Locals} {t : AflState}
    (ht : t.records = c.before.records) (hafter : c.after cfg e = (AflState.keepAsCrash l t).2)
    (hinst : c.before.nonInstrumentedMode = false)
    (hlimit : c.before.savedCrashes < keepUniqueCrash)
    (hpast : Recorded c.before.geometry past c.before.virginCrash) :
    c.considered cfg e = true ∧
      (∀ i, Scans c.before.geometry i → c.hits cfg e i = (t.traceBits i != 0)) ∧
      (c.after cfg e).records = { c.before.records with
        totalCrashes := c.before.totalCrashes + 1
        virginCrash := (c.after cfg e).virginCrash
        savedCrashes := (c.after cfg e).savedCrashes } ∧
      Recorded c.before.geometry (past ++ [c.hits cfg e]) (c.after cfg e).virginCrash ∧
      ((c.after cfg e).savedCrashes = c.before.savedCrashes + 1 ↔
        ∃ i, Scans c.before.geometry i ∧ ∀ u ∈ past, u i ≠ c.hits cfg e i) := by
  have hgeom : t.geometry = c.before.geometry := congrArg Records.geometry ht
  have hvirgin : t.virginCrash = c.before.virginCrash := congrArg Records.virginCrash ht
  have hsaved : t.savedCrashes = c.before.savedCrashes := congrArg Records.savedCrashes ht
  have htotal : t.totalCrashes = c.before.totalCrashes := congrArg Records.totalCrashes ht
  have hmode : t.nonInstrumentedMode = false :=
    (congrArg Records.nonInstrumentedMode ht).trans hinst
  obtain ⟨htrace, hrecords⟩ := AflState.keepAsCrash_spec l t hmode (hsaved ▸ hlimit)
  rw [← hafter] at htrace hrecords
  have hhits : ∀ i, Scans c.before.geometry i → c.hits cfg e i = (t.traceBits i != 0) := by
    intro i hi
    unfold hits
    rw [htrace, simplifyTrace_apply, hgeom, if_pos (scan_word_lt _ hi), simplifyLookup_eq,
      hitStatus_beq]
  have hstatus : ∀ i, Scans c.before.geometry i →
      simplifyTrace t.geometry t.traceBits i = hitStatus (c.hits cfg e i) := by
    intro i hi
    rw [hhits i hi, simplifyTrace_apply, hgeom, if_pos (scan_word_lt _ hi), simplifyLookup_eq]
  rw [hgeom, hvirgin, hsaved, htotal, ht] at hrecords
  rw [hgeom] at hstatus
  have hvirgin' := congrArg Records.virginCrash hrecords
  have hsaved' := congrArg Records.savedCrashes hrecords
  change (c.after cfg e).virginCrash = _ at hvirgin'
  change (c.after cfg e).savedCrashes = _ at hsaved'
  refine ⟨?_, hhits, ?_, ?_, ?_⟩
  · have htotal' := congrArg Records.totalCrashes hrecords
    change (c.after cfg e).totalCrashes = _ at htotal'
    unfold considered
    rw [htotal']
    simp
  · rw [hrecords, hvirgin', hsaved']
  · rw [hvirgin']
    exact hpast.scan hstatus
  · rw [← hpast.found_iff hstatus, hsaved']
    by_cases hnone : (hasNewBits c.before.geometry
        (simplifyTrace c.before.geometry t.traceBits) c.before.virginCrash).1 = 0
    · rw [if_pos hnone]
      simp [hnone]
    · rw [if_neg hnone]
      simp [hnone]

theorem savedCrashes_le_after (hmode : cfg.crashMode = .ok) (hsan : cfg.sanBinaryLength = 0)
    (c : Call) : c.before.savedCrashes ≤ (c.after cfg e).savedCrashes := by
  rcases after_cases (e := e) hmode hsan c with hsame | ⟨l, t, ht, hafter⟩
  · exact (congrArg Records.savedCrashes hsame).ge
  · have hle := AflState.keepAsCrash_savedCrashes l t
    rw [← hafter] at hle
    exact (congrArg Records.savedCrashes ht).ge.trans hle

/-! ## Over a sequence of calls -/

theorem Chained.savedCrashes_le (hmode : cfg.crashMode = .ok) (hsan : cfg.sanBinaryLength = 0)
    {r : Records} {pre post : List Call} {c : Call} (h : Chained cfg e r (pre ++ c :: post)) :
    r.savedCrashes ≤ c.before.savedCrashes := by
  induction pre generalizing r with
  | nil => exact (congrArg Records.savedCrashes h.1).ge
  | cons d pre ih =>
    calc r.savedCrashes
        ≤ d.before.savedCrashes := (congrArg Records.savedCrashes h.1).ge
      _ ≤ (d.after cfg e).savedCrashes := savedCrashes_le_after hmode hsan d
      _ ≤ c.before.savedCrashes := ih h.2

/-- When a call is made, `virgin_crash` stands for the crashes considered before it. -/
theorem Chained.recorded (hmode : cfg.crashMode = .ok) (hsan : cfg.sanBinaryLength = 0)
    {r : Records} {past : List (ℕ → Bool)} {pre post : List Call} {c : Call}
    (h : Chained cfg e r (pre ++ c :: post)) (hinst : r.nonInstrumentedMode = false)
    (hlimit : c.before.savedCrashes < keepUniqueCrash)
    (hpast : Recorded r.geometry past r.virginCrash) :
    c.before.geometry = r.geometry ∧ c.before.nonInstrumentedMode = false ∧
      Recorded r.geometry (past ++ crashes cfg e pre) c.before.virginCrash := by
  induction pre generalizing r past with
  | nil =>
    have hc : c.before.records = r := h.1
    subst hc
    refine ⟨rfl, hinst, ?_⟩
    rw [crashes, List.filter_nil, List.map_nil, List.append_nil]
    exact hpast
  | cons d pre ih =>
    obtain ⟨hd, hrest⟩ := h
    subst hd
    rw [crashes_cons]
    have hlimit' : d.before.savedCrashes < keepUniqueCrash :=
      ((savedCrashes_le_after hmode hsan d).trans (hrest.savedCrashes_le hmode hsan)).trans_lt
        hlimit
    rcases after_cases (e := e) hmode hsan d with hsame | ⟨l, t, ht, hafter⟩
    · rw [if_neg (Bool.not_eq_true _ ▸ considered_of_same hsame)]
      rw [hsame] at hrest
      exact ih hrest hinst hpast
    · obtain ⟨hcons, -, hrecords, hpast', -⟩ :=
        keepAsCrash_recorded ht hafter hinst hlimit' hpast
      have hgeom : (d.after cfg e).records.geometry = d.before.records.geometry := by
        rw [hrecords]
      have hinst' : (d.after cfg e).nonInstrumentedMode = false :=
        (congrArg Records.nonInstrumentedMode hrecords).trans hinst
      have hnext := @ih (d.after cfg e).records (past ++ [d.hits cfg e]) hrest hinst'
        (hgeom ▸ hpast')
      rw [if_pos hcons]
      rw [List.append_assoc] at hnext
      exact ⟨hnext.1.trans hgeom, hnext.2.1, hgeom ▸ hnext.2.2⟩

end Call

/-- Crash uniqueness. Below the limit, in normal mode, with an instrumented target and no
sanitizer builds, a run that crashed is considered with its own hits, and a considered crash
is saved if and only if it shows some map byte as no crash considered before has shown it. -/
theorem crash_saved_iff (cfg : Config) (e : Environment) (hmode : cfg.crashMode = .ok)
    (hsan : cfg.sanBinaryLength = 0) (r : Records) (past : List (ℕ → Bool))
    (hinst : r.nonInstrumentedMode = false) (hpast : Recorded r.geometry past r.virginCrash)
    (pre post : List Call) (c : Call) (hchain : Call.Chained cfg e r (pre ++ c :: post))
    (hlimit : c.before.savedCrashes < keepUniqueCrash) :
    (c.len ≠ 0 → c.fault = .crash → c.considered cfg e = true ∧
      ∀ i, Scans r.geometry i → c.hits cfg e i = (c.before.traceBits i != 0)) ∧
    (c.considered cfg e = true → ((c.after cfg e).savedCrashes = c.before.savedCrashes + 1 ↔
      ∃ i, Scans r.geometry i ∧ ∀ t ∈ past ++ Call.crashes cfg e pre, t i ≠ c.hits cfg e i)) ∧
    (c.considered cfg e = false → (c.after cfg e).savedCrashes = c.before.savedCrashes) := by
  obtain ⟨hgeom, hinst', hrec⟩ := hchain.recorded hmode hsan hinst hlimit hpast
  rw [← hgeom] at hrec ⊢
  refine ⟨fun hlen hfault => ?_, fun hcons => ?_, fun hcons => ?_⟩
  · obtain ⟨l, t, ht, hafter, htrace⟩ := Call.after_crash (e := e) hmode hsan c hlen hfault
    obtain ⟨hcons, hhits, -⟩ := Call.keepAsCrash_recorded ht hafter hinst' hlimit hrec
    refine ⟨hcons, fun i hi => ?_⟩
    rw [hhits i hi]
    rcases htrace with hraw | hclass
    · rw [hraw]
    · rw [hclass, classifyCounts_apply, if_pos (scan_word_lt _ hi), countClassLookup8_bne_zero]
  · rcases Call.after_cases (e := e) hmode hsan c with hsame | ⟨l, t, ht, hafter⟩
    · exact absurd (hcons.symm.trans (Call.considered_of_same hsame)) (by decide)
    · exact (Call.keepAsCrash_recorded ht hafter hinst' hlimit hrec).2.2.2.2
  · rcases Call.after_cases (e := e) hmode hsan c with hsame | ⟨l, t, ht, hafter⟩
    · exact congrArg Records.savedCrashes hsame
    · have hcons' := (Call.keepAsCrash_recorded ht hafter hinst' hlimit hrec).1
      exact absurd (hcons'.symm.trans hcons) (by decide)

/-- A run that crashed after it had hit the first eight bytes, on an empty queue. -/
def firstCrash : Call := ⟨0, 10, .crash, AflState.firstFind⟩

/-- The same input again, after the first one was handled. -/
def secondCrash : Call :=
  ⟨0, 10, .crash, { firstCrash.after {} (AflState.steadyTarget 8) with
    traceBits := AflState.fullTrace 8 }⟩

theorem crash_saved_iff_twice :
    (firstCrash.after {} (AflState.steadyTarget 8)).savedCrashes = 1 ∧
      (secondCrash.after {} (AflState.steadyTarget 8)).savedCrashes ≠
        secondCrash.before.savedCrashes + 1 := by
  obtain ⟨hfirst, hsaved, -⟩ := crash_saved_iff {} (AflState.steadyTarget 8) rfl rfl
    firstCrash.before.records [] rfl (recorded_fresh _) [] [secondCrash] firstCrash
    ⟨rfl, rfl, trivial⟩ (by decide)
  obtain ⟨hcons, hhits⟩ := hfirst (by decide) rfl
  have hone : (firstCrash.after {} (AflState.steadyTarget 8)).savedCrashes = 1 :=
    (hsaved hcons).2 ⟨0, by unfold Scans; decide, by simp [Call.crashes]⟩
  refine ⟨hone, ?_⟩
  obtain ⟨hsecond, hsaved', -⟩ := crash_saved_iff {} (AflState.steadyTarget 8) rfl rfl
    firstCrash.before.records [] rfl (recorded_fresh _) [firstCrash] [] secondCrash
    ⟨rfl, rfl, trivial⟩ (hone.trans_lt (by decide))
  obtain ⟨hcons', hhits'⟩ := hsecond (by decide) rfl
  rw [Ne, hsaved' hcons', Call.crashes_cons, if_pos hcons]
  rintro ⟨i, hi, hnew⟩
  refine hnew _ List.mem_cons_self ?_
  rw [hhits i hi, hhits' i hi]
  rfl

/-! ## The crash counter -/

/-- The bucketed trace has bits that `virgin_bits` still has. -/
def ShowsNewBits (s : AflState) : Prop :=
  (hasNewBits s.geometry (classifyCounts s.geometry s.traceBits) s.virginBits).1 ≠ 0

instance (s : AflState) : Decidable (ShowsNewBits s) := inferInstanceAs (Decidable (_ ≠ _))

/-- What a run that crashed adds to the counter. -/
theorem Call.totalCrashes_after_crash (cfg : Config) (e : Environment)
    (hsan : cfg.sanBinaryLength = 0) (c : Call) (hlen : c.len ≠ 0) (hfault : c.fault = .crash) :
    (c.after cfg e).totalCrashes = c.before.totalCrashes +
      if cfg.crashMode = .crash ∧ ShowsNewBits c.before then 0 else 1 := by
  have hstart := AflState.updateFrequency_records e { len := c.len, fault := c.fault }
    { c.before with sanCaseStatus := 0 }
  obtain ⟨classified, needHash, cksum, hlocals, hvirgin, htrace⟩ :=
    AflState.updateFrequency_start e c.len c.fault c.before
  unfold after
  rw [AflState.saveIfInteresting_eq e hsan hlen (by rw [hfault]; simp)]
  generalize AflState.updateFrequency e { len := c.len, fault := c.fault }
    { c.before with sanCaseStatus := 0 } = start at hstart hlocals hvirgin htrace
  have hgeom : start.2.geometry = c.before.geometry := congrArg Records.geometry hstart
  have htotal : start.2.totalCrashes = c.before.totalCrashes :=
    congrArg Records.totalCrashes hstart
  dsimp only
  by_cases hmode : cfg.crashMode = .crash
  · have hnew := AflState.lookForNewBits_newBits cfg (l := start.1) c.before.traceBits
      (by rw [hlocals, hgeom]; exact htrace)
    rw [hgeom, hvirgin] at hnew
    have hrecords := congrArg Records.totalCrashes (AflState.keepIfNewBits_records cfg e c.fuel
      start.2 (l := start.1) (by rw [hlocals]) (by rw [hlocals]))
    change (AflState.keepIfNewBits cfg e c.fuel start.1 start.2).2.totalCrashes = _ at hrecords
    rw [if_pos (hfault.trans hmode.symm), hrecords, hnew]
    by_cases hshows : ShowsNewBits c.before
    · rw [if_neg (fun h => hshows h.1), if_pos ⟨hmode, hshows⟩]
      exact htotal
    · rw [if_pos ⟨not_not.1 hshows, by rw [hmode]; decide⟩, if_neg (fun h => hshows h.2)]
      exact congrArg (· + 1) htotal
  · rw [if_neg (fun h => hmode (h.symm.trans hfault)), if_neg (fun h => hmode h.1)]
    have hcrash : AflState.maySaveFault cfg e c.fuel start.1 start.2 =
        AflState.keepAsCrash start.1 start.2 := by
      unfold AflState.maySaveFault
      rw [hlocals, hfault]
    rw [hcrash, AflState.keepAsCrash_totalCrashes, htotal]

/-- Every run that crashed is counted exactly once, in every sequence of calls without
sanitizer builds, if and only if none of them shows new bits in crash exploration mode. -/
theorem totalCrashes_counted_iff (cfg : Config) (e : Environment)
    (hsan : cfg.sanBinaryLength = 0) (calls : List Call) :
    (∀ c ∈ calls, c.len ≠ 0 → c.fault = .crash →
      (c.after cfg e).totalCrashes = c.before.totalCrashes + 1) ↔
    ∀ c ∈ calls, c.len ≠ 0 → c.fault = .crash → cfg.crashMode = .crash →
      ¬ShowsNewBits c.before := by
  refine forall₂_congr fun c _ => forall₂_congr fun hlen hfault => ?_
  rw [c.totalCrashes_after_crash cfg e hsan hlen hfault, add_right_inj]
  split
  · rename_i h
    exact iff_of_false (by decide) fun hno => hno h.1 h.2
  · rename_i h
    exact iff_of_true rfl fun hmode hshows => h ⟨hmode, hshows⟩

/-- A target whose runs crash after they have hit the first `n` bytes. -/
def crashingTarget (n : ℕ) : Environment :=
  { AflState.steadyTarget n with target := fun _ _ => ⟨.crash, AflState.fullTrace n, false⟩ }

/-- In crash exploration mode the first crash is queued for its new bits and not counted. -/
theorem totalCrashes_newBits_uncounted :
    firstCrash.len ≠ 0 ∧ firstCrash.fault = .crash ∧
      (firstCrash.after { crashMode := .crash } (crashingTarget 8)).totalCrashes =
        firstCrash.before.totalCrashes := by
  refine ⟨by decide, rfl, ?_⟩
  have hshows : ShowsNewBits firstCrash.before := by decide +kernel
  rw [firstCrash.totalCrashes_after_crash { crashMode := .crash } _ rfl (by decide) rfl,
    if_pos ⟨rfl, hshows⟩, Nat.add_zero]

/-- The crash of an input whose bits are all known. -/
def knownCrash : Call := ⟨0, 10, .crash, { AflState.firstFind with virginBits := fun _ => 0 }⟩

theorem totalCrashes_counted_iff_known :
    (knownCrash.after { crashMode := .crash } (crashingTarget 8)).totalCrashes =
      knownCrash.before.totalCrashes + 1 := by
  refine (totalCrashes_counted_iff { crashMode := .crash } (crashingTarget 8) rfl
    [knownCrash]).2 ?_ knownCrash List.mem_cons_self (by decide) rfl
  intro c hc _ _ _
  rw [List.mem_singleton.1 hc]
  decide +kernel

end AflPlusPlus.Fuzzer
