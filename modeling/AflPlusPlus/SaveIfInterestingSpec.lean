import AflPlusPlus.FavoredSetInvariants
import AflPlusPlus.SaveIfInteresting

/-!
# What `save_if_interesting` keeps

For an ordinary run the bucketed trace decides: the input is queued if and only if the trace
shares a bit with `virgin_bits`, and those bits are cleared. Calibration of the new entry
may clear more, never less.
-/

namespace AflPlusPlus.Fuzzer
open ByteWords CoverageMap FavoredSet VirginMap

/-- The bucketed trace has a bit in common with the virgin map. -/
def SharesBits (g : MapGeometry) (traceBits virgin : Mem) : Prop :=
  ∃ i < g.mapSize, classifyCounts g traceBits i &&& virgin i ≠ 0

/-- The virgin map without the bits of the bucketed trace. -/
def clearBits (g : MapGeometry) (traceBits virgin : Mem) : Mem :=
  fun i => if i < g.mapSize then virgin i &&& ~~~classifyCounts g traceBits i else virgin i

section Scan
variable (g : MapGeometry) (traceBits virgin : Mem)

theorem lt_scan_of_ne_zero (hzero : ∀ i, g.realMapSize ≤ i → i < g.mapSize → traceBits i = 0#8)
    {i : ℕ} (hi : i < g.mapSize) (hne : classifyCounts g traceBits i ≠ 0#8) :
    i / 8 < (g.realMapSize + 7) >>> 3 := by
  have hreal : i < g.realMapSize := by
    by_contra hge
    rw [classifyCounts_apply, if_pos hi, hzero i (by omega) hi, countClassLookup8_zero] at hne
    exact hne rfl
  rw [Nat.shiftRight_eq_div_pow]
  omega

theorem hasNewBits_pos_iff_sharesBits
    (hzero : ∀ i, g.realMapSize ≤ i → i < g.mapSize → traceBits i = 0#8) :
    (hasNewBits g (classifyCounts g traceBits) virgin).1 ≠ 0 ↔ SharesBits g traceBits virgin := by
  rw [← Nat.pos_iff_ne_zero, (hasNewBits_scanned g _ virgin).pos_iff]
  constructor
  · rintro ⟨i, hi, hne⟩
    exact ⟨i, scan_word_lt g hi, hne⟩
  · rintro ⟨i, hi, hne⟩
    refine ⟨i, lt_scan_of_ne_zero g traceBits hzero hi ?_, hne⟩
    intro h0
    rw [h0] at hne
    exact hne BitVec.zero_and

theorem hasNewBits_classified_virgin
    (hzero : ∀ i, g.realMapSize ≤ i → i < g.mapSize → traceBits i = 0#8) :
    (hasNewBits g (classifyCounts g traceBits) virgin).2 = clearBits g traceBits virgin := by
  funext i
  rw [(hasNewBits_scanned g _ virgin).virgin_eq, clearBits]
  by_cases hi : i < g.mapSize
  · rw [if_pos hi]
    by_cases hz : classifyCounts g traceBits i = 0#8
    · rw [hz, BitVec.not_zero, BitVec.and_allOnes, ite_self]
    · rw [if_pos (lt_scan_of_ne_zero g traceBits hzero hi hz)]
  · rw [if_neg hi, if_neg fun h => hi (scan_word_lt g h)]

theorem clearBits_of_not_sharesBits (h : ¬SharesBits g traceBits virgin) :
    clearBits g traceBits virgin = virgin := by
  funext i
  unfold clearBits
  split
  · rename_i hi
    refine and_not_eq_self ?_
    by_contra hne
    exact h ⟨i, hi, hne⟩
  · rfl

theorem clearBits_disjoint {i : ℕ} (hi : i < g.mapSize) :
    classifyCounts g traceBits i &&& clearBits g traceBits virgin i = 0#8 := by
  rw [clearBits, if_pos hi, and_and_not]

end Scan

namespace AflState

/-! ## Calibration only lowers the virgin map -/

/-- From `s` to `t` no entry was added and no virgin bit was set. -/
structure Lowers (s t : AflState) : Prop where
  queuedItems_eq : t.queuedItems = s.queuedItems
  virgin_below : Below t.virginBits s.virginBits

theorem Lowers.refl (s : AflState) : s.Lowers s := ⟨rfl, .rfl⟩

theorem Lowers.trans {s t u : AflState} (h : s.Lowers t) (h' : t.Lowers u) : s.Lowers u :=
  ⟨h'.queuedItems_eq.trans h.queuedItems_eq, h'.virgin_below.trans h.virgin_below⟩

section Lowers
variable (cfg : Config) (e : Environment)

theorem scanVirgin_lowers (s : AflState) : s.Lowers s.scanVirgin.2 :=
  ⟨rfl, hasNewBits_below s.geometry s.traceBits s.virginBits⟩

theorem Calibration.execute_lowers (timeout stageCur : ℕ) (c : Calibration) :
    c.afl.Lowers (c.execute cfg e timeout stageCur).afl := by
  unfold Calibration.execute
  dsimp only
  split
  · exact ⟨rfl, .rfl⟩
  · split
    · exact ⟨rfl, .rfl⟩
    · exact ⟨rfl, .rfl⟩

theorem Calibration.compare_lowers (q : ℕ) (c : Calibration) :
    c.afl.Lowers (c.compare cfg e q).afl := by
  have hscan : c.afl.Lowers c.scan.afl := scanVirgin_lowers c.afl
  unfold Calibration.compare
  dsimp only
  split
  · split
    · exact hscan.trans ⟨rfl, markVariable_below _ _ _ (_, _)⟩
    · exact hscan.trans ⟨rfl, .rfl⟩
  · exact .refl _

theorem Calibration.cycle_lowers (q timeout stageCur : ℕ) (c : Calibration) :
    c.afl.Lowers (c.cycle cfg e q timeout stageCur).afl := by
  have hexec := c.execute_lowers cfg e timeout stageCur
  unfold Calibration.cycle
  split
  · exact .refl _
  · dsimp only
    split
    · exact hexec
    · have hclass : (c.execute cfg e timeout stageCur).afl.Lowers
          (c.execute cfg e timeout stageCur).afl.classify := ⟨rfl, .rfl⟩
      exact (hexec.trans hclass).trans (compare_lowers cfg e q { c.execute cfg e timeout stageCur
        with afl := (c.execute cfg e timeout stageCur).afl.classify })

theorem Calibration.firstLook_lowers (q : ℕ) (c : Calibration) :
    c.afl.Lowers (c.firstLook q).afl := by
  unfold Calibration.firstLook
  split
  · exact ⟨rfl, hasNewBits_below c.afl.geometry c.afl.traceBits c.afl.virginBits⟩
  · exact .refl _

theorem Calibration.cycles_lowers (q timeout : ℕ) (c : Calibration) :
    c.afl.Lowers (c.cycles cfg e q timeout).afl :=
  List.foldlRecOn (motive := fun d : Calibration => c.afl.Lowers d.afl) _ _ (.refl _)
    fun d hd k _ => hd.trans (d.cycle_lowers cfg e q timeout k)

theorem updateBitmapScore_queuedItems (s : QueueState) (q : ℕ) (haveTrace : Bool) :
    (s.updateBitmapScore q haveTrace).queuedItems = s.queuedItems :=
  QueueState.updateBitmapScore_induct (P := fun t => t.queuedItems = s.queuedItems) s q haveTrace
    rfl fun _ ht _ _ _ _ _ _ _ => (QueueState.contest_queuedItems ..).trans ht

theorem Calibration.finish_lowers (q handicap : ℕ) (firstRun : Bool) (c : Calibration) :
    c.afl.Lowers (c.finish cfg e q handicap firstRun).afl :=
  ⟨updateBitmapScore_queuedItems .., .rfl⟩

theorem Calibration.conclude_lowers (q : ℕ) (c : Calibration) :
    c.afl.Lowers (c.conclude q) := by
  unfold Calibration.conclude
  dsimp only
  split <;> split <;> exact ⟨rfl, .rfl⟩

theorem Calibration.unlessAborted_lowers {s : AflState} {f : Calibration → Calibration}
    {c : Calibration} (hc : s.Lowers c.afl) (hf : c.afl.Lowers (f c).afl) :
    s.Lowers (c.unlessAborted f).afl := by
  unfold Calibration.unlessAborted
  split
  · exact hc
  · exact hc.trans hf

theorem Calibration.dummyRun_lowers (timeout : ℕ) (c : Calibration) :
    c.afl.Lowers (c.dummyRun cfg e timeout).afl := by
  unfold Calibration.dummyRun
  split
  · exact c.execute_lowers cfg e timeout _
  · exact .refl _

theorem calibrateCase_lowers (q handicap : ℕ) (fromQueue : Bool) (s : AflState) :
    s.Lowers (s.calibrateCase cfg e q handicap fromQueue).2 := by
  have hstart : s.Lowers (s.startCalibration cfg q).afl := ⟨rfl, .rfl⟩
  refine Lowers.trans (Calibration.unlessAborted_lowers (Calibration.unlessAborted_lowers
    (hstart.trans (Calibration.dummyRun_lowers ..)) ?_) (Calibration.finish_lowers ..))
    (Calibration.conclude_lowers ..)
  exact (Calibration.firstLook_lowers ..).trans (Calibration.cycles_lowers ..)

end Lowers

/-! ## A target that reproduces its trace -/

/-- Every execution gives, after bucketing, the same trace as `traceBits`. -/
def Reproduces (e : Environment) (g : MapGeometry) (traceBits : Mem) : Prop :=
  ∀ n timeout, ∀ i < g.mapSize,
    classifyCounts g (e.target n timeout).traceBits i = classifyCounts g traceBits i

section Steady
variable (cfg : Config) (e : Environment) (g : MapGeometry) (traceBits virgin : Mem) (q : ℕ)

/-- During calibration of an entry with a stable trace: the bits of the trace are cleared and
nothing else is, and the recorded checksum is that of the trace once there is one. -/
structure Steady (s : AflState) : Prop where
  geometry_eq : s.geometry = g
  virgin_eq : s.virginBits = clearBits g traceBits virgin
  cksum : (s.queueBuf q).execCksum = 0 ∨ (s.queueBuf q).execCksum =
    e.xxh3 ((List.range g.mapSize).map (classifyCounts g traceBits))

/-- The buffer holds the bucketed trace. -/
def Bucketed (s : AflState) : Prop :=
  ∀ i < g.mapSize, s.traceBits i = classifyCounts g traceBits i

variable {cfg e g traceBits virgin q}

theorem Bucketed.hash64_eq {s : AflState} (h : Bucketed g traceBits s) (hg : s.geometry = g) :
    s.hash64 e s.traceBits = e.xxh3 ((List.range g.mapSize).map (classifyCounts g traceBits)) := by
  rw [hash64, hg]
  congr 1
  exact List.map_congr_left fun i hi => h i (List.mem_range.1 hi)

theorem Steady.scanVirgin {s : AflState} (h : Steady e g traceBits virgin q s)
    (hb : Bucketed g traceBits s) : Steady e g traceBits virgin q s.scanVirgin.2 := by
  refine ⟨h.geometry_eq, ?_, h.cksum⟩
  change (hasNewBits s.geometry s.traceBits s.virginBits).2 = _
  rw [h.geometry_eq, h.virgin_eq, hasNewBits_of_disjoint]
  intro i hi
  rw [hb i hi]
  exact clearBits_disjoint g traceBits virgin hi

variable (cfg) in
theorem Steady.execute {c : Calibration} (h : Steady e g traceBits virgin q c.afl)
    (timeout stageCur : ℕ) :
    Steady e g traceBits virgin q (c.execute cfg e timeout stageCur).afl ∧
      (c.execute cfg e timeout stageCur).afl.traceBits =
        (e.target c.afl.execs timeout).traceBits := by
  unfold Calibration.execute
  dsimp only
  split
  · exact ⟨{ h with }, rfl⟩
  · split
    · exact ⟨{ h with }, rfl⟩
    · exact ⟨{ h with }, rfl⟩

theorem modifyEntry_entry (s : AflState) (f : QueueEntry → QueueEntry) :
    (s.modifyEntry q f).queueBuf q = f (s.queueBuf q) :=
  Function.update_self ..

theorem Calibration.adoptTrace_execCksum (cksum : BitVec 64) (c : Calibration) :
    ((c.adoptTrace q cksum).afl.queueBuf q).execCksum = cksum := by
  unfold Calibration.adoptTrace
  dsimp only
  rw [modifyEntry_entry]

variable (cfg q) in
theorem startCalibration_execCksum (s : AflState) :
    ((s.startCalibration cfg q).afl.queueBuf q).execCksum =
      if cfg.cmplogMode then 0 else (s.queueBuf q).execCksum := by
  unfold startCalibration
  dsimp only
  rw [modifyEntry_entry]

theorem Calibration.execute_queueBuf (timeout stageCur : ℕ) (c : Calibration) :
    (c.execute cfg e timeout stageCur).afl.queueBuf = c.afl.queueBuf := by
  unfold Calibration.execute
  dsimp only
  split
  · rfl
  · split <;> rfl

theorem Steady.compare {c : Calibration} (h : Steady e g traceBits virgin q c.afl)
    (hb : Bucketed g traceBits c.afl) :
    Steady e g traceBits virgin q (c.compare cfg e q).afl := by
  have hhash := hb.hash64_eq (e := e) h.geometry_eq
  have hscan := h.scanVirgin hb
  unfold Calibration.compare
  dsimp only
  split
  · rename_i hne
    rw [hhash] at hne
    have hzero := h.cksum.resolve_right hne
    rw [if_neg (not_not.2 hzero)]
    refine ⟨hscan.geometry_eq, hscan.virgin_eq, .inr ?_⟩
    rw [Calibration.adoptTrace_execCksum, hhash]
  · exact h

theorem Steady.cycle {c : Calibration} (h : Steady e g traceBits virgin q c.afl)
    (hrep : Reproduces e g traceBits) (timeout stageCur : ℕ) :
    Steady e g traceBits virgin q (c.cycle cfg e q timeout stageCur).afl := by
  obtain ⟨hexec, htrace⟩ := h.execute cfg timeout stageCur
  unfold Calibration.cycle
  split
  · exact h
  · dsimp only
    split
    · exact hexec
    · have hb : Bucketed g traceBits (c.execute cfg e timeout stageCur).afl.classify := by
        intro i hi
        change classifyCounts _ _ i = _
        rw [hexec.geometry_eq, htrace]
        exact hrep _ _ i hi
      exact Steady.compare (c := { c.execute cfg e timeout stageCur with
        afl := (c.execute cfg e timeout stageCur).afl.classify })
        { hexec with } hb

theorem Steady.cycles {c : Calibration} (h : Steady e g traceBits virgin q c.afl)
    (hrep : Reproduces e g traceBits) (timeout : ℕ) :
    Steady e g traceBits virgin q (c.cycles cfg e q timeout).afl :=
  List.foldlRecOn (motive := fun d : Calibration => Steady e g traceBits virgin q d.afl) _ _ h
    fun _ hd k _ => hd.cycle hrep timeout k

theorem Steady.firstLook {c : Calibration} (h : Steady e g traceBits virgin q c.afl)
    (hb : (c.afl.queueBuf q).execCksum ≠ 0 → Bucketed g traceBits c.afl) :
    Steady e g traceBits virgin q (c.firstLook q).afl := by
  unfold Calibration.firstLook
  split
  · exact Steady.scanVirgin (s := { c.afl with firstTrace := c.afl.traceBits })
      { h with } (hb ‹_›)
  · exact h

theorem Calibration.conclude_virgin (c : Calibration) :
    (c.conclude q).virginBits = c.afl.virginBits := by
  unfold Calibration.conclude
  dsimp only
  split <;> split <;> rfl

theorem Calibration.unlessAborted_finish_virgin (handicap : ℕ) (firstRun : Bool)
    (c : Calibration) :
    (c.unlessAborted (fun c => c.finish cfg e q handicap firstRun)).afl.virginBits =
      c.afl.virginBits := by
  unfold Calibration.unlessAborted
  split <;> rfl

variable (cfg) in
theorem Steady.start {s : AflState} (h : Steady e g traceBits virgin q s) (timeout : ℕ)
    (hb : Bucketed g traceBits s) :
    Steady e g traceBits virgin q ((s.startCalibration cfg q).dummyRun cfg e timeout).afl ∧
      ((((s.startCalibration cfg q).dummyRun cfg e timeout).afl.queueBuf q).execCksum ≠ 0 →
        Bucketed g traceBits ((s.startCalibration cfg q).dummyRun cfg e timeout).afl) := by
  have hcksum := startCalibration_execCksum cfg q s
  unfold Calibration.dummyRun
  cases hmode : cfg.cmplogMode with
  | true =>
    rw [hmode, if_pos rfl] at hcksum
    have hsteady : Steady e g traceBits virgin q (s.startCalibration cfg q).afl :=
      ⟨h.geometry_eq, h.virgin_eq, .inl hcksum⟩
    refine ⟨(hsteady.execute cfg timeout _).1, fun hne => ?_⟩
    rw [if_pos rfl, Calibration.execute_queueBuf] at hne
    exact absurd hcksum hne
  | false =>
    rw [hmode, if_neg Bool.false_ne_true] at hcksum
    exact ⟨⟨h.geometry_eq, h.virgin_eq, hcksum ▸ h.cksum⟩, fun _ => hb⟩

/-- Calibrating an entry with a stable trace leaves `virgin_bits` alone. -/
theorem Steady.calibrateCase {s : AflState} (h : Steady e g traceBits virgin q s)
    (hb : Bucketed g traceBits s) (hrep : Reproduces e g traceBits) (handicap : ℕ)
    (fromQueue : Bool) :
    (s.calibrateCase cfg e q handicap fromQueue).2.virginBits =
      clearBits g traceBits virgin := by
  obtain ⟨hstart, hb'⟩ := h.start cfg (useTmout cfg fromQueue) hb
  unfold AflState.calibrateCase
  dsimp only
  rw [Calibration.conclude_virgin, Calibration.unlessAborted_finish_virgin]
  generalize (s.startCalibration cfg q).dummyRun cfg e (useTmout cfg fromQueue) = c at hstart hb'
  unfold Calibration.unlessAborted
  split
  · exact hstart.virgin_eq
  · exact ((hstart.firstLook hb').cycles hrep _).virgin_eq

end Steady

/-! ## The new entry -/

section Enqueue
variable (cfg : Config) (e : Environment) (l : Locals)

/-- `t` is `s` with one more entry, whose checksum is zero or that of the trace. -/
structure Enqueued (s t : AflState) : Prop where
  geometry_eq : t.geometry = s.geometry
  queuedItems_eq : t.queuedItems = s.queuedItems + 1
  virgin_eq : t.virginBits = s.virginBits
  trace_eq : t.traceBits = s.traceBits
  cksum : (t.queueBuf s.queuedItems).execCksum = 0 ∨
    (t.queueBuf s.queuedItems).execCksum = s.hash64 e s.traceBits

variable {e} {s t : AflState}

theorem appendEntry_enqueued (s : AflState) (len : ℕ) : Enqueued e s (s.appendEntry cfg len) := by
  refine ⟨rfl, rfl, rfl, rfl, .inl ?_⟩
  unfold appendEntry QueueState.addToQueue
  dsimp only
  rw [Function.update_self]

theorem Enqueued.noteNewCov (h : Enqueued e s t) (newBits : ℕ) :
    Enqueued e s (t.noteNewCov s.queuedItems newBits) := by
  unfold AflState.noteNewCov
  split
  · refine { h with cksum := ?_ }
    dsimp only
    rw [modifyEntry_entry]
    exact h.cksum
  · exact h

theorem Enqueued.noteChecksum (h : Enqueued e s t) (rehash : Bool) :
    Enqueued e s (t.noteChecksum e s.queuedItems rehash) := by
  unfold AflState.noteChecksum
  split
  · refine { h with cksum := .inr ?_ }
    rw [modifyEntry_entry]
    dsimp only
    rw [hash64, hash64, h.geometry_eq, h.trace_eq]
  · exact h

theorem Enqueued.linkFrequency (h : Enqueued e s t) (cksum : BitVec 64) :
    Enqueued e s (t.linkFrequency s.queuedItems cksum) := by
  unfold AflState.linkFrequency
  split
  · refine { h with cksum := ?_ }
    dsimp only
    rw [modifyEntry_entry]
    exact h.cksum
  · exact h

theorem enqueue_enqueued (s : AflState) : Enqueued e s (s.enqueue cfg e l) :=
  (((appendEntry_enqueued cfg s l.len).noteNewCov l.newBits).noteChecksum _).linkFrequency l.cksum

end Enqueue

/-! ## The flow of one call -/

section Flow
variable (cfg : Config) (e : Environment) (s₀ : AflState)

/-- Before the check against `virgin_bits`: the flag `classified` says whether the buffer
holds the raw or the bucketed trace. -/
structure Before (l : Locals) (s : AflState) : Prop where
  geometry_eq : s.geometry = s₀.geometry
  queuedItems_eq : s.queuedItems = s₀.queuedItems
  virgin_eq : s.virginBits = s₀.virginBits
  trace_eq : s.traceBits = if l.classified then classifyCounts s₀.geometry s₀.traceBits
    else s₀.traceBits
  sanFault_eq : l.sanFault = .ok

/-- After it: the bits of the bucketed trace are cleared and `new_bits` tells whether there
were any. -/
structure After (l : Locals) (s : AflState) : Prop where
  geometry_eq : s.geometry = s₀.geometry
  queuedItems_eq : s.queuedItems = s₀.queuedItems
  virgin_eq : s.virginBits = clearBits s₀.geometry s₀.traceBits s₀.virginBits
  newBits_iff : l.newBits ≠ 0 ↔ SharesBits s₀.geometry s₀.traceBits s₀.virginBits
  trace_eq : l.newBits ≠ 0 → s.traceBits = classifyCounts s₀.geometry s₀.traceBits
  sanFault_eq : l.sanFault = .ok

variable {cfg e s₀} {l : Locals} {s : AflState}

theorem noteFrequency_before (h : Before s₀ l s) (cksum : BitVec 64) :
    Before s₀ l (s.noteFrequency cksum) := by
  unfold noteFrequency
  dsimp only
  split
  · exact { h with }
  · exact h

/-- Bucketing the raw trace and raising the flag. -/
theorem Before.classify (h : Before s₀ l s) (hl : l.classified = false) :
    Before s₀ { l with classified := true } s.classify := by
  refine { h with trace_eq := ?_ }
  change classifyCounts s.geometry s.traceBits = _
  rw [h.trace_eq, hl, h.geometry_eq]
  rfl

theorem Before.updateFrequency (h : Before s₀ l s) (hl : l.classified = false) :
    Before s₀ (updateFrequency e l s).1 (updateFrequency e l s).2 ∧
      (updateFrequency e l s).1.classified = Schedule.hashesInputs s.schedule := by
  unfold AflState.updateFrequency
  cases hs : Schedule.hashesInputs s.schedule with
  | true =>
    refine ⟨noteFrequency_before ?_ _, rfl⟩
    have hc := h.classify hl
    exact { hc with }
  | false => exact ⟨h, hl⟩

variable (cfg) in
theorem Before.lookForNewBits (h : Before s₀ l s)
    (hzero : ∀ i, s₀.geometry.realMapSize ≤ i → i < s₀.geometry.mapSize → s₀.traceBits i = 0#8) :
    After s₀ (lookForNewBits cfg l s).1 (lookForNewBits cfg l s).2 := by
  have hiff := hasNewBits_pos_iff_sharesBits s₀.geometry s₀.traceBits s₀.virginBits hzero
  have hvirgin := hasNewBits_classified_virgin s₀.geometry s₀.traceBits s₀.virginBits hzero
  have htrace := h.trace_eq
  unfold AflState.lookForNewBits
  cases hl : l.classified with
  | true =>
    rw [hl, if_pos rfl] at htrace
    refine ⟨h.geometry_eq, h.queuedItems_eq, ?_, ?_, fun _ => htrace, h.sanFault_eq⟩
    · change (hasNewBits s.geometry s.traceBits s.virginBits).2 = _
      rw [h.geometry_eq, htrace, h.virgin_eq, hvirgin]
    · change (hasNewBits s.geometry s.traceBits s.virginBits).1 ≠ 0 ↔ _
      rw [h.geometry_eq, htrace, h.virgin_eq, hiff]
  | false =>
    rw [hl, if_neg Bool.false_ne_true] at htrace
    obtain ⟨ret, traceBits', virgin', hcall, hpair, -, hclass⟩ :=
      hasNewBitsUnclassified_refines cfg.skimImpl s₀.geometry s₀.traceBits s₀.virginBits hzero
    have hret := congrArg Prod.fst hpair
    have hvir := congrArg Prod.snd hpair
    dsimp only at hret hvir
    have hscan : s.scanVirginUnclassified cfg.skimImpl =
        (ret, { s with traceBits := traceBits', virginBits := virgin' }) := by
      unfold scanVirginUnclassified
      rw [h.geometry_eq, htrace, h.virgin_eq, hcall]
    rw [if_neg Bool.false_ne_true, hscan]
    refine ⟨h.geometry_eq, h.queuedItems_eq, hvir.trans hvirgin, ?_, hclass, h.sanFault_eq⟩
    change ret ≠ 0 ↔ _
    rw [hret, hiff]

/-- Without new bits the check has changed nothing. -/
theorem After.before (h : After s₀ l s) (hl : l.newBits = 0)
    (htrace : s.traceBits = if l.classified then classifyCounts s₀.geometry s₀.traceBits
      else s₀.traceBits) : Before s₀ l s := by
  refine { h with virgin_eq := ?_, trace_eq := htrace }
  rw [h.virgin_eq]
  exact clearBits_of_not_sharesBits _ _ _ fun hs => h.newBits_iff.2 hs hl

/-- Sanitizer builds that report nothing leave everything the check depends on alone. -/
theorem runSanitizers_ok (ks : List ℕ) (hsan : ∀ n, ∀ k ∈ ks, e.sanTarget n k = .ok)
    (l : Locals) (s : AflState) (hl : l.sanFault = .ok) :
    ∃ len n, runSanitizers e ks l s = ({ l with len := len }, { s with sanExecs := n }) := by
  induction ks generalizing l s with
  | nil => exact ⟨l.len, s.sanExecs, rfl⟩
  | cons k ks ih =>
    have hok := hsan s.sanExecs k List.mem_cons_self
    unfold runSanitizers
    dsimp only
    rw [hok, if_neg (by decide), if_neg (by decide)]
    obtain ⟨len, n, hrest⟩ := ih (fun n k hk => hsan n k (List.mem_cons_of_mem _ hk))
      { l with len := e.writeToTestcase (s.execs + s.sanExecs) l.len false, sanFault := .ok }
      { s with sanExecs := s.sanExecs + 1 } rfl
    refine ⟨len, n, hrest.trans ?_⟩
    rw [hl]

theorem Before.feedSimplified (h : Before s₀ l s) :
    Before s₀ (feedSimplified e l s).1 (feedSimplified e l s).2 := by
  unfold AflState.feedSimplified
  dsimp only
  split
  · exact h
  · exact { h with }

theorem Before.feedUnique (h : Before s₀ l s) :
    Before s₀ (feedUnique e l s).1 (feedUnique e l s).2 := by
  have hclass : Before s₀ { l with classified := true }
      (if l.classified then s else s.classify) := by
    cases hl : l.classified with
    | true =>
      have htrace := h.trace_eq
      rw [hl] at htrace
      exact { h with trace_eq := htrace }
    | false => exact h.classify hl
  unfold AflState.feedUnique
  dsimp only
  generalize (if l.classified then s else s.classify) = t at hclass
  split
  · exact hclass
  · exact { hclass with }

variable (cfg) in
theorem lookForNewBits_classified (l : Locals) (s : AflState) :
    (lookForNewBits cfg l s).1.classified = true := rfl

theorem lookForNewBits_traceBits (l : Locals) (s : AflState) (hl : l.classified = true) :
    (lookForNewBits cfg l s).2.traceBits = s.traceBits := by
  unfold AflState.lookForNewBits
  rw [hl]
  rfl

variable (cfg) in
/-- The coverage abstraction either feeds an input whose new bits it has cleared, or leaves
the state as it was; the raw trace must not be without new bits. -/
theorem Before.feedCoverageIncrease (h : Before s₀ l s) (hfeed : l.feedSan = false)
    (hzero : ∀ i, s₀.geometry.realMapSize ≤ i → i < s₀.geometry.mapSize → s₀.traceBits i = 0#8)
    (hflag : l.classified = true ∨ SharesBits s₀.geometry s₀.traceBits s₀.virginBits) :
    (Before s₀ (feedCoverageIncrease cfg l s).1 (feedCoverageIncrease cfg l s).2 ∧
      (feedCoverageIncrease cfg l s).1.feedSan = false) ∨
    (After s₀ (feedCoverageIncrease cfg l s).1 (feedCoverageIncrease cfg l s).2 ∧
      (feedCoverageIncrease cfg l s).1.feedSan = true) := by
  have hafter := h.lookForNewBits cfg hzero
  have hclassified := lookForNewBits_classified cfg l s
  unfold AflState.feedCoverageIncrease
  dsimp only
  split
  · exact .inr ⟨{ hafter with }, rfl⟩
  · rename_i hnone
    rw [not_not] at hnone
    have hl : l.classified = true :=
      hflag.resolve_right fun hs => hafter.newBits_iff.2 hs hnone
    refine .inl ⟨hafter.before hnone ?_, hfeed⟩
    rw [lookForNewBits_traceBits l s hl, h.trace_eq, hl, hclassified]

variable (cfg s₀) in
/-- What the second check needs to know: it is skipped exactly if the coverage abstraction
has made it already. -/
def Ready (l : Locals) (s : AflState) : Prop :=
  (Before s₀ l s ∧ ¬(cfg.sanAbstraction = .coverageIncrease ∧ l.feedSan = true)) ∨
  (After s₀ l s ∧ cfg.sanAbstraction = .coverageIncrease ∧ l.feedSan = true)

theorem Before.decideFeed (h : Before s₀ l s) (hfeed : l.feedSan = false)
    (hzero : ∀ i, s₀.geometry.realMapSize ≤ i → i < s₀.geometry.mapSize → s₀.traceBits i = 0#8)
    (hflag : cfg.sanAbstraction ≠ .coverageIncrease ∨ l.classified = true ∨
      SharesBits s₀.geometry s₀.traceBits s₀.virginBits) :
    Ready cfg s₀ (decideFeed cfg e l s).1 (decideFeed cfg e l s).2 := by
  unfold AflState.decideFeed
  cases habs : cfg.sanAbstraction with
  | simplifyTrace => exact .inl ⟨h.feedSimplified, fun hc => absurd (habs ▸ hc.1) (by decide)⟩
  | uniqueTrace => exact .inl ⟨h.feedUnique, fun hc => absurd (habs ▸ hc.1) (by decide)⟩
  | coverageIncrease =>
    rcases h.feedCoverageIncrease cfg hfeed hzero
      (hflag.resolve_left (not_not.2 habs)) with ⟨hb, hf⟩ | ⟨ha, hf⟩
    · exact .inl ⟨hb, fun hc => absurd (hf ▸ hc.2) (by decide)⟩
    · exact .inr ⟨ha, habs, hf⟩

theorem Ready.runSanitizers {ks : List ℕ} (h : Ready cfg s₀ l s)
    (hsan : ∀ n, ∀ k ∈ ks, e.sanTarget n k = .ok) :
    Ready cfg s₀ (runSanitizers e ks l s).1 (runSanitizers e ks l s).2 := by
  have hl : l.sanFault = .ok := h.elim (·.1.sanFault_eq) (·.1.sanFault_eq)
  obtain ⟨len, n, hrun⟩ := runSanitizers_ok ks hsan l s hl
  rw [hrun]
  rcases h with ⟨hb, hf⟩ | ⟨ha, hf⟩
  · exact .inl ⟨{ hb with }, hf⟩
  · exact .inr ⟨{ ha with }, hf⟩

theorem Before.consultSanitizers (h : Before s₀ l s) (hfeed : l.feedSan = false)
    (hzero : ∀ i, s₀.geometry.realMapSize ≤ i → i < s₀.geometry.mapSize → s₀.traceBits i = 0#8)
    (hsan : ∀ n, ∀ k < cfg.sanBinaryLength, e.sanTarget n k = .ok)
    (hflag : cfg.sanBinaryLength = 0 ∨ cfg.sanAbstraction ≠ .coverageIncrease ∨
      l.classified = true ∨ SharesBits s₀.geometry s₀.traceBits s₀.virginBits) :
    Ready cfg s₀ (consultSanitizers cfg e l s).1 (consultSanitizers cfg e l s).2 := by
  unfold AflState.consultSanitizers
  split
  · exact .inl ⟨h, fun hc => absurd (hfeed ▸ hc.2) (by decide)⟩
  · have hready := h.decideFeed (e := e) hfeed hzero (hflag.resolve_left ‹_›)
    dsimp only
    split
    · exact hready.runSanitizers fun n k hk => hsan n k (List.mem_range.1 hk)
    · exact hready

/-- What the call leaves behind: the entry, the ending and the virgin map. -/
structure Kept (e : Environment) (s₀ : AflState) (r : Ending × AflState) : Prop where
  added_iff : r.2.queuedItems = s₀.queuedItems + 1 ↔
    SharesBits s₀.geometry s₀.traceBits s₀.virginBits
  not_added : ¬SharesBits s₀.geometry s₀.traceBits s₀.virginBits →
    r.1 = .returned false ∧ r.2.queuedItems = s₀.queuedItems
  virgin_below : Below r.2.virginBits (clearBits s₀.geometry s₀.traceBits s₀.virginBits)
  virgin_eq : ¬SharesBits s₀.geometry s₀.traceBits s₀.virginBits ∨
    Reproduces e s₀.geometry s₀.traceBits →
    r.2.virginBits = clearBits s₀.geometry s₀.traceBits s₀.virginBits

theorem After.drop (h : After s₀ l s) (hnone : l.newBits = 0) :
    Kept e s₀ (.returned false, s) := by
  have hshare : ¬SharesBits s₀.geometry s₀.traceBits s₀.virginBits :=
    fun hs => h.newBits_iff.2 hs hnone
  refine ⟨iff_of_false ?_ hshare, fun _ => ⟨rfl, h.queuedItems_eq⟩, ?_, fun _ => h.virgin_eq⟩
  · rw [h.queuedItems_eq]
    omega
  · rw [h.virgin_eq]
    exact .rfl

theorem After.save (h : After s₀ l s) (hnew : l.newBits ≠ 0) (ending : Ending) :
    Kept e s₀ (ending, (saveToQueue cfg e l s).2.2) := by
  have hshare := h.newBits_iff.1 hnew
  have henq := enqueue_enqueued (e := e) cfg l s
  have hlow := calibrateCase_lowers cfg e s.queuedItems (s.queueCycle - 1) false (s.enqueue cfg e l)
  have hvirgin : (s.enqueue cfg e l).virginBits =
      clearBits s₀.geometry s₀.traceBits s₀.virginBits := henq.virgin_eq.trans h.virgin_eq
  refine ⟨iff_of_true ?_ hshare, fun hno => absurd hshare hno, ?_, fun hrep => ?_⟩
  · exact hlow.queuedItems_eq.trans (henq.queuedItems_eq.trans (by rw [h.queuedItems_eq]))
  · exact hvirgin ▸ hlow.virgin_below
  · have hb : Bucketed s₀.geometry s₀.traceBits (s.enqueue cfg e l) := by
      intro i _
      rw [henq.trace_eq, h.trace_eq hnew]
    have hgeom := henq.geometry_eq.trans h.geometry_eq
    refine Steady.calibrateCase ⟨hgeom, hvirgin, henq.cksum.imp_right fun hc => ?_⟩ hb
      (hrep.resolve_left (not_not.2 hshare)) _ _
    rw [hc, hash64, h.geometry_eq, h.trace_eq hnew]

theorem maySaveFault_ok (fuel : ℕ) (hl : l.fault = .ok) :
    maySaveFault cfg e fuel l s = (.returned l.keeping, s) := by
  unfold maySaveFault
  rw [hl]

theorem Ready.keepIfNewBits (h : Ready cfg s₀ l s) (hmode : cfg.crashMode = .ok) (fuel : ℕ)
    (hzero : ∀ i, s₀.geometry.realMapSize ≤ i → i < s₀.geometry.mapSize → s₀.traceBits i = 0#8) :
    Kept e s₀ (keepIfNewBits cfg e fuel l s) := by
  have hafter : ∃ l' s', After s₀ l' s' ∧
      (if cfg.sanAbstraction = .coverageIncrease ∧ l.feedSan then (l, s)
        else lookForNewBits cfg l s) = (l', s') := by
    rcases h with ⟨hb, hf⟩ | ⟨ha, hf⟩
    · exact ⟨_, _, hb.lookForNewBits _ hzero, if_neg hf⟩
    · exact ⟨l, s, ha, if_pos hf⟩
  obtain ⟨l', s', ha, heq⟩ := hafter
  unfold AflState.keepIfNewBits
  rw [heq]
  dsimp only
  by_cases hnone : l'.newBits = 0
  · rw [if_pos hnone, if_pos ha.sanFault_eq, hmode, if_neg (not_not.2 rfl)]
    exact ha.drop hnone
  · rw [if_neg hnone]
    have ha' : After s₀ { l' with fault := l'.sanFault } s' :=
      { ha with }
    split
    · rw [maySaveFault_ok fuel ha.sanFault_eq]
      exact ha'.save hnone _
    · exact ha'.save hnone _

end Flow

/-- An ordinary run in normal mode whose input no sanitizer build faults on: it is queued if
and only if the bucketed trace shares a bit with `virgin_bits`; the bits of the trace are
cleared, and no others are unless calibration sees a different trace. Left out is the case
of the coverage abstraction with a schedule that does not hash inputs and a trace without
new bits, where the flag `classified` is raised over a raw trace. -/
theorem saveIfInteresting_kept (cfg : Config) (e : Environment) (fuel len : ℕ) (s : AflState)
    (hmode : cfg.crashMode = .ok) (hlen : len ≠ 0)
    (hzero : ∀ i, s.geometry.realMapSize ≤ i → i < s.geometry.mapSize → s.traceBits i = 0#8)
    (hsan : ∀ n, ∀ k < cfg.sanBinaryLength, e.sanTarget n k = .ok)
    (hflag : cfg.sanBinaryLength = 0 ∨ cfg.sanAbstraction ≠ .coverageIncrease ∨
      Schedule.hashesInputs s.schedule = true ∨ SharesBits s.geometry s.traceBits s.virginBits) :
    Kept e s (s.saveIfInteresting cfg e fuel len .ok) := by
  have hstart : Before s { len := len, fault := .ok } { s with sanCaseStatus := 0 } :=
    ⟨rfl, rfl, rfl, rfl, rfl⟩
  obtain ⟨hfreq, hclass⟩ := hstart.updateFrequency (e := e) rfl
  have hfeed : (updateFrequency e { len := len, fault := .ok }
      { s with sanCaseStatus := 0 }).1.feedSan = false := by
    unfold updateFrequency
    split <;> rfl
  unfold saveIfInteresting
  rw [if_neg hlen, if_neg (by simp), hmode]
  rw [← hclass] at hflag
  exact (hfreq.consultSanitizers hfeed hzero hsan hflag).keepIfNewBits hmode fuel hzero

/-- A trace that hits the first `n` bytes of the map 255 times each. -/
def fullTrace (n : ℕ) : Mem := fun i => if i < n then 255 else 0

/-- An empty queue with the trace of an ordinary run that hit the first eight bytes. -/
def firstFind : AflState where
  geometry := QueueState.emptyQueue.geometry
  traceBits := fullTrace 8

/-- A target whose runs hit the first `n` bytes; the hash counts non-zero bytes. -/
def steadyTarget (n : ℕ) : Environment where
  target _ _ := ⟨.ok, fullTrace n, false⟩
  sanTarget _ _ := .ok
  writeToTestcase _ len _ := len
  diffUs _ := 100
  xxh3 bytes := BitVec.ofNat 64 (bytes.countP (· != 0))

/-- Calibration runs that hit eight more bytes clear those in `virgin_bits` too. -/
theorem saveIfInteresting_variable :
    (firstFind.saveIfInteresting {} (steadyTarget 16) 0 10 .ok).2.queuedItems = 1 ∧
      (firstFind.saveIfInteresting {} (steadyTarget 16) 0 10 .ok).2.virginBits 8 = 0 ∧
      clearBits firstFind.geometry firstFind.traceBits firstFind.virginBits 8 = 255 := by
  decide +kernel

theorem saveIfInteresting_kept_uniqueTrace :
    Kept (steadyTarget 8) firstFind (firstFind.saveIfInteresting
      { sanBinaryLength := 1, sanAbstraction := .uniqueTrace } (steadyTarget 8) 0 10 .ok) := by
  refine saveIfInteresting_kept _ _ 0 10 firstFind rfl (by decide) ?_ (fun _ _ _ => rfl)
    (.inr (.inl (by decide)))
  intro i hreal hmap
  exact absurd (hmap.trans_le hreal) (lt_irrefl i)

end AflState

end AflPlusPlus.Fuzzer
