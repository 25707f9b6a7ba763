import AflPlusPlus.DryRunInvariants
import AflPlusPlus.FavoredWinners
import AflPlusPlus.TransitionSystems

/-!
# The number of enabled entries

`active_items` and the flag `disabled` are set in different places. They agree as long as an entry
that leaves the counters is disabled as well, and an entry that is disabled has left them.
-/

namespace AflPlusPlus.DryRun
open ByteWords CoverageMap FavoredSet Fuzzer TransitionSystems

/-! ## Accounts -/

/-- Which entries are counted, and what the dry run has found out about the seeds. -/
structure Accounts where
  queuedItems : ℕ
  disabled : ℕ → Bool
  wasFuzzed : ℕ → Bool
  activeItems : BitVec 32
  seedResults : List (ℕ × Fault)

namespace Accounts

def enabled (a : Accounts) : Finset ℕ :=
  (Finset.range a.queuedItems).filter fun q => a.disabled q = false

/-- A new entry at the end. -/
def append (a : Accounts) : Accounts :=
  { a with
    queuedItems := a.queuedItems + 1
    disabled := Function.update a.disabled a.queuedItems false
    wasFuzzed := Function.update a.wasFuzzed a.queuedItems false
    activeItems := a.activeItems + 1 }

/-- Entry `q` leaves the counter unless it has left it before. -/
def leave (q : ℕ) (a : Accounts) : Accounts :=
  { a with
    wasFuzzed := Function.update a.wasFuzzed q true
    activeItems := if a.wasFuzzed q then a.activeItems else a.activeItems - 1 }

def turnOff (q : ℕ) (a : Accounts) : Accounts :=
  { a with disabled := Function.update a.disabled q true }

def takeOut (q : ℕ) (a : Accounts) : Accounts := (a.leave q).turnOff q

/-- The result of a seed is noted, and a seed that is `rejected` is taken out. -/
def settle (rejected : Fault → Bool) (q : ℕ) (res : Fault) (a : Accounts) : Accounts :=
  let a := { a with seedResults := a.seedResults ++ [(q, res)] }
  if rejected res then a.takeOut q else a

structure Balanced (rejected : Fault → Bool) (a : Accounts) : Prop where
  retired : ∀ q < a.queuedItems, a.wasFuzzed q = a.disabled q
  active_eq : a.activeItems = BitVec.ofNat 32 a.enabled.card
  rejected_disabled : ∀ p ∈ a.seedResults, rejected p.2 = true →
    p.1 < a.queuedItems ∧ a.disabled p.1 = true

variable {rejected : Fault → Bool} {a : Accounts} {q : ℕ}

theorem mem_enabled : q ∈ a.enabled ↔ q < a.queuedItems ∧ a.disabled q = false := by
  rw [enabled, Finset.mem_filter, Finset.mem_range]

theorem enabled_append (a : Accounts) : a.append.enabled = insert a.queuedItems a.enabled := by
  ext q
  rw [mem_enabled, Finset.mem_insert, mem_enabled]
  change q < a.queuedItems + 1 ∧ Function.update a.disabled a.queuedItems false q = false ↔ _
  by_cases hq : q = a.queuedItems
  · rw [hq, Function.update_self]
    simp
  · rw [Function.update_of_ne hq]
    exact ⟨fun h => .inr ⟨by omega, h.2⟩, fun h => ⟨by omega, (h.resolve_left hq).2⟩⟩

theorem enabled_takeOut (q : ℕ) (a : Accounts) : (a.takeOut q).enabled = a.enabled.erase q := by
  ext r
  rw [mem_enabled, Finset.mem_erase, mem_enabled]
  change r < a.queuedItems ∧ Function.update a.disabled q true r = false ↔ _
  by_cases hr : r = q
  · rw [hr, Function.update_self]
    simp
  · rw [Function.update_of_ne hr]
    exact ⟨fun h => ⟨hr, h⟩, And.right⟩

theorem Balanced.append (h : a.Balanced rejected) : a.append.Balanced rejected where
  retired q hq := by
    change Function.update a.wasFuzzed a.queuedItems false q =
      Function.update a.disabled a.queuedItems false q
    by_cases hnew : q = a.queuedItems
    · rw [hnew, Function.update_self, Function.update_self]
    · rw [Function.update_of_ne hnew, Function.update_of_ne hnew]
      exact h.retired q (Nat.lt_of_le_of_ne (Nat.le_of_lt_succ hq) hnew)
  active_eq := by
    have hnew : a.queuedItems ∉ a.enabled := fun hmem => (mem_enabled.mp hmem).1.false
    rw [enabled_append, Finset.card_insert_of_notMem hnew, BitVec.ofNat_add, ← h.active_eq]
    rfl
  rejected_disabled p hp hrejected := by
    obtain ⟨hlt, hdisabled⟩ := h.rejected_disabled p hp hrejected
    refine ⟨hlt.trans a.queuedItems.lt_succ_self, ?_⟩
    change Function.update a.disabled a.queuedItems false p.1 = true
    rw [Function.update_of_ne hlt.ne, hdisabled]

/-- An entry leaves the counter exactly when it becomes disabled. -/
theorem Balanced.takeOut (h : a.Balanced rejected) (hq : q < a.queuedItems) :
    (a.takeOut q).Balanced rejected where
  retired r hr := by
    change Function.update a.wasFuzzed q true r = Function.update a.disabled q true r
    by_cases hrq : r = q
    · rw [hrq, Function.update_self, Function.update_self]
    · rw [Function.update_of_ne hrq, Function.update_of_ne hrq]
      exact h.retired r hr
  active_eq := by
    rw [enabled_takeOut]
    change (if a.wasFuzzed q then a.activeItems else a.activeItems - 1) = _
    rw [h.retired q hq, h.active_eq]
    cases hdisabled : a.disabled q with
    | true =>
      have hnot : q ∉ a.enabled := fun hmem =>
        Bool.false_ne_true ((mem_enabled.mp hmem).2.symm.trans hdisabled)
      rw [if_pos rfl, Finset.erase_eq_of_notMem hnot]
    | false =>
      have hmem : q ∈ a.enabled := mem_enabled.mpr ⟨hq, hdisabled⟩
      rw [if_neg Bool.false_ne_true, ← Finset.card_erase_add_one hmem, BitVec.ofNat_add]
      exact BitVec.add_sub_cancel _ _
  rejected_disabled p hp hrejected := by
    obtain ⟨hlt, hdisabled⟩ := h.rejected_disabled p hp hrejected
    refine ⟨hlt, ?_⟩
    change Function.update a.disabled q true p.1 = true
    by_cases hpq : p.1 = q
    · rw [hpq, Function.update_self]
    · rw [Function.update_of_ne hpq, hdisabled]

theorem Balanced.settle (h : a.Balanced rejected) (hq : q < a.queuedItems) (res : Fault) :
    (a.settle rejected q res).Balanced rejected := by
  have hout := h.takeOut hq
  unfold Accounts.settle
  dsimp only
  split
  · refine ⟨hout.retired, hout.active_eq, fun p hp hrejected => ?_⟩
    rcases List.mem_append.mp hp with hp | hp
    · exact hout.rejected_disabled p hp hrejected
    · obtain rfl := List.mem_singleton.mp hp
      exact ⟨hq, Function.update_self ..⟩
  · rename_i hkept
    refine ⟨h.retired, h.active_eq, fun p hp hrejected => ?_⟩
    rcases List.mem_append.mp hp with hp | hp
    · exact h.rejected_disabled p hp hrejected
    · obtain rfl := List.mem_singleton.mp hp
      exact absurd hrejected hkept

/-- Only the entries in the queue are looked at. -/
theorem Balanced.congr {b : Accounts} (h : a.Balanced rejected)
    (hitems : b.queuedItems = a.queuedItems) (hactive : b.activeItems = a.activeItems)
    (hresults : b.seedResults = a.seedResults)
    (hflags : ∀ q < a.queuedItems, b.disabled q = a.disabled q ∧ b.wasFuzzed q = a.wasFuzzed q) :
    b.Balanced rejected where
  retired q hq := by
    obtain ⟨hdisabled, hfuzzed⟩ := hflags q (hitems ▸ hq)
    rw [hdisabled, hfuzzed]
    exact h.retired q (hitems ▸ hq)
  active_eq := by
    have henabled : b.enabled = a.enabled := by
      ext q
      rw [mem_enabled, mem_enabled, hitems]
      exact and_congr_right fun hq => by rw [(hflags q hq).1]
    rw [hactive, henabled, h.active_eq]
  rejected_disabled p hp hrejected := by
    obtain ⟨hlt, hdisabled⟩ := h.rejected_disabled p (hresults ▸ hp) hrejected
    exact ⟨hlt.trans_eq hitems.symm, (hflags p.1 hlt).1.trans hdisabled⟩

end Accounts

/-! ## The operations on the accounts -/

/-- The results for which a seed is to be disabled. In crash mode a crash is what the seeds are
there for. -/
def rejected (o : Options) (res : Fault) : Bool :=
  res == .tmout || (res == .crash && o.config.crashMode == .ok)

namespace Startup

def accounts (s : Startup) : Accounts where
  queuedItems := s.queuedItems
  disabled q := (s.queueBuf q).disabled
  wasFuzzed q := (s.queueBuf q).wasFuzzed
  activeItems := s.activeItems
  seedResults := s.seedResults

variable (s : Startup) (o : Options) (e : Environment) (q : ℕ)

theorem modifyEntry_accounts (f : QueueEntry → QueueEntry) : (s.modifyEntry q f).accounts =
    { s.accounts with
      disabled := Function.update s.accounts.disabled q (f (s.queueBuf q)).disabled
      wasFuzzed := Function.update s.accounts.wasFuzzed q (f (s.queueBuf q)).wasFuzzed } := by
  have hdisabled := Function.comp_update QueueEntry.disabled s.queueBuf q (f (s.queueBuf q))
  have hfuzzed := Function.comp_update QueueEntry.wasFuzzed s.queueBuf q (f (s.queueBuf q))
  change Accounts.mk _ (QueueEntry.disabled ∘ Function.update s.queueBuf q (f (s.queueBuf q)))
    (QueueEntry.wasFuzzed ∘ Function.update s.queueBuf q (f (s.queueBuf q))) _ _ = _
  rw [hdisabled, hfuzzed]
  rfl

/-- Other changes to an entry are not on the accounts. -/
theorem modifyEntry_accounts_of_kept {f : QueueEntry → QueueEntry}
    (hf : ∀ entry, (f entry).disabled = entry.disabled ∧ (f entry).wasFuzzed = entry.wasFuzzed) :
    (s.modifyEntry q f).accounts = s.accounts := by
  obtain ⟨hdisabled, hfuzzed⟩ := hf (s.queueBuf q)
  have hkept : Function.update s.accounts.disabled q (s.queueBuf q).disabled =
      s.accounts.disabled := Function.update_eq_self ..
  have hcounted : Function.update s.accounts.wasFuzzed q (s.queueBuf q).wasFuzzed =
      s.accounts.wasFuzzed := Function.update_eq_self ..
  rw [modifyEntry_accounts, hdisabled, hfuzzed, hkept, hcounted]

theorem retire_accounts : (s.retire q).accounts = s.accounts.leave q := by
  have hsame : ∀ b, s.accounts.wasFuzzed q = b →
      Function.update s.accounts.wasFuzzed q b = s.accounts.wasFuzzed := by
    rintro _ rfl
    rw [Function.update_eq_self]
  unfold retire Accounts.leave
  split
  · rename_i hfuzzed
    have hretired : s.accounts.wasFuzzed q = true := hfuzzed
    rw [hsame true hretired, if_pos hretired]
  · rename_i hfuzzed
    have hcounted : ¬s.accounts.wasFuzzed q = true := hfuzzed
    have hkept : Function.update s.accounts.disabled q (s.queueBuf q).disabled =
        s.accounts.disabled := Function.update_eq_self ..
    have hentry := modifyEntry_accounts s q fun entry => { entry with wasFuzzed := true }
    rw [hkept] at hentry
    rw [if_neg hcounted]
    exact congrArg (fun a => { a with activeItems := s.activeItems - 1 }) hentry

/-- Turning the flag on, whatever else is written into the entry. -/
theorem turnOff_accounts {f : QueueEntry → QueueEntry}
    (hf : ∀ entry, (f entry).disabled = true ∧ (f entry).wasFuzzed = entry.wasFuzzed) :
    (s.modifyEntry q f).accounts = s.accounts.turnOff q := by
  obtain ⟨hdisabled, hfuzzed⟩ := hf (s.queueBuf q)
  have hkept : Function.update s.accounts.wasFuzzed q (s.queueBuf q).wasFuzzed =
      s.accounts.wasFuzzed := Function.update_eq_self ..
  rw [modifyEntry_accounts, hdisabled, hfuzzed, hkept, Accounts.turnOff]

theorem disable_accounts : (s.disable q).accounts = s.accounts.turnOff q :=
  s.turnOff_accounts q fun _ => ⟨rfl, rfl⟩

theorem takeOut_accounts : ((s.retire q).disable q).accounts = s.accounts.takeOut q := by
  rw [disable_accounts, retire_accounts]
  rfl

theorem addToQueue_accounts (len : ℕ) : (s.addToQueue len).accounts = s.accounts.append := by
  have hdisabled := Function.comp_update QueueEntry.disabled s.queueBuf s.queuedItems
    { len := len, depth := s.curDepth + 1 }
  have hfuzzed := Function.comp_update QueueEntry.wasFuzzed s.queueBuf s.queuedItems
    { len := len, depth := s.curDepth + 1 }
  exact congrArg₂ (fun disabled wasFuzzed => Accounts.mk (s.queuedItems + 1) disabled wasFuzzed
    (s.activeItems + 1) s.seedResults) hdisabled hfuzzed

theorem calibrate_accounts (cfg : Config) (handicap : ℕ) (fromQueue : Bool) :
    ({ s with toAflState := (s.calibrateCase cfg e q handicap fromQueue).2 } : Startup).accounts =
      s.accounts :=
  congrArg (fun f : Frame => Accounts.mk f.queuedItems (fun r => (f.entries r).disabled)
    (fun r => (f.entries r).wasFuzzed) s.activeItems s.seedResults)
    (@AflState.calibrateCase_frame cfg e q handicap fromQueue s.toAflState)

theorem calibrateSeed_accounts : (s.calibrateSeed o e q).2.accounts = s.accounts := by
  have hcal := s.calibrate_accounts e q o.config 0 true
  unfold calibrateSeed
  dsimp only
  split
  · refine Eq.trans ?_ hcal
    exact modifyEntry_accounts_of_kept _ _ fun _ => ⟨rfl, rfl⟩
  · exact hcal

/-! ## Where the dry run goes wrong -/

/-- The seed crashes, but its trace has nothing that an earlier crash did not have. -/
def knownCrash (o : Options) (s : Startup) : Bool :=
  o.config.crashMode == .ok && o.crashingSeedsAsNewCrash && !s.nonInstrumentedMode &&
    s.scanCrash.1 == 0

theorem timeoutSeed_accounts {t : Startup} (h : s.timeoutSeed o q = .ok t) :
    t.accounts = s.accounts.takeOut q := by
  unfold timeoutSeed at h
  split at h
  · obtain rfl := Except.ok.inj h
    rw [retire_accounts]
    refine congrArg (Accounts.leave q) (turnOff_accounts _ _ ?_)
    exact fun _ => ⟨rfl, rfl⟩
  · split at h
    · cases h
    · obtain rfl := Except.ok.inj h
      exact s.takeOut_accounts q

/-- The crash scan reads nothing that taking the seed out changes. -/
theorem scanCrash_retire (n : ℕ) :
    (scanCrash { s.retire q with totalCrashes := n }).1 = s.scanCrash.1 := by
  unfold retire
  split <;> rfl

theorem retire_nonInstrumentedMode :
    (s.retire q).nonInstrumentedMode = s.nonInstrumentedMode := by
  unfold retire
  split <;> rfl

theorem crashSeed_accounts {t : Startup} (hmode : o.config.crashMode = .ok)
    (hnew : s.knownCrash o = false) (h : s.crashSeed o q = .ok t) :
    t.accounts = s.accounts.takeOut q := by
  have hoff : ∀ u : Startup, u.accounts = (s.retire q).accounts →
      (u.disable q).accounts = s.accounts.takeOut q := by
    intro u hu
    rw [disable_accounts, hu, retire_accounts]
    rfl
  unfold crashSeed at h
  rw [if_neg (not_not.mpr hmode)] at h
  split at h
  · cases h
  · dsimp only at h
    split at h
    · rename_i hasnew
      split at h
      · obtain rfl := Except.ok.inj h
        exact hoff _ rfl
      · rename_i hinstrumented
        rw [retire_nonInstrumentedMode] at hinstrumented
        split at h
        · rename_i hzero
          rw [scanCrash_retire] at hzero
          simp [knownCrash, hmode, hasnew, hinstrumented, hzero] at hnew
        · obtain rfl := Except.ok.inj h
          exact hoff _ rfl
    · obtain rfl := Except.ok.inj h
      exact hoff _ rfl

/-- A seed that is judged is taken out when its result is rejected, and left alone otherwise. -/
theorem judge_accounts {res : Fault} {t : Startup}
    (hnew : res = .crash → s.knownCrash o = false) (h : s.judge o q res = .ok t) :
    t.accounts = if rejected o res then s.accounts.takeOut q else s.accounts := by
  unfold judge at h
  cases res with
  | ok =>
    dsimp only at h
    split at h
    · cases h
    · obtain rfl := Except.ok.inj h
      rfl
  | tmout => exact s.timeoutSeed_accounts o q h
  | crash =>
    by_cases hmode : o.config.crashMode = .ok
    · have hrejected : rejected o .crash = true := by simp [rejected, hmode]
      rw [hrejected]
      exact s.crashSeed_accounts o q hmode (hnew rfl) h
    · have hkept : rejected o .crash = false := by simp [rejected, hmode]
      dsimp only at h
      rw [crashSeed, if_pos hmode] at h
      obtain rfl := Except.ok.inj h
      rw [hkept]
      rfl
  | error => cases h
  | noinst => cases h
  | nobits =>
    obtain rfl := Except.ok.inj h
    rfl

/-- The seed is not one that crashes and leaves the switch early. -/
def SeedMeets (o : Options) (e : Environment) (q : ℕ) (s : Startup) : Prop :=
  (s.calibrateSeed o e q).2.stopSoon = false → (s.calibrateSeed o e q).1 = .crash →
    (s.calibrateSeed o e q).2.knownCrash o = false

/-- Every seed that the loop comes to meets the condition. -/
def SeedsMeet (o : Options) (e : Environment) : List ℕ → Startup → Prop
  | [], _ => True
  | q :: qs, s =>
    if (s.queueBuf q).disabled ∨ (s.queueBuf q).len = 0 then SeedsMeet o e qs s
    else s.SeedMeets o e q ∧ ∀ t, s.drySeed o e q = .ok t → SeedsMeet o e qs t

variable {s o e q}

theorem balanced_drySeed {t : Startup} (h : s.accounts.Balanced (rejected o))
    (hq : q < s.queuedItems) (hmeet : s.SeedMeets o e q) (ht : s.drySeed o e q = .ok t) :
    t.accounts.Balanced (rejected o) := by
  have hcal := s.calibrateSeed_accounts o e q
  rcases drySeed_cases ht with ⟨-, rfl⟩ | ⟨hgoes, hjudge⟩
  · exact hcal ▸ h
  · set u : Startup := { (s.calibrateSeed o e q).2 with
      seedResults := (s.calibrateSeed o e q).2.seedResults ++ [(q, (s.calibrateSeed o e q).1)] }
    have hnew : (s.calibrateSeed o e q).1 = .crash → u.knownCrash o = false := hmeet hgoes
    have hjudged := u.judge_accounts o q hnew hjudge
    have hsettled : t.accounts = s.accounts.settle (rejected o) q (s.calibrateSeed o e q).1 := by
      rw [hjudged, ← hcal]
      rfl
    exact hsettled ▸ h.settle hq _

theorem balanced_performDryRun {t : Startup} (h : s.accounts.Balanced (rejected o))
    (hmeet : SeedsMeet o e (seedOrder o s) { s with calFailures := 0 })
    (ht : s.performDryRun o e = .ok t) : t.accounts.Balanced (rejected o) := by
  obtain ⟨u, hloop, hcases⟩ := performDryRun_cases ht
  obtain ⟨rest, hu, -⟩ := seedLoop_induct (s := { s with calFailures := 0 })
    (P := fun qs s => s.accounts.Balanced (rejected o) ∧ (∀ q ∈ qs, q < s.queuedItems) ∧
      SeedsMeet o e qs s)
    (fun q qs s hskip ⟨h, hqs, hmeet⟩ => by
      rw [SeedsMeet, if_pos hskip] at hmeet
      exact ⟨h, (List.forall_mem_cons.mp hqs).2, hmeet⟩)
    (fun q qs s t hruns ⟨h, hqs, hmeet⟩ ht => by
      obtain ⟨hq, hqs⟩ := List.forall_mem_cons.mp hqs
      rw [SeedsMeet, if_neg hruns] at hmeet
      exact ⟨balanced_drySeed h hq hmeet.1 ht, drySeed_queuedItems ht ▸ hqs, hmeet.2 t ht⟩)
    ⟨h, fun q hq => mem_seedOrder.mp hq, hmeet⟩ hloop
  rcases hcases with ⟨-, rfl⟩ | ⟨-, rfl⟩
  · exact hu
  · refine (removeDuplicates_induct
      (P := fun v => v.accounts.Balanced (rejected o) ∧ v.queuedItems = u.queuedItems)
      (fun v q hq _ hv => ?_) (fun v _ _ hv => hv) ⟨hu, rfl⟩).1
    rw [takeOut_accounts]
    refine ⟨hv.1.takeOut (hq.trans_eq hv.2.symm), ?_⟩
    exact (congrArg Accounts.queuedItems (v.takeOut_accounts q)).trans hv.2

/-- The cull disables no entry: it has nothing to do, the option is not set, or all entries that it
could still disable are picked as winners. -/
def CullMeets (s : Startup) : Prop :=
  s.scoreChanged = true → s.nonInstrumentedMode = false → s.disableRedundant = true →
    ∀ q < s.queuedItems, (s.queueBuf q).disabled = false → (s.queueBuf q).fsRedundant = false →
      q ∈ s.winners

/-- A cull that meets the condition disables nobody. -/
theorem cullQueue_flags (hcount : s.Counted) (hmeet : s.CullMeets) {q : ℕ}
    (hq : q < s.queuedItems) :
    (s.cullQueue.queueBuf q).disabled = (s.queueBuf q).disabled ∧
      (s.cullQueue.queueBuf q).wasFuzzed = (s.queueBuf q).wasFuzzed := by
  by_cases hidle : s.scoreChanged = false ∨ s.nonInstrumentedMode = true
  · have hsame : s.toQueueState.cullQueue = s.toQueueState := QueueState.cullQueue_idle hidle
    have hbuf : s.cullQueue.queueBuf = s.queueBuf := congrArg QueueState.queueBuf hsame
    rw [hbuf]
    exact ⟨rfl, rfl⟩
  · obtain ⟨hchanged, hmode⟩ := not_or.mp hidle
    rw [Bool.not_eq_false] at hchanged
    rw [Bool.not_eq_true] at hmode
    have hentry : s.cullQueue.queueBuf q = QueueState.marked s.disableRedundant
        { s.queueBuf q with favored := decide (q ∈ s.winners) } :=
      QueueState.cullQueue_entry hcount.addressed hchanged hmode hq
    rw [hentry]
    unfold QueueState.marked
    split
    · exact ⟨rfl, rfl⟩
    · rename_i hmarks
      obtain ⟨hdisabled, hdiffers⟩ := not_or.mp hmarks
      refine ⟨?_, rfl⟩
      dsimp only at hdisabled hdiffers ⊢
      split
      · rename_i hoff
        rw [Bool.and_eq_true] at hoff
        have hunpicked : q ∉ s.winners := by simpa using hoff.1
        have hfresh : (s.queueBuf q).fsRedundant = false := by
          simpa [hunpicked] using hdiffers
        exact absurd (hmeet hchanged hmode hoff.2 q hq (by simpa using hdisabled) hfresh) hunpicked
      · rfl

theorem balanced_cullQueue (h : s.accounts.Balanced (rejected o)) (hcount : s.Counted)
    (hmeet : s.CullMeets) : s.cullQueue.accounts.Balanced (rejected o) := by
  have hitems : s.cullQueue.queuedItems = s.queuedItems :=
    (QueueState.cullQueue_keeps s.toQueueState).queuedItems_eq
  exact h.congr hitems rfl rfl fun q hq => cullQueue_flags hcount hmeet hq

/-! ## Runs -/

/-- The operations that change what is counted, and the calibrations between them. -/
inductive Op
  | add (len : ℕ)
  | calibrate (q handicap : ℕ) (fromQueue : Bool)
  | dryRun
  | cull

def step (o : Options) (e : Environment) (s : Startup) : Op → Option Startup
  | .add len => some (s.addToQueue len)
  | .calibrate q handicap fromQueue =>
    if q < s.queuedItems then
      some { s with toAflState := (s.calibrateCase o.config e q handicap fromQueue).2 }
    else none
  | .dryRun => (s.performDryRun o e).toOption
  | .cull => some s.cullQueue

/-- The state before any test case has been read. -/
structure Initial (s : Startup) : Prop where
  fresh : s.Fresh
  queuedItems_eq : s.queuedItems = 0
  activeItems_eq : s.activeItems = 0
  seedResults_eq : s.seedResults = []

/-- No seed leaves the dry run half disabled, and no cull disables an entry. -/
def Meets (o : Options) (e : Environment) (s : Startup) : Op → Prop
  | .dryRun => SeedsMeet o e (seedOrder o s) { s with calFailures := 0 }
  | .cull => s.CullMeets
  | _ => True

theorem Initial.balanced (h : s.Initial) : s.accounts.Balanced (rejected o) where
  retired q hq := by
    change q < s.queuedItems at hq
    rw [h.queuedItems_eq] at hq
    exact absurd hq (Nat.not_lt_zero q)
  active_eq := by
    have hnone : s.accounts.enabled = ∅ := by
      rw [Accounts.enabled]
      change (Finset.range s.queuedItems).filter _ = _
      rw [h.queuedItems_eq, Finset.range_zero, Finset.filter_empty]
    rw [hnone]
    exact h.activeItems_eq
  rejected_disabled p hp := by
    change p ∈ s.seedResults at hp
    rw [h.seedResults_eq] at hp
    exact absurd hp List.not_mem_nil

theorem balanced_step {t : Startup} {op : Op}
    (h : s.accounts.Balanced (rejected o) ∧ s.Counted) (hmeet : s.Meets o e op)
    (ht : s.step o e op = some t) : t.accounts.Balanced (rejected o) ∧ t.Counted := by
  obtain ⟨hbalanced, hcount⟩ := h
  cases op with
  | add len =>
    obtain rfl := Option.some.inj ht
    rw [addToQueue_accounts]
    exact ⟨hbalanced.append, hcount.addToQueue len _⟩
  | calibrate q handicap fromQueue =>
    unfold step at ht
    dsimp only at ht
    split at ht
    · obtain rfl := Option.some.inj ht
      rw [calibrate_accounts]
      exact ⟨hbalanced, AflState.calibrateCase_counted o.config e hcount ‹_› handicap fromQueue⟩
    · cases ht
  | dryRun =>
    have hrun : s.performDryRun o e = .ok t := by
      unfold step at ht
      dsimp only at ht
      cases hdry : s.performDryRun o e with
      | error stop =>
        rw [hdry] at ht
        cases ht
      | ok u =>
        rw [hdry] at ht
        exact congrArg Except.ok (Option.some.inj ht)
    exact ⟨balanced_performDryRun hbalanced hmeet hrun, performDryRun_counted hcount hrun⟩
  | cull =>
    obtain rfl := Option.some.inj ht
    exact ⟨balanced_cullQueue hbalanced hcount hmeet,
      hcount.of_keeps (QueueState.cullQueue_keeps s.toQueueState)⟩

/-- The enabled entries of the queue. -/
def enabled (s : Startup) : Finset ℕ :=
  (Finset.range s.queuedItems).filter fun q => (s.queueBuf q).disabled = false

/-- In every state of a run whose steps meet the condition, the counter is right and the seeds that
were found to crash or to time out are disabled. -/
theorem run_activeItems {t : Startup} {ops : List Op} (hinit : s.Initial)
    (hmeet : Along (step o e) (Meets o e) s ops) (hrun : run (step o e) s ops = some t) :
    t.activeItems = BitVec.ofNat 32 t.enabled.card ∧
      ∀ p ∈ t.seedResults, rejected o p.2 = true →
        p.1 < t.queuedItems ∧ (t.queueBuf p.1).disabled = true := by
  obtain ⟨hbalanced, -⟩ := run_invariant_along
    (P := fun s => s.accounts.Balanced (rejected o) ∧ s.Counted)
    (fun s op t h hC ht => balanced_step h hC ht) ⟨hinit.balanced, hinit.fresh.counted⟩ hmeet hrun
  exact ⟨hbalanced.active_eq, hbalanced.rejected_disabled⟩

/-- Without `AFL_CRASHING_SEEDS_AS_NEW_CRASH` no seed leaves the switch early. -/
theorem seedsMeet_of_unset (hunset : o.crashingSeedsAsNewCrash = false) (qs : List ℕ)
    (s : Startup) : SeedsMeet o e qs s := by
  induction qs generalizing s with
  | nil => trivial
  | cons q qs ih =>
    unfold SeedsMeet
    split
    · exact ih s
    · refine ⟨fun _ _ => ?_, fun t _ => ih t⟩
      simp [knownCrash, hunset]

/-- A queue without entries on a map of one block. -/
def noSeeds : Startup where
  geometry := QueueState.emptyQueue.geometry

theorem noSeeds_initial : noSeeds.Initial :=
  ⟨⟨fun _ => rfl, fun _ => rfl, fun _ => rfl, fun _ => rfl, rfl⟩, rfl, rfl, rfl⟩

/-- A target that ends its runs with `faults` and hits nothing. -/
def faultTarget (faults : ℕ → Fault) : Environment where
  target execs _ := ⟨faults execs, fun _ => 0, false⟩
  sanTarget _ _ := .ok
  writeToTestcase _ len _ := len
  diffUs _ := 1
  xxh3 bytes := (bytes.headD 0).setWidth 64

/-- The first seed crashes and the second one times out. -/
def badSeeds : Option Startup :=
  run (step { ignoreSeedProblems := true } (faultTarget fun n => if n = 0 then .crash else .tmout))
    noSeeds [.add 4, .add 6, .dryRun, .cull]

theorem badSeeds_isSome : badSeeds.isSome := by
  decide +kernel

theorem run_activeItems_badSeeds :
    (badSeeds.get badSeeds_isSome).activeItems =
        BitVec.ofNat 32 (badSeeds.get badSeeds_isSome).enabled.card ∧
      ∀ p ∈ (badSeeds.get badSeeds_isSome).seedResults,
        rejected { ignoreSeedProblems := true } p.2 = true →
          p.1 < (badSeeds.get badSeeds_isSome).queuedItems ∧
            ((badSeeds.get badSeeds_isSome).queueBuf p.1).disabled = true := by
  refine @run_activeItems noSeeds { ignoreSeedProblems := true }
    (faultTarget fun n => if n = 0 then .crash else .tmout) (badSeeds.get badSeeds_isSome)
    [.add 4, .add 6, .dryRun, .cull] noSeeds_initial ?_ (Option.some_get badSeeds_isSome).symm
  refine ⟨trivial, fun s hs => ⟨trivial, fun t ht => ⟨seedsMeet_of_unset rfl _ _, fun u hu => ?_⟩⟩⟩
  refine ⟨fun hchanged => ?_, fun _ _ => trivial⟩
  obtain rfl := Option.some.inj hs
  obtain rfl := Option.some.inj ht
  have hidle : ((step { ignoreSeedProblems := true }
      (faultTarget fun n => if n = 0 then .crash else .tmout)
      ((noSeeds.addToQueue 4).addToQueue 6) .dryRun).map fun u => u.scoreChanged) =
        some false := by
    decide +kernel
  rw [hu] at hidle
  exact absurd (hchanged.symm.trans (Option.some.inj hidle)) (by decide)

/-- Two seeds with the same crash, which are to be saved as new crashes. -/
def sameCrash : Option Startup :=
  run (step { crashingSeedsAsNewCrash := true } (faultTarget fun _ => .crash))
    noSeeds [.add 4, .add 6, .dryRun]

/-- The second seed has left the counter but is not disabled. -/
theorem sameCrash_enabled : ¬ ∀ (s t : Startup) (o : Options) (e : Environment) (ops : List Op),
    s.Initial → run (step o e) s ops = some t →
      t.activeItems = BitVec.ofNat 32 t.enabled.card ∧
        ∀ p ∈ t.seedResults, rejected o p.2 = true →
          p.1 < t.queuedItems ∧ (t.queueBuf p.1).disabled = true := by
  intro hclaim
  have hrun : sameCrash.any (fun t =>
      t.seedResults.contains (1, Fault.crash) && !(t.queueBuf 1).disabled) = true := by
    decide +kernel
  obtain ⟨t, ht, hcheck⟩ := (Option.any_eq_true _ _).mp hrun
  obtain ⟨hresult, henabled⟩ := (Bool.and_eq_true _ _).mp hcheck
  have hmem : (1, Fault.crash) ∈ t.seedResults := by simpa using hresult
  have hdisabled := ((hclaim noSeeds t { crashingSeedsAsNewCrash := true } _ _ noSeeds_initial
    ht).2 _ hmem rfl).2
  exact absurd henabled (by simp [hdisabled])

end Startup

end AflPlusPlus.DryRun
