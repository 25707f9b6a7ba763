import AflPlusPlus.FastResume

/-!
# What a resumed session starts with

Loading gives every entry the saved record of its position. The winners are not saved and
`update_bitmap_score` does nothing without a trace, so no index has a winner after loading.
-/

namespace AflPlusPlus.FastResume
open ByteWords CoverageMap FavoredSet QueueNames

theorem readInto_bytesOf {len i : ℕ} (hi : i < len) (m m' : Mem) :
    readInto (bytesOf len m) m' i = m i := by
  simp [readInto, bytesOf, hi]

namespace Session

/-! ## Adding the test cases -/

section Adding
variable {s : Session}

/-- The winners and the settings that a resumed session does not change while it loads. -/
structure SameScores (s t : Session) : Prop where
  geometry_eq : t.queue.geometry = s.queue.geometry
  topRated_eq : t.queue.topRated = s.queue.topRated
  scoreChanged_eq : t.queue.scoreChanged = s.queue.scoreChanged
  nonInstrumentedMode_eq : t.queue.nonInstrumentedMode = s.queue.nonInstrumentedMode

theorem SameScores.refl (s : Session) : s.SameScores s := ⟨rfl, rfl, rfl, rfl⟩

theorem SameScores.trans {t u : Session} (h : s.SameScores t) (h' : t.SameScores u) :
    s.SameScores u where
  geometry_eq := h'.geometry_eq.trans h.geometry_eq
  topRated_eq := h'.topRated_eq.trans h.topRated_eq
  scoreChanged_eq := h'.scoreChanged_eq.trans h.scoreChanged_eq
  nonInstrumentedMode_eq := h'.nonInstrumentedMode_eq.trans h.nonInstrumentedMode_eq

/-- The session after the test cases have been added. -/
structure Added (s : Session) (files : List (FileName × ℕ)) (t : Session) : Prop where
  scores : s.SameScores t
  queuedItems_eq : t.queue.queuedItems = s.queue.queuedItems + files.length
  pendingNotFuzzed_eq : t.pendingNotFuzzed = s.pendingNotFuzzed + files.length
  activeItems_eq : t.activeItems = s.activeItems + files.length
  queuedFavored_eq : t.queue.queuedFavored = s.queue.queuedFavored
  pendingFavored_eq : t.queue.pendingFavored = s.queue.pendingFavored
  fname_eq : ∀ i file, files[i]? = some file → t.fname (s.queue.queuedItems + i) = file.1
  fname_old : ∀ i < s.queue.queuedItems, t.fname i = s.fname i
  traceMini_eq : (∀ i, (s.queue.queueBuf i).traceMini = none) →
    ∀ i, (t.queue.queueBuf i).traceMini = none

theorem added (files : List (FileName × ℕ)) : s.Added files (files.foldl addTestcase s) := by
  induction files generalizing s with
  | nil => exact ⟨.refl s, rfl, rfl, rfl, rfl, rfl, nofun, fun _ _ => rfl, fun h => h⟩
  | cons file files ih =>
    have h := ih (s := s.addTestcase file)
    have hitems : (s.addTestcase file).queue.queuedItems = s.queue.queuedItems + 1 := rfl
    rw [List.foldl_cons]
    have hscores : s.SameScores (s.addTestcase file) := ⟨rfl, rfl, rfl, rfl⟩
    refine ⟨hscores.trans h.scores, ?_, ?_, ?_, h.queuedFavored_eq,
      h.pendingFavored_eq, fun i f hf => ?_, fun i hi => ?_, fun hnone => h.traceMini_eq ?_⟩
    · rw [h.queuedItems_eq, hitems, List.length_cons]
      omega
    · rw [h.pendingNotFuzzed_eq, List.length_cons, addTestcase]
      dsimp only
      omega
    · rw [h.activeItems_eq, List.length_cons, addTestcase]
      dsimp only
      omega
    · cases i with
      | zero =>
        rw [Nat.add_zero, h.fname_old _ (by omega)]
        rw [List.getElem?_cons_zero, Option.some_inj] at hf
        rw [← hf]
        exact Function.update_self ..
      | succ i =>
        have hname := h.fname_eq i f hf
        rw [hitems] at hname
        rwa [show s.queue.queuedItems + (i + 1) = s.queue.queuedItems + 1 + i by omega]
    · rw [h.fname_old i (by omega)]
      exact Function.update_of_ne (by omega) ..
    · intro i
      change (Function.update s.queue.queueBuf s.queue.queuedItems _ i).traceMini = none
      by_cases hi : i = s.queue.queuedItems
      · rw [hi, Function.update_self]
      · rw [Function.update_of_ne hi]
        exact hnone i

end Adding

/-! ## Loading the records -/

section Loading
variable {s : Session}

/-- The session after the records `saved` have been loaded to the entries from `k` on. -/
structure Loaded (s : Session) (k : ℕ) (saved : List (EntryRecord × Option (List Byte)))
    (t : Session) : Prop where
  scores : s.SameScores t
  queuedItems_eq : t.queue.queuedItems = s.queue.queuedItems
  fname_eq : t.fname = s.fname
  maps_eq : t.virginBits = s.virginBits ∧ t.virginTmout = s.virginTmout ∧
    t.virginCrash = s.virginCrash ∧ t.varBytes = s.varBytes
  record_eq : ∀ i r, saved[i]? = some r → t.record (k + i) = r.1
  traceMini_eq : ∀ i r, saved[i]? = some r → (s.queue.queueBuf (k + i)).traceMini = none →
    (t.queue.queueBuf (k + i)).traceMini = r.2.map fun bytes => readInto bytes fun _ => 0
  entry_old : ∀ i < k, t.queue.queueBuf i = s.queue.queueBuf i ∧ t.others i = s.others i
  pendingNotFuzzed_eq : t.pendingNotFuzzed =
    s.pendingNotFuzzed - saved.countP fun r => r.1.wasFuzzed || r.1.disabled
  activeItems_eq : t.activeItems = s.activeItems - saved.countP fun r => r.1.disabled
  queuedFavored_eq : t.queue.queuedFavored =
    s.queue.queuedFavored + saved.countP fun r => r.1.favored
  pendingFavored_eq : t.queue.pendingFavored =
    s.queue.pendingFavored + saved.countP fun r => r.1.favored && !r.1.wasFuzzed

theorem loadEntry_entry (r : EntryRecord × Option (List Byte)) (k : ℕ) :
    (s.loadEntry (r, k)).queue.queueBuf k = { r.1.restore (s.queue.queueBuf k) with
      traceMini := match r.2 with
        | some bytes => some (readInto bytes fun _ => 0)
        | none => (s.queue.queueBuf k).traceMini } :=
  Function.update_self ..

theorem loadEntry_entry_of_ne (r : EntryRecord × Option (List Byte)) {k i : ℕ} (hi : i ≠ k) :
    (s.loadEntry (r, k)).queue.queueBuf i = s.queue.queueBuf i :=
  Function.update_of_ne hi ..

theorem loadEntry_others (r : EntryRecord × Option (List Byte)) (k : ℕ) :
    (s.loadEntry (r, k)).others k = r.1.others :=
  Function.update_self ..

theorem loadEntry_others_of_ne (r : EntryRecord × Option (List Byte)) {k i : ℕ} (hi : i ≠ k) :
    (s.loadEntry (r, k)).others i = s.others i :=
  Function.update_of_ne hi ..

/-- The counters after one entry, by the flags of its record. -/
theorem loadEntry_counters (r : EntryRecord × Option (List Byte)) (k : ℕ) :
    (s.loadEntry (r, k)).pendingNotFuzzed =
        s.pendingNotFuzzed - (if r.1.wasFuzzed || r.1.disabled then 1 else 0) ∧
      (s.loadEntry (r, k)).activeItems = s.activeItems - (if r.1.disabled then 1 else 0) ∧
      (s.loadEntry (r, k)).queue.queuedFavored =
        s.queue.queuedFavored + (if r.1.favored then 1 else 0) ∧
      (s.loadEntry (r, k)).queue.pendingFavored =
        s.queue.pendingFavored + (if r.1.favored && !r.1.wasFuzzed then 1 else 0) := by
  have hq : (s.readEntry k r).queue.queueBuf k = { r.1.restore (s.queue.queueBuf k) with
      traceMini := match r.2 with
        | some bytes => some (readInto bytes fun _ => 0)
        | none => (s.queue.queueBuf k).traceMini } := Function.update_self ..
  unfold loadEntry countEntry
  dsimp only
  rw [hq]
  refine ⟨?_, rfl, rfl, rfl⟩
  change s.pendingNotFuzzed - (if r.1.wasFuzzed then 1 else 0) -
    (if r.1.disabled && !r.1.wasFuzzed then 1 else 0) = _
  cases r.1.wasFuzzed <;> cases r.1.disabled <;> simp

theorem loaded (saved : List (EntryRecord × Option (List Byte))) (k : ℕ) :
    s.Loaded k saved ((saved.zipIdx k).foldl loadEntry s) := by
  induction saved generalizing s k with
  | nil =>
    have hnone : ∀ (i : ℕ) (r : EntryRecord × Option (List Byte)),
        ([] : List (EntryRecord × Option (List Byte)))[i]? ≠ some r := by simp
    exact ⟨.refl s, rfl, rfl, ⟨rfl, rfl, rfl, rfl⟩, fun i r hr => absurd hr (hnone i r),
      fun i r hr => absurd hr (hnone i r), fun _ _ => ⟨rfl, rfl⟩, rfl, rfl, rfl, rfl⟩
  | cons r saved ih =>
    have h := ih (s := s.loadEntry (r, k)) (k + 1)
    have hscores : s.SameScores (s.loadEntry (r, k)) := ⟨rfl, rfl, rfl, rfl⟩
    obtain ⟨hpending, hactive, hfavored, hpendingFavored⟩ := loadEntry_counters (s := s) r k
    rw [List.zipIdx_cons, List.foldl_cons]
    refine ⟨hscores.trans h.scores, h.queuedItems_eq, h.fname_eq, h.maps_eq, fun i r' hr => ?_,
      fun i r' hr hnone => ?_, fun i hi => ?_, ?_, ?_, ?_, ?_⟩
    · cases i with
      | zero =>
        obtain ⟨hbuf, hothers⟩ := h.entry_old k (Nat.lt_succ_self k)
        rw [List.getElem?_cons_zero, Option.some_inj] at hr
        change EntryRecord.ofEntry (QueueState.queueBuf _ k) (Session.others _ k) = _
        rw [hbuf, hothers, loadEntry_entry, loadEntry_others, hr]
        rfl
      | succ i =>
        rw [show k + (i + 1) = k + 1 + i by omega]
        exact h.record_eq i r' hr
    · cases i with
      | zero =>
        obtain ⟨hbuf, -⟩ := h.entry_old k (Nat.lt_succ_self k)
        rw [List.getElem?_cons_zero, Option.some_inj] at hr
        change (QueueState.queueBuf _ k).traceMini = _
        rw [hbuf, loadEntry_entry, hr]
        cases hmini : r'.2 with
        | none => exact hnone
        | some bytes => rfl
      | succ i =>
        rw [show k + (i + 1) = k + 1 + i by omega] at hnone ⊢
        refine h.traceMini_eq i r' hr ?_
        rwa [loadEntry_entry_of_ne r (by omega)]
    · obtain ⟨hbuf, hothers⟩ := h.entry_old i (by omega)
      rw [hbuf, hothers, loadEntry_entry_of_ne r (by omega), loadEntry_others_of_ne r (by omega)]
      exact ⟨rfl, rfl⟩
    · rw [h.pendingNotFuzzed_eq, hpending, List.countP_cons]
      omega
    · rw [h.activeItems_eq, hactive, List.countP_cons]
      omega
    · rw [h.queuedFavored_eq, hfavored, List.countP_cons]
      omega
    · rw [h.pendingFavored_eq, hpendingFavored, List.countP_cons]
      omega

end Loading

/-! ## A resumed session -/

/-- The entries of the saved queue that have a property of their records. -/
def countEntries (s : Session) (p : EntryRecord → Bool) : ℕ :=
  (List.range s.queue.queuedItems).countP fun i => p (s.record i)

/-- What a session has loaded when it has found the test cases `files`. -/
structure Resumed (start saved : Session) (files : List (FileName × ℕ)) (t : Session) : Prop where
  scores : start.SameScores t
  length_eq : files.length = saved.queue.queuedItems
  queuedItems_eq : t.queue.queuedItems = saved.queue.queuedItems
  fname_eq : ∀ i file, files[i]? = some file → t.fname i = file.1
  record_eq : ∀ i < saved.queue.queuedItems, t.record i = saved.record i
  traceMini_eq : ∀ i < saved.queue.queuedItems, (t.queue.queueBuf i).traceMini =
    (saved.savedMini i).map fun bytes => readInto bytes fun _ => 0
  maps_eq : ∀ i < saved.queue.geometry.mapSize, t.virginBits i = saved.virginBits i ∧
    t.virginTmout i = saved.virginTmout i ∧ t.virginCrash i = saved.virginCrash i ∧
    t.varBytes i = saved.varBytes i
  pendingNotFuzzed_eq : t.pendingNotFuzzed =
    saved.countEntries fun r => !r.wasFuzzed && !r.disabled
  activeItems_eq : t.activeItems = saved.countEntries fun r => !r.disabled
  queuedFavored_eq : t.queue.queuedFavored = saved.countEntries fun r => r.favored
  pendingFavored_eq : t.queue.pendingFavored =
    saved.countEntries fun r => r.favored && !r.wasFuzzed

theorem countP_entries (saved : Session) (p : EntryRecord → Bool) :
    saved.writeFastResume.entries.countP (fun r => p r.1) = saved.countEntries p := by
  unfold writeFastResume countEntries
  rw [List.countP_map]
  rfl

/-- The entries without a property are the others. -/
theorem length_sub_countP (saved : Session) (p : EntryRecord → Bool) :
    saved.queue.queuedItems - saved.countEntries p = saved.countEntries fun r => !p r := by
  have h := List.length_eq_countP_add_countP (l := List.range saved.queue.queuedItems)
    fun i => p (saved.record i)
  rw [List.length_range] at h
  have hnot : saved.countEntries (fun r => !p r) = List.countP
      (fun i => decide ¬p (saved.record i) = true) (List.range saved.queue.queuedItems) := by
    refine List.countP_congr fun i _ => ?_
    simp
  rw [hnot]
  unfold countEntries
  omega

section Resume
variable {start saved t : Session} {options : ScanOptions} {depth : ℕ} {dir : Directory}

theorem length_entries (saved : Session) :
    saved.writeFastResume.entries.length = saved.queue.queuedItems := by
  simp [writeFastResume]

/-- A session resumes as soon as it finds as many test cases as were saved. -/
theorem resume_isSome_iff (hstart : start.Starting) :
    (∃ t, start.resume options depth dir saved.writeFastResume = some t) ↔
      (readTestcases options depth dir).length = saved.queue.queuedItems := by
  have hadded := added (s := start) (readTestcases options depth dir)
  have hitems : (((readTestcases options depth dir).foldl addTestcase start).readMaps
      saved.writeFastResume).queue.queuedItems = (readTestcases options depth dir).length := by
    rw [show ∀ (u : Session) bin, (u.readMaps bin).queue = u.queue from fun _ _ => rfl,
      hadded.queuedItems_eq, hstart.queuedItems_eq, Nat.zero_add]
  unfold resume loadEntries
  rw [hitems, length_entries]
  constructor
  · rintro ⟨t, ht⟩
    by_contra hne
    rw [if_neg (Ne.symm hne)] at ht
    exact absurd ht (by simp)
  · intro h
    rw [if_pos h.symm]
    exact ⟨_, rfl⟩

theorem resumed (hstart : start.Starting)
    (h : start.resume options depth dir saved.writeFastResume = some t) :
    Resumed start saved (readTestcases options depth dir) t := by
  have hlength := (resume_isSome_iff hstart).1 ⟨t, h⟩
  have hadded := added (s := start) (readTestcases options depth dir)
  unfold resume loadEntries at h
  generalize readTestcases options depth dir = files at *
  set u := (files.foldl addTestcase start).readMaps saved.writeFastResume with hu
  have hitems : u.queue.queuedItems = saved.queue.queuedItems := by
    rw [← hlength]
    exact hadded.queuedItems_eq.trans (by rw [hstart.queuedItems_eq, Nat.zero_add])
  have hloaded := loaded (s := u) saved.writeFastResume.entries 0
  rw [length_entries, if_pos hitems.symm, Option.some_inj] at h
  subst h
  have hentry : ∀ i < saved.queue.queuedItems,
      saved.writeFastResume.entries[i]? = some (saved.record i, saved.savedMini i) := by
    intro i hi
    simp [writeFastResume, hi]
  have hpending : u.pendingNotFuzzed = saved.queue.queuedItems := by
    rw [← hlength]
    exact hadded.pendingNotFuzzed_eq.trans (by rw [hstart.pendingNotFuzzed_eq, Nat.zero_add])
  have hactive : u.activeItems = saved.queue.queuedItems := by
    rw [← hlength]
    exact hadded.activeItems_eq.trans (by rw [hstart.activeItems_eq, Nat.zero_add])
  have hfavored : u.queue.queuedFavored = 0 :=
    hadded.queuedFavored_eq.trans hstart.queuedFavored_eq
  have hpendingFavored : u.queue.pendingFavored = 0 :=
    hadded.pendingFavored_eq.trans hstart.pendingFavored_eq
  have hscores : start.SameScores u := .trans hadded.scores ⟨rfl, rfl, rfl, rfl⟩
  refine ⟨?_, hlength, ?_, fun i file hfile => ?_, fun i hi => ?_, fun i hi => ?_,
    fun i hi => ?_, ?_, ?_, ?_, ?_⟩
  · exact (hscores.trans hloaded.scores).trans ⟨rfl, rfl, rfl, rfl⟩
  · exact hloaded.queuedItems_eq.trans hitems
  · have hname := hadded.fname_eq i file hfile
    rw [hstart.queuedItems_eq, Nat.zero_add] at hname
    change Session.fname _ i = _
    rw [hloaded.fname_eq]
    exact hname
  · have hrecord := hloaded.record_eq i _ (hentry i hi)
    rwa [Nat.zero_add] at hrecord
  · have hmini := hloaded.traceMini_eq i _ (hentry i hi)
    rw [Nat.zero_add] at hmini
    exact hmini (hadded.traceMini_eq hstart.fresh.traceMini_eq i)
  · obtain ⟨hbits, htmout, hcrash, hvar⟩ := hloaded.maps_eq
    dsimp only
    rw [hbits, htmout, hcrash, hvar]
    exact ⟨readInto_bytesOf hi _ _, readInto_bytesOf hi _ _, readInto_bytesOf hi _ _,
      readInto_bytesOf hi _ _⟩
  · dsimp only
    rw [hloaded.pendingNotFuzzed_eq, hpending,
      countP_entries saved fun r => r.wasFuzzed || r.disabled, length_sub_countP]
    simp only [Bool.not_or]
  · dsimp only
    rw [hloaded.activeItems_eq, hactive, countP_entries saved fun r => r.disabled,
      length_sub_countP]
  · dsimp only
    rw [hloaded.queuedFavored_eq, hfavored, Nat.zero_add, countP_entries saved fun r => r.favored]
  · dsimp only
    rw [hloaded.pendingFavored_eq, hpendingFavored, Nat.zero_add,
      countP_entries saved fun r => r.favored && !r.wasFuzzed]

end Resume

end Session

end AflPlusPlus.FastResume
