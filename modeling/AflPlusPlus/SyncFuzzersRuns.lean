import AflPlusPlus.SyncFuzzers

/-!
# Every file of a peer is imported once

As long as ids have six digits, the listing is the queue in the order of the ids and the counter
is the number of files that earlier passes have seen: a pass executes exactly the files
behind it. With a seventh digit the counter points back into the queue.
-/

namespace AflPlusPlus.SyncFuzzers
open QueueNames

/-! ## The listing -/

section Listing
variable {files : List PeerFile}

theorem length_entriesFrom (id : ℕ) : (entriesFrom id files).length = files.length := by
  simp [entriesFrom]

theorem getElem?_entriesFrom (id i : ℕ) : (entriesFrom id files)[i]? =
    files[i]?.map fun f => (idName (id + i) f.description, f.size) := by
  simp [entriesFrom, List.getElem?_zipIdx, Function.comp_def]

theorem getElem_entriesFrom (id : ℕ) {i : ℕ} (h : i < (entriesFrom id files).length) :
    ∃ f : PeerFile, (entriesFrom id files)[i] = (idName (id + i) f.description, f.size) := by
  simp only [entriesFrom, List.getElem_map, List.getElem_zipIdx]
  exact ⟨_, rfl⟩

theorem entriesFrom_append (id : ℕ) (files' : List PeerFile) :
    entriesFrom id (files ++ files') =
      entriesFrom id files ++ entriesFrom (id + files.length) files' := by
  rw [entriesFrom, List.zipIdx_append, List.map_append]
  rfl

theorem entriesFrom_sorted (h : files.length ≤ 10 ^ 6) :
    (entriesFrom 0 files).Pairwise fun a b => a.1 < b.1 := by
  refine List.pairwise_iff_getElem.2 fun i j hi hj hij => ?_
  obtain ⟨f, hf⟩ := getElem_entriesFrom 0 hi
  obtain ⟨g, hg⟩ := getElem_entriesFrom 0 hj
  rw [length_entriesFrom] at hj
  rw [hf, hg, Nat.zero_add, Nat.zero_add]
  exact idName_lt (hj.trans_le h) hij _ _

/-- The listing of a queue of up to a million files. -/
theorem alphasort_queue (h : files.length ≤ 10 ^ 6) :
    alphasort (dotEntries ++ entriesFrom 0 files) = dotEntries ++ entriesFrom 0 files := by
  refine alphasort_eq_of_perm .rfl (List.pairwise_append.2 ⟨?_, entriesFrom_sorted h,
    fun a ha b hb => ?_⟩)
  · unfold dotEntries
    decide
  · obtain ⟨⟨f, i⟩, -, rfl⟩ := List.mem_map.1 hb
    unfold dotEntries at ha
    simp only [List.mem_cons, List.not_mem_nil, or_false] at ha
    rcases ha with rfl | rfl | rfl <;> exact List.cons_lt_cons_iff.2 (.inl (by decide))

theorem entryKey_eq {k : ℕ} (hk : k < 10 ^ 6) : entryKey k = ['i', 'd', ':'] ++ decimal6 k := by
  refine List.take_of_length_le ?_
  rw [List.length_append, length_decimal6 hk]
  rfl

theorem take_idName {i : ℕ} (hi : i < 10 ^ 6) (description : List Char) :
    (idName i description).take 9 = entryKey i := by
  rw [entryKey_eq hi, idName, List.take_append_of_le_length, List.take_of_length_le]
  · rw [List.length_append, length_decimal6 hi]
    rfl
  · rw [List.length_append, length_decimal6 hi]
    rfl

theorem entryKey_inj {i k : ℕ} (hi : i < 10 ^ 6) (hk : k < 10 ^ 6) (h : entryKey i = entryKey k) :
    i = k := by
  rw [entryKey_eq hi, entryKey_eq hk, List.append_cancel_left_eq] at h
  exact decimal6_inj h

theorem dropWhile_eq_drop {α : Type*} {l : List α} {p : α → Bool} {k : ℕ}
    (hbefore : ∀ i < k, ∀ a, l[i]? = some a → p a = true)
    (hat : ∀ a, l[k]? = some a → p a = false) : l.dropWhile p = l.drop k := by
  induction l generalizing k with
  | nil => simp
  | cons a l ih =>
    cases k with
    | zero => rw [List.dropWhile_cons_of_neg (by simp [hat a rfl]), List.drop_zero]
    | succ k =>
      rw [List.dropWhile_cons_of_pos (hbefore 0 (Nat.succ_pos k) a rfl), List.drop_succ_cons]
      exact ih (fun i hi => hbefore (i + 1) (Nat.succ_lt_succ hi)) hat

/-- The names before the first one with the key of `k` are those of smaller ids. -/
theorem dropWhile_queue {k : ℕ} (hk : k < 10 ^ 6) :
    (dotEntries ++ entriesFrom 0 files).dropWhile (fun e => e.1.take 9 ≠ entryKey k) =
      (entriesFrom 0 files).drop k := by
  have hdots : ∀ e ∈ dotEntries, e.1.take 9 ≠ entryKey k := by
    intro e he heq
    rw [entryKey_eq hk] at heq
    unfold dotEntries at he
    simp only [List.mem_cons, List.not_mem_nil, or_false] at he
    rcases he with rfl | rfl | rfl <;> exact absurd (List.cons.inj heq).1 (by decide)
  rw [List.dropWhile_append_of_pos fun e he => by simpa using hdots e he]
  refine dropWhile_eq_drop (fun i hi a ha => ?_) fun a ha => ?_
  · rw [getElem?_entriesFrom, Option.map_eq_some_iff] at ha
    obtain ⟨f, -, rfl⟩ := ha
    rw [decide_eq_true_eq, Nat.zero_add, take_idName (hi.trans hk)]
    exact fun heq => hi.ne (entryKey_inj (hi.trans hk) hk heq)
  · rw [getElem?_entriesFrom, Option.map_eq_some_iff] at ha
    obtain ⟨f, -, rfl⟩ := ha
    rw [Nat.zero_add, take_idName hk]
    simp

end Listing

/-! ## The loop over the listing -/

section Loop
variable {inst : Instance} {maxStartId : ℕ}

/-- A file that the loop executes. -/
def Wanted (inst : Instance) (e : FileName × ℕ) : Prop :=
  e.2 ≠ 0 ∧ e.2 ≤ maxFile ∧ isKnownCase inst e.1 = false

variable (inst maxStartId) in
/-- The loop counts every file, executes some in their order, and all that are wanted. -/
theorem foldl_syncCase (rest : List (FileName × ℕ)) (t : ℕ × List FileName) :
    ∃ new : List FileName,
      rest.foldl (syncCase inst maxStartId) t = (t.1 + rest.length, t.2 ++ new) ∧
      new.Sublist (rest.map Prod.fst) ∧ ∀ e ∈ rest, Wanted inst e → e.1 ∈ new := by
  induction rest generalizing t with
  | nil => exact ⟨[], by simp, .slnil, nofun⟩
  | cons e rest ih =>
    have hstep : syncCase inst maxStartId t e = (t.1 + 1, t.2 ++ [e.1]) ∨
        (syncCase inst maxStartId t e = (t.1 + 1, t.2) ∧ ¬Wanted inst e) := by
      unfold syncCase Wanted
      dsimp only
      split
      · split
        · exact .inl rfl
        · next hknown =>
          refine .inr ⟨rfl, fun hwanted => hknown (.inr ?_)⟩
          rw [hwanted.2.2]
          rfl
      · next hsize => exact .inr ⟨rfl, fun hwanted => hsize ⟨hwanted.1, hwanted.2.1⟩⟩
    rw [List.foldl_cons]
    rcases hstep with hstep | ⟨hstep, hnot⟩
    · obtain ⟨new, hnew, hsub, hall⟩ := ih (t.1 + 1, t.2 ++ [e.1])
      refine ⟨e.1 :: new, ?_, hsub.cons_cons _, fun e' he' hwanted => ?_⟩
      · rw [hstep, hnew, List.length_cons, List.append_assoc, Nat.add_assoc, Nat.add_comm 1]
        rfl
      · rcases List.mem_cons.1 he' with rfl | he'
        · exact List.mem_cons_self
        · exact List.mem_cons_of_mem _ (hall e' he' hwanted)
    · obtain ⟨new, hnew, hsub, hall⟩ := ih (t.1 + 1, t.2)
      refine ⟨new, ?_, hsub.cons _, fun e' he' hwanted => ?_⟩
      · rw [hstep, hnew, List.length_cons, Nat.add_assoc, Nat.add_comm 1]
      · rcases List.mem_cons.1 he' with rfl | he'
        · exact absurd hwanted hnot
        · exact hall e' he' hwanted

end Loop

namespace SyncState
variable {inst : Instance} {s : SyncState}

/-- The files from the id `k` on have been imported: they are counted, and the wanted ones are
executed in their order. -/
structure Imported (inst : Instance) (s : SyncState) (k : ℕ) (t : SyncState) : Prop where
  synced_eq : t.synced.getD 0 = s.synced.getD 0 + (s.files.length - k)
  files_eq : t.files = s.files
  clock_eq : t.clock = s.clock
  cmdlineMtime_eq : t.cmdlineMtime = s.cmdlineMtime
  executed_eq : ∃ new : List FileName, t.executed = s.executed ++ new ∧
    new.Sublist (((entriesFrom 0 s.files).drop k).map Prod.fst) ∧
    ∀ e ∈ (entriesFrom 0 s.files).drop k, Wanted inst e → e.1 ∈ new

variable (inst) in
/-- A pass goes on at the id that has the key of the counter. -/
theorem importNew_spec (hfiles : s.files.length ≤ 10 ^ 6) {k : ℕ} (hk : k < 10 ^ 6)
    (hkey : entryKey (s.synced.getD 0) = entryKey k) : s.Imported inst k (s.importNew inst) := by
  have hlen : ((entriesFrom 0 s.files).drop k).length = s.files.length - k := by
    rw [List.length_drop, length_entriesFrom]
  unfold importNew
  dsimp only
  rw [hkey, alphasort_queue hfiles, dropWhile_queue hk]
  cases hrest : (entriesFrom 0 s.files).drop k with
  | nil =>
    rw [hrest, List.length_nil] at hlen
    have hsame : ∀ t : SyncState, t.synced = s.synced → t.files = s.files →
        t.clock = s.clock → t.cmdlineMtime = s.cmdlineMtime → t.executed = s.executed →
        s.Imported inst k t := by
      intro t hsynced hf hclock hmtime hex
      refine ⟨by rw [hsynced, ← hlen, Nat.add_zero], hf, hclock, hmtime, [], ?_, ?_, ?_⟩
      · rw [hex, List.append_nil]
      · exact List.nil_sublist _
      · rw [hrest]
        nofun
    dsimp only
    split
    · exact hsame _ rfl rfl rfl rfl rfl
    · exact hsame _ rfl rfl rfl rfl rfl
  | cons e rest =>
    obtain ⟨new, hnew, hsub, hall⟩ := foldl_syncCase inst (s.maxId.getD 0)
      (e :: rest) (s.synced.getD 0, s.executed)
    rw [hrest] at hlen
    have hsame : ∀ t : SyncState, t.synced = some (s.synced.getD 0 + (e :: rest).length) →
        t.files = s.files → t.clock = s.clock → t.cmdlineMtime = s.cmdlineMtime →
        t.executed = s.executed ++ new → s.Imported inst k t := by
      intro t hsynced hf hclock hmtime hex
      refine ⟨by rw [hsynced, hlen]; rfl, hf, hclock, hmtime, new, hex, ?_, ?_⟩
      · rw [hrest]
        exact hsub
      · rw [hrest]
        exact hall
    dsimp only
    split
    · rw [hnew]
      exact hsame _ rfl rfl rfl rfl rfl
    · rw [hnew]
      exact hsame _ rfl rfl rfl rfl rfl

/-! ## Runs -/

/-- The names of the first `n` files. -/
def seenNames (s : SyncState) (n : ℕ) : List FileName :=
  ((entriesFrom 0 s.files).take n).map Prod.fst

/-- The executed test cases are among the files that the counter counts, all wanted ones among
these are executed, and once a file is counted the peer can no longer look restarted. -/
structure InSync (inst : Instance) (s : SyncState) : Prop where
  synced_le : s.synced.getD 0 ≤ s.files.length
  executed_sublist : s.executed.Sublist (s.seenNames (s.synced.getD 0))
  executed_of_wanted : ∀ e ∈ (entriesFrom 0 s.files).take (s.synced.getD 0), Wanted inst e →
    e.1 ∈ s.executed
  clock_pos : 0 < s.clock
  mtime_lt : 0 < s.synced.getD 0 → s.cmdlineMtime < s.clock

theorem InSync.congr {t : SyncState} (h : s.InSync inst) (hsynced : t.synced = s.synced)
    (hexecuted : t.executed = s.executed) (hfiles : ∃ files, t.files = s.files ++ files)
    (hclock : s.clock ≤ t.clock) (hmtime : t.cmdlineMtime = s.cmdlineMtime) :
    t.InSync inst := by
  obtain ⟨files, hfiles⟩ := hfiles
  have htake : (entriesFrom 0 t.files).take (t.synced.getD 0) =
      (entriesFrom 0 s.files).take (s.synced.getD 0) := by
    rw [hfiles, hsynced, entriesFrom_append, List.take_append_of_le_length]
    rw [length_entriesFrom]
    exact h.synced_le
  refine ⟨?_, ?_, ?_, h.clock_pos.trans_le hclock, fun hpos => ?_⟩
  · rw [hsynced, hfiles, List.length_append]
    exact h.synced_le.trans (Nat.le_add_right _ _)
  · rw [hexecuted, seenNames, htake]
    exact h.executed_sublist
  · rw [htake, hexecuted]
    exact h.executed_of_wanted
  · rw [hmtime]
    rw [hsynced] at hpos
    exact (h.mtime_lt hpos).trans_le hclock

theorem InSync.imported {t : SyncState} (h : s.InSync inst)
    (himport : s.Imported inst (s.synced.getD 0) t) (hmtime : s.cmdlineMtime < s.clock) :
    t.InSync inst ∧ t.synced.getD 0 = s.files.length := by
  obtain ⟨new, hnew, hsub, hall⟩ := himport.executed_eq
  have hsynced : t.synced.getD 0 = s.files.length := by
    rw [himport.synced_eq]
    have := h.synced_le
    omega
  have hwhole : (entriesFrom 0 t.files).take (t.synced.getD 0) = entriesFrom 0 s.files := by
    rw [hsynced, himport.files_eq, List.take_of_length_le (by rw [length_entriesFrom])]
  refine ⟨⟨?_, ?_, ?_, ?_, ?_⟩, hsynced⟩
  · rw [hsynced, himport.files_eq]
  · rw [seenNames, hwhole, hnew, ← List.take_append_drop (s.synced.getD 0) (entriesFrom 0 s.files),
      List.map_append]
    exact h.executed_sublist.append hsub
  · rw [hwhole, hnew]
    intro e he hwanted
    rw [← List.take_append_drop (s.synced.getD 0) (entriesFrom 0 s.files)] at he
    rcases List.mem_append.1 he with he | he
    · exact List.mem_append_left _ (h.executed_of_wanted e he hwanted)
    · exact List.mem_append_right _ (hall e he hwanted)
  · rw [himport.clock_eq]
    exact h.clock_pos
  · intro _
    rw [himport.cmdlineMtime_eq, himport.clock_eq]
    exact hmtime

/-- The event is a pass that comes to the import when file `i` has appeared. -/
def Covers (inst : Instance) (s : SyncState) (e : Event) (i : ℕ) : Prop :=
  ∃ peerIsMain, e = .pass peerIsMain ∧ s.Imports inst peerIsMain ∧ i < s.files.length

theorem InSync.pass (h : s.InSync inst) (peerIsMain : Bool)
    (hmeets : s.StepMeets inst (.pass peerIsMain)) :
    (s.syncPeer inst peerIsMain).InSync inst ∧
      ∀ i, i < (s.syncPeer inst peerIsMain).synced.getD 0 ↔
        i < s.synced.getD 0 ∨ s.Covers inst (.pass peerIsMain) i := by
  have hcovers : ∀ i, s.Covers inst (.pass peerIsMain) i ↔
      s.Imports inst peerIsMain ∧ i < s.files.length := by
    intro i
    constructor
    · rintro ⟨peer, hpeer, himports, hi⟩
      obtain rfl : peerIsMain = peer := Event.pass.inj hpeer
      exact ⟨himports, hi⟩
    · rintro ⟨himports, hi⟩
      exact ⟨peerIsMain, rfl, himports, hi⟩
  simp only [hcovers]
  unfold syncPeer
  by_cases hvisits : s.visits inst peerIsMain = true
  · rw [hvisits, if_neg (by decide)]
    set u := if inst.isSecondaryNode && s.isMainNode && peerIsMain then
      { s with isMainNode := false } else s with hu
    have hkeep : u.synced = s.synced ∧ u.executed = s.executed ∧ u.files = s.files ∧
        u.clock = s.clock ∧ u.cmdlineMtime = s.cmdlineMtime := by
      rw [hu]
      split <;> exact ⟨rfl, rfl, rfl, rfl, rfl⟩
    obtain ⟨hsynced, hexecuted, hfiles, hclock, hmtime⟩ := hkeep
    have hus : u.InSync inst := h.congr hsynced hexecuted ⟨[], by rw [hfiles, List.append_nil]⟩
      hclock.ge hmtime
    have hrestart : u.restarted = s.restarted := by
      rw [restarted, restarted, hclock, hmtime]
    dsimp only
    by_cases hrestarted : s.restarted = true
    · have hle : s.clock ≤ s.cmdlineMtime := by
        rw [restarted, Bool.and_eq_true] at hrestarted
        exact of_decide_eq_true hrestarted.2
      have hzero : s.synced.getD 0 = 0 := by
        by_contra hne
        exact absurd (h.mtime_lt (Nat.pos_of_ne_zero hne)) hle.not_gt
      have hexec : s.executed = [] := by
        have hsub := h.executed_sublist
        rw [hzero] at hsub
        exact List.sublist_nil.1 hsub
      rw [hrestart, if_pos hrestarted]
      refine ⟨⟨Nat.zero_le _, ?_, nofun, hus.clock_pos, nofun⟩, fun i => ?_⟩
      · dsimp only
        rw [hexecuted, hexec]
        exact List.nil_sublist _
      · rw [hzero]
        refine iff_of_false (Nat.not_lt_zero i) ?_
        rintro (hi | ⟨⟨-, himports⟩, -⟩)
        · exact Nat.not_lt_zero i hi
        · rw [hrestarted] at himports
          exact Bool.noConfusion himports
    · rw [hrestart, if_neg hrestarted]
      have himports : s.Imports inst peerIsMain :=
        ⟨hvisits, Bool.eq_false_of_not_eq_true hrestarted⟩
      obtain ⟨hmany, hcounter⟩ := hmeets himports
      have hlt : u.cmdlineMtime < u.clock := by
        rw [hmtime, hclock]
        by_contra hge
        refine hrestarted ?_
        rw [restarted, Bool.and_eq_true]
        exact ⟨decide_eq_true h.clock_pos.ne', decide_eq_true (Nat.not_lt.1 hge)⟩
      have hspec := importNew_spec inst (s := u) (k := u.synced.getD 0)
        (by rw [hfiles]; exact hmany) (by rw [hsynced]; exact hcounter) rfl
      obtain ⟨hin, hcount⟩ := hus.imported hspec hlt
      refine ⟨hin, fun i => ?_⟩
      rw [hcount, hfiles]
      constructor
      · intro hi
        exact .inr ⟨himports, hi⟩
      · rintro (hi | ⟨-, hi⟩)
        · exact hi.trans_le h.synced_le
        · exact hi
  · rw [Bool.eq_false_of_not_eq_true hvisits, if_pos (by decide)]
    refine ⟨h, fun i => ⟨.inl, ?_⟩⟩
    rintro (hi | ⟨⟨hv, -⟩, -⟩)
    · exact hi
    · exact absurd hv hvisits

theorem InSync.step (h : s.InSync inst) (e : Event) (hmeets : s.StepMeets inst e) :
    (s.step inst e).InSync inst ∧
      ∀ i, i < (s.step inst e).synced.getD 0 ↔ i < s.synced.getD 0 ∨ s.Covers inst e i := by
  cases e with
  | append file =>
    refine ⟨h.congr rfl rfl ⟨[file], rfl⟩ le_rfl rfl, fun i => ?_⟩
    exact (or_iff_left (by rintro ⟨_, hpass, -⟩; exact Event.noConfusion hpass)).symm
  | tick seconds =>
    refine ⟨h.congr rfl rfl ⟨[], (List.append_nil _).symm⟩ (Nat.le_add_right _ _) rfl,
      fun i => ?_⟩
    exact (or_iff_left (by rintro ⟨_, hpass, -⟩; exact Event.noConfusion hpass)).symm
  | pass peerIsMain => exact h.pass peerIsMain hmeets

/-- A pass that started after file `i` had appeared has come to the import. -/
def Passed (inst : Instance) (s : SyncState) (events : List Event) (i : ℕ) : Prop :=
  ∃ pre e post, events = pre ++ e :: post ∧ (s.run inst pre).Covers inst e i

theorem passed_cons (s : SyncState) (e : Event) (events : List Event) (i : ℕ) :
    s.Passed inst (e :: events) i ↔ s.Covers inst e i ∨ (s.step inst e).Passed inst events i := by
  constructor
  · rintro ⟨pre, e', post, heq, hcovers⟩
    cases pre with
    | nil =>
      obtain ⟨rfl, -⟩ := List.cons.inj heq
      exact .inl hcovers
    | cons d pre =>
      obtain ⟨rfl, hrest⟩ := List.cons.inj heq
      exact .inr ⟨pre, e', post, hrest, hcovers⟩
  · rintro (hcovers | ⟨pre, e', post, rfl, hcovers⟩)
    · exact ⟨[], e, events, rfl, hcovers⟩
    · exact ⟨e :: pre, e', post, rfl, hcovers⟩

theorem InSync.run (h : s.InSync inst) (events : List Event) (hmeets : RunMeets inst s events) :
    (s.run inst events).InSync inst ∧
      ∀ i, i < (s.run inst events).synced.getD 0 ↔
        i < s.synced.getD 0 ∨ s.Passed inst events i := by
  induction events generalizing s with
  | nil =>
    refine ⟨h, fun i => (or_iff_left ?_).symm⟩
    rintro ⟨pre, e, post, heq, -⟩
    exact absurd heq (by simp)
  | cons e events ih =>
    obtain ⟨hstep, hcount⟩ := h.step e hmeets.1
    obtain ⟨hrun, hcount'⟩ := ih hstep hmeets.2
    refine ⟨hrun, fun i => ?_⟩
    rw [passed_cons, ← or_assoc, ← hcount]
    exact hcount' i

/-- What a pass leaves as it is. -/
structure Frame (s t : SyncState) : Prop where
  files_eq : t.files = s.files
  clock_eq : t.clock = s.clock
  cmdlineMtime_eq : t.cmdlineMtime = s.cmdlineMtime

theorem importNew_frame (inst : Instance) (s : SyncState) : s.Frame (s.importNew inst) := by
  unfold importNew
  dsimp only
  split
  · split <;> exact ⟨rfl, rfl, rfl⟩
  · split <;> exact ⟨rfl, rfl, rfl⟩

/-- Only the peer changes its queue. -/
theorem syncPeer_frame (inst : Instance) (s : SyncState) (peerIsMain : Bool) :
    s.Frame (s.syncPeer inst peerIsMain) := by
  unfold syncPeer
  set u := if inst.isSecondaryNode && s.isMainNode && peerIsMain then
    { s with isMainNode := false } else s with hu
  have hframe : s.Frame u := by
    rw [hu]
    split <;> exact ⟨rfl, rfl, rfl⟩
  dsimp only
  split
  · exact ⟨rfl, rfl, rfl⟩
  · split
    · exact ⟨hframe.files_eq, hframe.clock_eq, hframe.cmdlineMtime_eq⟩
    · have himport := importNew_frame inst u
      exact ⟨himport.files_eq.trans hframe.files_eq, himport.clock_eq.trans hframe.clock_eq,
        himport.cmdlineMtime_eq.trans hframe.cmdlineMtime_eq⟩

/-- The files that the peer adds in a run. -/
def appended : List Event → List PeerFile
  | [] => []
  | .append file :: events => file :: appended events
  | _ :: events => appended events

/-- With less than a million files every pass finds what it needs. -/
theorem InSync.runMeets (h : s.InSync inst) (events : List Event)
    (hfew : s.files.length + (appended events).length < 10 ^ 6) : RunMeets inst s events := by
  induction events generalizing s with
  | nil => trivial
  | cons e events ih =>
    have hle : s.files.length < 10 ^ 6 := (Nat.le_add_right _ _).trans_lt hfew
    have hmeets : s.StepMeets inst e := by
      cases e with
      | append file => trivial
      | tick seconds => trivial
      | pass peerIsMain => exact fun _ => ⟨hle.le, h.synced_le.trans_lt hle⟩
    refine ⟨hmeets, ih (h.step e hmeets).1 ?_⟩
    cases e with
    | append file =>
      change (s.files ++ [file]).length + _ < _
      rw [List.length_append, List.length_singleton, Nat.add_assoc, Nat.add_comm 1]
      exact hfew
    | tick seconds => exact hfew
    | pass peerIsMain =>
      change (s.syncPeer inst peerIsMain).files.length + _ < _
      rw [(syncPeer_frame inst s peerIsMain).files_eq]
      exact hfew

theorem run_append (inst : Instance) (s : SyncState) (events events' : List Event) :
    s.run inst (events ++ events') = (s.run inst events).run inst events' :=
  List.foldl_append

end SyncState

end AflPlusPlus.SyncFuzzers
