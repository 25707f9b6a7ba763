import AflPlusPlus.FastResumeLoading

/-!
# Which record a test case gets back

The saved records carry no names: the entry that is found first gets the first record. Every
test case gets its own record back when the directory scan yields the files in the order of
the queue, that is when their names increase.
-/

namespace AflPlusPlus.FastResume
open ByteWords CoverageMap FavoredSet QueueNames

/-! ## Naming schemes -/

/-- How the files of the queue are named: by their position and a description, or by the hash of
their contents and an extension. -/
inductive Naming
  | id (describe : ℕ → List Char)
  | sha1 (digest : ℕ → BitVec 160) (extension : List Char)

namespace Naming

def name : Naming → ℕ → FileName
  | id describe, i => idName i (describe i)
  | sha1 digest ext, i => sha1Hex (digest i) ++ ext

/-- At most a million files with an id; hashes that happen to increase. -/
def Increasing : Naming → ℕ → Prop
  | id _, n => n ≤ 10 ^ 6
  | sha1 digest _, n => ∀ i j, i < j → j < n → digest i < digest j

theorem name_lt_iff (naming : Naming) (n : ℕ) :
    (∀ i j, i < j → j < n → naming.name i < naming.name j) ↔ naming.Increasing n := by
  cases naming with
  | id describe =>
    constructor
    · intro h
      by_contra hn
      rw [Increasing, Nat.not_le] at hn
      exact idName_not_lt _ _ (h 999999 1000000 (by decide) hn)
    · intro hn i j hij hj
      exact idName_lt (hj.trans_le hn) hij _ _
  | sha1 digest ext =>
    have hmono : ∀ d e : BitVec 160, d < e → sha1Hex d ++ ext < sha1Hex e ++ ext := fun d e h =>
      append_lt_append_of_lt (by rw [length_sha1Hex, length_sha1Hex]) (sha1Hex_lt h)
    refine forall_congr' fun i => forall_congr' fun j => imp_congr_right fun _ =>
      imp_congr_right fun _ => ⟨fun h => ?_, hmono _ _⟩
    rcases lt_trichotomy (digest i).toNat (digest j).toNat with hlt | heq | hgt
    · exact hlt
    · exact absurd h (by rw [name, name, BitVec.eq_of_toNat_eq heq]; exact lt_irrefl _)
    · exact absurd h (hmono _ _ hgt).not_gt

/-- Every name starts with a character behind the dot, and none is that of a `README`. -/
theorem exists_name_eq_cons (naming : Naming) (i : ℕ) :
    ∃ c rest, naming.name i = c :: rest ∧ '.' < c ∧ c ≠ 'R' := by
  cases naming with
  | id describe => exact ⟨'i', _, rfl, by decide, by decide⟩
  | sha1 digest ext =>
    obtain ⟨d, hd, rest, h⟩ := fixedDigits_head (by decide : 0 < 16) 39 (digest i).toNat
    refine ⟨Nat.digitChar d, rest ++ ext, ?_, ?_⟩
    · rw [name, sha1Hex, h]
      rfl
    · interval_cases d <;> exact ⟨by decide, by decide⟩

end Naming

/-! ## Scanning a queue directory -/

section Scan
variable {options : ScanOptions} {depth : ℕ} {dir : Directory}

/-- A directory like that of a queue: its subdirectories are hidden. -/
def Flat (dir : Directory) : Prop :=
  ∀ e ∈ dir, ∀ entries, e.2 = .dir entries → e.1.head? = some '.'

/-- The test case in an entry of such a directory. -/
def testcase (e : FileName × Node) : List (FileName × ℕ) :=
  match e.2 with
  | .file size =>
    if size = 0 ∨ readme <+: e.1 then [] else [(e.1, if size ≥ maxFile then maxFile else size)]
  | _ => []

theorem listing_perm (options : ScanOptions) (dir : Directory) :
    (options.listing dir).Perm dir := by
  unfold ScanOptions.listing
  dsimp only
  split
  · exact (options.shuffle_perm _).trans (alphasort_perm dir)
  · exact alphasort_perm dir

theorem readTestcases_flat (hdir : Flat dir) :
    readTestcases options (depth + 1) dir = (options.listing dir).flatMap testcase := by
  unfold readTestcases
  refine List.flatMap_congr fun e he => ?_
  obtain ⟨name, node⟩ := e
  cases node with
  | file size => rfl
  | dir entries =>
    have hdot := hdir _ ((listing_perm options dir).mem_iff.1 he) entries rfl
    dsimp only at hdot ⊢
    rw [if_neg (not_not.2 hdot)]
    rfl
  | other => rfl

/-- The names of the test cases are among the names of the directory, in the order of the
listing. -/
theorem flatMap_testcase_sublist (l : Directory) :
    ((l.flatMap testcase).map Prod.fst).Sublist (l.map Prod.fst) := by
  induction l with
  | nil => exact .slnil
  | cons e l ih =>
    rw [List.flatMap_cons, List.map_append, List.map_cons]
    have hone : (testcase e).map Prod.fst = [] ∨ (testcase e).map Prod.fst = [e.1] := by
      unfold testcase
      split
      · split
        · exact .inl rfl
        · exact .inr rfl
      · exact .inl rfl
    rcases hone with hone | hone
    · rw [hone]
      exact ih.cons _
    · rw [hone]
      exact ih.cons_cons _

end Scan

/-! ## The directory of a saved queue -/

namespace Session
variable {s : Session}

theorem writeFile_keys_nodup {dir : Directory} (h : (dir.map Prod.fst).Nodup) (name : FileName)
    (size : ℕ) : ((writeFile dir name size).map Prod.fst).Nodup := by
  unfold writeFile
  rw [List.map_append, List.nodup_append]
  refine ⟨h.sublist (List.filter_sublist.map _), List.nodup_singleton _, fun a ha b hb => ?_⟩
  obtain ⟨e, he, rfl⟩ := List.mem_map.1 ha
  have hne := (List.mem_filter.1 he).2
  rw [List.mem_singleton.1 hb]
  simpa using hne

theorem directory_induct {P : Directory → Prop} (hbase : P dotEntries)
    (hwrite : ∀ dir name size, P dir → P (writeFile dir name size)) : P s.directory :=
  List.foldlRecOn _ _ hbase fun _ hdir _ _ => hwrite _ _ _ hdir

theorem directory_keys_nodup : (s.directory.map Prod.fst).Nodup :=
  directory_induct (P := fun dir => (dir.map Prod.fst).Nodup) (by decide)
    fun _ name size h => writeFile_keys_nodup h name size

theorem directory_flat : Flat s.directory := by
  refine directory_induct (P := Flat) ?_ fun dir name size h e he => ?_
  · intro e he entries _
    unfold dotEntries at he
    simp only [List.mem_cons, List.not_mem_nil, or_false] at he
    rcases he with rfl | rfl | rfl <;> rfl
  · rcases List.mem_append.1 he with he | he
    · exact h e (List.mem_of_mem_filter he)
    · rw [List.mem_singleton.1 he]
      nofun

/-- The files of a queue whose names increase are written beside each other. -/
theorem directory_eq {naming : Naming}
    (hname : ∀ i < s.queue.queuedItems, s.fname i = naming.name i)
    (hlt : ∀ i j, i < j → j < s.queue.queuedItems → naming.name i < naming.name j) :
    s.directory = dotEntries ++ (List.range s.queue.queuedItems).map fun i =>
      (naming.name i, .file (s.queue.queueBuf i).len) := by
  suffices hprefix : ∀ n ≤ s.queue.queuedItems, (List.range n).foldl
      (fun dir i => writeFile dir (s.fname i) (s.queue.queueBuf i).len) dotEntries =
      dotEntries ++ (List.range n).map fun i =>
        (naming.name i, .file (s.queue.queueBuf i).len) from
    hprefix _ le_rfl
  intro n hn
  induction n with
  | zero => rfl
  | succ n ih =>
    rw [List.range_succ, List.foldl_append, ih (by omega), List.foldl_cons, List.foldl_nil,
      List.map_append, ← List.append_assoc, hname n hn]
    unfold writeFile
    rw [List.filter_eq_self.2]
    · rfl
    · intro e he
      rw [decide_eq_true_eq]
      rcases List.mem_append.1 he with he | he
      · obtain ⟨c, rest, hc, hdot, -⟩ := naming.exists_name_eq_cons n
        unfold dotEntries at he
        simp only [List.mem_cons, List.not_mem_nil, or_false] at he
        rw [hc]
        rcases he with rfl | rfl | rfl <;>
          exact fun h => absurd (List.cons.inj h).1 hdot.ne
      · obtain ⟨i, hi, rfl⟩ := List.mem_map.1 he
        exact (hlt i n (List.mem_range.1 hi) hn).ne

/-- The test cases of such a directory, in the order of the queue. -/
theorem flatMap_testcase_files {naming : Naming} {n : ℕ} {len : ℕ → ℕ}
    (hlen : ∀ i < n, len i ≠ 0) :
    ((dotEntries ++ (List.range n).map fun i => (naming.name i, Node.file (len i))).flatMap
      testcase).map Prod.fst = (List.range n).map naming.name := by
  have hfile : ∀ i < n, (testcase (naming.name i, .file (len i))).map Prod.fst =
      [naming.name i] := by
    intro i hi
    have hreadme : ¬readme <+: naming.name i := by
      obtain ⟨c, rest, hc, -, hR⟩ := naming.exists_name_eq_cons i
      rw [hc]
      intro hprefix
      exact hR (List.cons_prefix_cons.1 hprefix).1.symm
    unfold testcase
    dsimp only
    rw [if_neg (not_or.2 ⟨hlen i hi, hreadme⟩)]
    rfl
  rw [List.flatMap_append, show dotEntries.flatMap testcase = [] from rfl, List.nil_append]
  induction n with
  | zero => rfl
  | succ n ih =>
    rw [List.range_succ, List.map_append, List.flatMap_append, List.map_append, List.map_append,
      ih (fun i hi => hlen i (by omega)) fun i hi => hfile i (by omega), List.map_cons,
      List.map_nil, List.flatMap_cons, List.flatMap_nil, List.append_nil, hfile n (by omega)]
    rfl

/-- Without shuffling, increasing names are found in the order of the queue. -/
theorem alphasort_directory {naming : Naming}
    (hname : ∀ i < s.queue.queuedItems, s.fname i = naming.name i)
    (hlt : ∀ i j, i < j → j < s.queue.queuedItems → naming.name i < naming.name j) :
    alphasort s.directory = dotEntries ++ (List.range s.queue.queuedItems).map fun i =>
      (naming.name i, .file (s.queue.queueBuf i).len) := by
  rw [directory_eq hname hlt]
  refine alphasort_eq_of_perm .rfl (List.pairwise_append.2 ⟨?_, ?_, fun a ha b hb => ?_⟩)
  · unfold dotEntries
    decide
  · rw [List.pairwise_map]
    exact (List.pairwise_lt_range (n := s.queue.queuedItems)).imp_of_mem
      fun {i j} _ hj hij => hlt i j hij (List.mem_range.1 hj)
  · obtain ⟨i, hi, rfl⟩ := List.mem_map.1 hb
    obtain ⟨c, rest, hc, hdot, -⟩ := naming.exists_name_eq_cons i
    unfold dotEntries at ha
    simp only [List.mem_cons, List.not_mem_nil, or_false] at ha
    dsimp only
    rw [hc]
    rcases ha with rfl | rfl | rfl <;> exact List.cons_lt_cons_iff.2 (.inl hdot)

/-! ## The round trip -/

/-- Every test case has the record and the mini-trace that were saved for it, the maps are those
of the saved session, and the counters are those of the loaded flags. -/
structure Restored (saved t : Session) : Prop where
  found : ∀ i < saved.queue.queuedItems, ∃ k < t.queue.queuedItems, t.fname k = saved.fname i
  record_eq : ∀ i < saved.queue.queuedItems, ∀ k < t.queue.queuedItems,
    t.fname k = saved.fname i → t.record k = saved.record i
  mini_eq : ∀ i < saved.queue.queuedItems, ∀ k < t.queue.queuedItems,
    t.fname k = saved.fname i →
      (t.queue.queueBuf k).traceMini.map (bytesOf saved.miniLen) = saved.savedMini i
  maps_eq : ∀ i < saved.queue.geometry.mapSize, t.virginBits i = saved.virginBits i ∧
    t.virginTmout i = saved.virginTmout i ∧ t.virginCrash i = saved.virginCrash i ∧
    t.varBytes i = saved.varBytes i
  pendingNotFuzzed_eq : t.pendingNotFuzzed = t.countEntries fun r => !r.wasFuzzed && !r.disabled
  activeItems_eq : t.activeItems = t.countEntries fun r => !r.disabled
  queuedFavored_eq : t.queue.queuedFavored = t.countEntries fun r => r.favored
  pendingFavored_eq : t.queue.pendingFavored =
    t.countEntries fun r => r.favored && !r.wasFuzzed

section Resumed
variable {start saved t : Session} {files : List (FileName × ℕ)}

theorem Resumed.countEntries_eq (h : Resumed start saved files t) (p : EntryRecord → Bool) :
    t.countEntries p = saved.countEntries p := by
  unfold countEntries
  rw [h.queuedItems_eq]
  refine List.countP_congr fun i hi => ?_
  rw [h.record_eq i (List.mem_range.1 hi)]

theorem bytesOf_readInto {len : ℕ} {bytes : List Byte} (hlen : bytes.length = len) (m : Mem) :
    bytesOf len (readInto bytes m) = bytes := by
  refine List.ext_getElem (by simp [bytesOf, hlen]) fun i hi hi' => ?_
  simp [bytesOf, readInto, hi']

theorem Resumed.savedMini_eq (h : Resumed start saved files t) {i : ℕ}
    (hi : i < saved.queue.queuedItems) :
    (t.queue.queueBuf i).traceMini.map (bytesOf saved.miniLen) = saved.savedMini i := by
  rw [h.traceMini_eq i hi]
  unfold savedMini
  cases (saved.queue.queueBuf i).traceMini with
  | none => rfl
  | some m =>
    rw [Option.map_some, Option.map_some, Option.map_some,
      bytesOf_readInto (by simp [bytesOf])]

/-- Files that are found in the order of the queue get their records back. -/
theorem Resumed.restored (h : Resumed start saved files t)
    (hnames : files.map Prod.fst = (List.range saved.queue.queuedItems).map saved.fname)
    (hinj : ∀ i < saved.queue.queuedItems, ∀ k < saved.queue.queuedItems,
      saved.fname k = saved.fname i → k = i) : saved.Restored t := by
  have hfname : ∀ i < saved.queue.queuedItems, t.fname i = saved.fname i := by
    intro i hi
    have hget : (files.map Prod.fst)[i]? = some (saved.fname i) := by
      rw [hnames]
      simp [hi]
    rw [List.getElem?_map, Option.map_eq_some_iff] at hget
    obtain ⟨file, hfile, hname⟩ := hget
    rw [h.fname_eq i file hfile, hname]
  have hsame : ∀ i < saved.queue.queuedItems, ∀ k < t.queue.queuedItems,
      t.fname k = saved.fname i → k = i := by
    intro i hi k hk heq
    rw [h.queuedItems_eq] at hk
    exact hinj i hi k hk (by rw [← hfname k hk, heq])
  refine ⟨fun i hi => ⟨i, h.queuedItems_eq ▸ hi, hfname i hi⟩, fun i hi k hk heq => ?_,
    fun i hi k hk heq => ?_, h.maps_eq, ?_, ?_, ?_, ?_⟩
  · rw [hsame i hi k hk heq]
    exact h.record_eq i hi
  · rw [hsame i hi k hk heq]
    exact h.savedMini_eq hi
  · rw [h.countEntries_eq, h.pendingNotFuzzed_eq]
  · rw [h.countEntries_eq, h.activeItems_eq]
  · rw [h.countEntries_eq, h.queuedFavored_eq]
  · rw [h.countEntries_eq, h.pendingFavored_eq]

/-- When the records are all different, only the order of the queue gives them back. -/
theorem Resumed.names_eq (h : Resumed start saved files t) (hrestored : saved.Restored t)
    (hinj : ∀ i < saved.queue.queuedItems, ∀ k < saved.queue.queuedItems,
      saved.record k = saved.record i → k = i) :
    files.map Prod.fst = (List.range saved.queue.queuedItems).map saved.fname := by
  refine List.ext_getElem (by simp [h.length_eq]) fun i hi hi' => ?_
  rw [List.length_map, List.length_range] at hi'
  obtain ⟨k, hk, hname⟩ := hrestored.found i hi'
  have hrecord := hrestored.record_eq i hi' k hk hname
  rw [h.queuedItems_eq] at hk
  rw [h.record_eq k hk] at hrecord
  rw [hinj i hi' k hk hrecord] at hname
  rw [List.length_map] at hi
  rw [List.getElem_map, List.getElem_map, List.getElem_range, ← hname,
    h.fname_eq i _ (List.getElem?_eq_getElem hi)]

end Resumed

/-- A queue of `n` entries named by `naming` is restored whatever its records are, and however a
scan is shuffled. -/
def RoundTrips (naming : Naming) (n : ℕ) (oldSeedSelection shuffleQueue : Bool) : Prop :=
  ∀ options : ScanOptions, options.oldSeedSelection = oldSeedSelection →
    options.shuffleQueue = shuffleQueue → ∀ (start saved : Session) (depth : ℕ),
    start.Starting → saved.queue.geometry = start.queue.geometry →
    saved.queue.queuedItems = n → (∀ i < n, saved.fname i = naming.name i) →
    (∀ i < n, (saved.queue.queueBuf i).len ≠ 0) →
    ∃ t, start.resume options (depth + 1) saved.directory saved.writeFastResume = some t ∧
      saved.Restored t

section RoundTrip
variable {naming : Naming} {n : ℕ}

/-- A queue whose entries have different records. -/
def numbered (naming : Naming) (n : ℕ) : Session where
  queue := { QueueState.emptyQueue with
    queuedItems := n
    queueBuf := fun i => { len := 1, fuzzLevel := i } }
  fname := naming.name

def noEntries : Session where
  queue := QueueState.emptyQueue

theorem noEntries_starting : noEntries.Starting :=
  ⟨QueueState.emptyQueue_fresh, rfl, rfl, rfl, rfl, rfl, rfl⟩

/-- The scan of the numbered queue finds the files in the order of the queue. -/
theorem RoundTrips.names_eq {oldSeedSelection shuffleQueue : Bool}
    (h : RoundTrips naming n oldSeedSelection shuffleQueue) (options : ScanOptions)
    (hold : options.oldSeedSelection = oldSeedSelection)
    (hshuffle : options.shuffleQueue = shuffleQueue) :
    (readTestcases options 1 (numbered naming n).directory).map Prod.fst =
      (List.range n).map naming.name := by
  obtain ⟨t, ht, hrestored⟩ := h options hold hshuffle noEntries (numbered naming n) 0
    noEntries_starting rfl rfl (fun _ _ => rfl) (fun _ _ => Nat.one_ne_zero)
  refine (resumed noEntries_starting ht).names_eq hrestored fun i _ k _ heq => ?_
  exact congrArg EntryRecord.fuzzLevel heq

theorem alphasort_keys_lt {dir : Directory} (h : (dir.map Prod.fst).Nodup) :
    ((alphasort dir).map Prod.fst).Pairwise (· < ·) := by
  have hnodup : ((alphasort dir).map Prod.fst).Nodup :=
    ((alphasort_perm dir).map Prod.fst).nodup_iff.2 h
  have hsorted : ((alphasort dir).map Prod.fst).Pairwise (· ≤ ·) :=
    List.pairwise_map.2 (alphasort_sorted dir)
  exact (hsorted.and hnodup).imp fun h => lt_of_le_of_ne h.1 h.2

theorem RoundTrips.increasing {oldSeedSelection shuffleQueue : Bool}
    (h : RoundTrips naming n oldSeedSelection shuffleQueue) : naming.Increasing n := by
  have hnames := h.names_eq ⟨oldSeedSelection, shuffleQueue, id, fun _ => .rfl⟩ rfl rfl
  have hlisting : ScanOptions.listing ⟨oldSeedSelection, shuffleQueue, id, fun _ => .rfl⟩
      (numbered naming n).directory = alphasort (numbered naming n).directory := by
    unfold ScanOptions.listing
    dsimp only
    split <;> rfl
  rw [readTestcases_flat directory_flat, hlisting] at hnames
  have hlt := (alphasort_keys_lt (directory_keys_nodup (s := numbered naming n))).sublist
    (flatMap_testcase_sublist _)
  rw [hnames, List.pairwise_map] at hlt
  refine (naming.name_lt_iff n).1 fun i j hij hj => ?_
  have hget := List.pairwise_iff_getElem.1 hlt i j (by simp; omega) (by simpa using hj) hij
  simpa using hget

/-- A shuffled listing can come in the opposite order. -/
theorem RoundTrips.not_shuffled (h : RoundTrips naming n true true) : n ≤ 1 := by
  have hlt := (naming.name_lt_iff n).2 h.increasing
  by_contra hn
  have hnames := h.names_eq ⟨true, true, List.reverse, List.reverse_perm⟩ rfl rfl
  have hsorted := alphasort_keys_lt (directory_keys_nodup (s := numbered naming n))
  have hmany : (alphasort (numbered naming n).directory).length > 1 := by
    rw [@alphasort_directory (numbered naming n) naming (fun _ _ => rfl) hlt, List.length_append]
    exact Nat.lt_add_right _ (by decide)
  have hlisting : ScanOptions.listing ⟨true, true, List.reverse, List.reverse_perm⟩
      (numbered naming n).directory = (alphasort (numbered naming n).directory).reverse := by
    unfold ScanOptions.listing
    dsimp only
    rw [if_pos (by simpa using hmany)]
  rw [readTestcases_flat directory_flat, hlisting] at hnames
  have hgt := List.Pairwise.sublist (flatMap_testcase_sublist _)
    (by rw [List.map_reverse, List.pairwise_reverse]; exact hsorted)
  rw [hnames, List.pairwise_map] at hgt
  have hget := List.pairwise_iff_getElem.1 hgt 0 1 (by simp; omega) (by simp; omega) (by decide)
  rw [List.getElem_range, List.getElem_range] at hget
  exact absurd (hlt 0 1 (by decide) (by omega)) hget.not_gt

/-- The names that a scan finds in the directory of a queue with increasing names. -/
theorem names_of_increasing (saved : Session) (options : ScanOptions) (depth : ℕ)
    (hlt : ∀ i j, i < j → j < saved.queue.queuedItems → naming.name i < naming.name j)
    (hshuffle : (options.oldSeedSelection && options.shuffleQueue) = true →
      saved.queue.queuedItems ≤ 1)
    (hname : ∀ i < saved.queue.queuedItems, saved.fname i = naming.name i)
    (hlen : ∀ i < saved.queue.queuedItems, (saved.queue.queueBuf i).len ≠ 0) :
    (readTestcases options (depth + 1) saved.directory).map Prod.fst =
      (List.range saved.queue.queuedItems).map naming.name := by
  have hsorted := alphasort_directory hname hlt
  rw [readTestcases_flat directory_flat]
  by_cases hboth : (options.oldSeedSelection && options.shuffleQueue) = true
  · -- at most one file, which no permutation moves
    have hperm := ((listing_perm options saved.directory).flatMap_right testcase).map Prod.fst
    rw [directory_eq hname hlt, flatMap_testcase_files hlen] at hperm
    rw [directory_eq hname hlt]
    have hfew := hshuffle hboth
    generalize saved.queue.queuedItems = m at hfew hperm ⊢
    match m, hfew with
    | 0, _ => exact List.perm_nil.1 hperm
    | 1, _ => exact List.perm_singleton.1 hperm
  · have hlisting : options.listing saved.directory = alphasort saved.directory := by
      unfold ScanOptions.listing
      dsimp only
      rw [if_neg]
      intro h
      exact hboth (Bool.and_eq_true_iff.1 h).1
    rw [hlisting, hsorted, flatMap_testcase_files hlen]

end RoundTrip

/-- Every queue of `n` entries with these names survives a fast resume exactly when the names
increase, which is up to a million entries with the `id:` scheme, and the scan is not
shuffled unless there is a single entry. -/
theorem roundTrips_iff (naming : Naming) (n : ℕ) (oldSeedSelection shuffleQueue : Bool) :
    RoundTrips naming n oldSeedSelection shuffleQueue ↔
      naming.Increasing n ∧ ((oldSeedSelection && shuffleQueue) = true → n ≤ 1) := by
  constructor
  · intro h
    refine ⟨h.increasing, fun hboth => ?_⟩
    obtain ⟨rfl, rfl⟩ := Bool.and_eq_true_iff.1 hboth
    exact h.not_shuffled
  · rintro ⟨hinc, hfew⟩ options rfl rfl start saved depth hstart - rfl hname hlen
    have hlt := (naming.name_lt_iff _).2 hinc
    have hnames := names_of_increasing saved options depth hlt hfew hname hlen
    have hlength : (readTestcases options (depth + 1) saved.directory).length =
        saved.queue.queuedItems := by
      have h := congrArg List.length hnames
      rwa [List.length_map, List.length_map, List.length_range] at h
    obtain ⟨t, ht⟩ := (resume_isSome_iff hstart).2 hlength
    refine ⟨t, ht, (resumed hstart ht).restored ?_ fun i hi k hk heq => ?_⟩
    · rw [hnames]
      refine List.map_congr_left fun i hi => ?_
      exact (hname i (List.mem_range.1 hi)).symm
    · rw [hname i hi, hname k hk] at heq
      rcases lt_trichotomy k i with h | h | h
      · exact absurd heq (hlt k i h hi).ne
      · exact h
      · exact absurd heq.symm (hlt i k h hk).ne

/-- The hashes of the one-byte files `b` and `a`, in the order in which they were queued. -/
def twoHashes (i : ℕ) : BitVec 160 :=
  if i = 0 then 0xe9d71f5ee7c92d6dc9e92ffdad17b8bd49418f98
  else 0x86f7e437faa5a7fce15d1ddcb9eaeaea377667b8

/-- Two entries that are named by their hashes exchange their records. -/
theorem twoHashes_not_roundTrips : ¬RoundTrips (.sha1 twoHashes []) 2 false false := by
  intro h
  have hlt := h.increasing 0 1 (by decide) (by decide)
  revert hlt
  decide

end Session

end AflPlusPlus.FastResume
