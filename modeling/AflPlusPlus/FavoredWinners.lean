import AflPlusPlus.FavoredCover
import AflPlusPlus.GreedyCovers

/-!
# The entries that a cull favors

The winner loop of `cull_queue` is a greedy cover: it favors the winners that it picks, and
nobody else, whether or not they are disabled.
-/

namespace AflPlusPlus.FavoredSet.QueueState
open ByteWords CoverageMap GreedyCovers

/-- The scores are those of entries in the queue. -/
structure Addressed (s : QueueState) : Prop where
  winner_lt : ∀ i q, s.topRated i = some q → q < s.queuedItems
  candidate_lt : ∀ i, ∀ q ∈ s.topRatedCandidates i, q < s.queuedItems

theorem Counted.addressed {s : QueueState} (h : s.Counted) : s.Addressed :=
  ⟨h.winner_lt, h.candidate_lt⟩

/-- The winner of an index, if it has a mini-trace. -/
def candidate (s : QueueState) (i : ℕ) : Option ℕ :=
  (s.topRated i).filter fun w => (s.queueBuf w).traceMini.isSome

/-- The mini-trace of entry `w` has the bit of index `i`. -/
def recorded (s : QueueState) (w i : ℕ) : Bool :=
  (s.queueBuf w).traceMini.any fun m => bitSet m i

/-- The picks of the winner loop. -/
def winners (s : QueueState) : List ℕ :=
  greedy s.candidate s.recorded (List.range s.geometry.mapSize) fun _ => false

/-- The first of the picks that has not been fuzzed. -/
def firstPending (s : QueueState) (picks : List ℕ) : ℤ :=
  match picks.find? fun w => !(s.queueBuf w).wasFuzzed with
  | some w => w
  | none => -1

/-- The entry after a loop that has favored `picks`. -/
def favoring (s : QueueState) (picks : List ℕ) (q : ℕ) : QueueEntry :=
  { s.queueBuf q with favored := (s.queueBuf q).favored || decide (q ∈ picks) }

section Loop
variable {s : QueueState} {w i : ℕ} {m : Mem} {picks : List ℕ} {t : Mem × QueueState}

theorem candidate_eq_some : s.candidate i = some w ↔
    s.topRated i = some w ∧ ∃ m, (s.queueBuf w).traceMini = some m := by
  rw [candidate, Option.filter_eq_some_iff, Option.isSome_iff_exists]

theorem firstPending_append (h : w ∈ picks) : s.firstPending (picks ++ [w]) =
    s.firstPending picks := by
  rw [firstPending, firstPending, List.find?_append]
  cases hf : picks.find? fun w => !(s.queueBuf w).wasFuzzed with
  | some v => rfl
  | none =>
    have hw := List.find?_eq_none.mp hf w h
    rw [Option.none_or, List.find?_singleton, if_neg hw]

theorem firstPending_append_new (w : ℕ) : s.firstPending (picks ++ [w]) =
    if (!(s.queueBuf w).wasFuzzed) = true ∧ s.firstPending picks < 0 then (w : ℤ)
    else s.firstPending picks := by
  rw [firstPending, firstPending, List.find?_append]
  cases hf : picks.find? fun w => !(s.queueBuf w).wasFuzzed with
  | some v =>
    rw [if_neg (by simp)]
    rfl
  | none =>
    rw [Option.none_or]
    cases hw : (s.queueBuf w).wasFuzzed <;> simp [hw]

/-- What the winner loop has made of `s` when it has picked `picks`. -/
structure Picked (s : QueueState) (picks : List ℕ) (t : QueueState) : Prop where
  geometry_eq : t.geometry = s.geometry
  topRated_eq : t.topRated = s.topRated
  queuedItems_eq : t.queuedItems = s.queuedItems
  redundant_eq : t.disableRedundant = s.disableRedundant
  queueBuf_eq : t.queueBuf = s.favoring picks
  smallest_eq : t.smallestFavored = s.firstPending picks

theorem Picked.mini_eq (h : Picked s picks t.2) (q : ℕ) :
    (t.2.queueBuf q).traceMini = (s.queueBuf q).traceMini := by
  rw [h.queueBuf_eq]
  rfl

theorem favoring_of_mem (h : w ∈ picks) : s.favoring (picks ++ [w]) = s.favoring picks := by
  funext q
  have hmem : q ∈ picks ++ [w] ↔ q ∈ picks := by
    rw [List.mem_append, List.mem_singleton]
    exact ⟨fun hq => hq.elim id fun hq => hq ▸ h, Or.inl⟩
  simp only [favoring, hmem]

theorem favoring_append (picks : List ℕ) (w : ℕ) : s.favoring (picks ++ [w]) =
    Function.update (s.favoring picks) w { s.favoring picks w with favored := true } := by
  funext q
  by_cases hq : q = w
  · rw [hq, Function.update_self]
    simp [favoring]
  · rw [Function.update_of_ne hq]
    simp [favoring, hq]

theorem Picked.skip (h : Picked s picks t.2) (hi : s.candidate i = none ∨ bitSet t.1 i = false) :
    favorStep t i = t := by
  unfold favorStep
  dsimp only
  rw [h.topRated_eq]
  cases hw : s.topRated i with
  | none => rfl
  | some w =>
    dsimp only
    rw [h.mini_eq]
    cases hm : (s.queueBuf w).traceMini with
    | none => rfl
    | some m =>
      have hc : s.candidate i = some w := candidate_eq_some.mpr ⟨hw, m, hm⟩
      have hbit : bitSet t.1 i = false := hi.resolve_left (by simp [hc])
      dsimp only
      rw [if_neg (by simp [hbit])]

/-- `favored` is clear at the start, so it says who has been picked so far. -/
theorem Picked.pick (h : Picked s picks t.2) (hclear : (s.queueBuf w).favored = false)
    (hw : s.topRated i = some w) (hm : (s.queueBuf w).traceMini = some m)
    (hbit : bitSet t.1 i = true) :
    Picked s (picks ++ [w]) (favorStep t i).2 ∧ (favorStep t i).1 =
      fun j => if j < s.geometry.mapSize >>> 3 then t.1 j &&& ~~~m j else t.1 j := by
  have hfavored : (t.2.queueBuf w).favored = decide (w ∈ picks) := by
    rw [h.queueBuf_eq, favoring, hclear, Bool.false_or]
  have hfuzzed : (t.2.queueBuf w).wasFuzzed = (s.queueBuf w).wasFuzzed := by
    rw [h.queueBuf_eq, favoring]
  unfold favorStep
  dsimp only
  rw [h.topRated_eq, hw]
  dsimp only
  rw [h.mini_eq, hm]
  dsimp only
  rw [if_pos hbit, hfavored, h.geometry_eq]
  by_cases hmem : w ∈ picks
  · rw [if_pos (by simpa using hmem)]
    refine ⟨{ h with queueBuf_eq := ?_, smallest_eq := ?_ }, rfl⟩
    · rw [favoring_of_mem hmem]
      exact h.queueBuf_eq
    · rw [firstPending_append hmem]
      exact h.smallest_eq
  · rw [if_neg (by simpa using hmem)]
    refine ⟨{ h with queueBuf_eq := ?_, smallest_eq := ?_ }, rfl⟩
    · rw [favoring_append, ← h.queueBuf_eq]
      rfl
    · rw [firstPending_append_new, ← hfuzzed, ← h.smallest_eq]
      rfl

/-- The loop over a list of indices picks greedily. -/
theorem Picked.loop (hclear : ∀ i w, s.topRated i = some w → (s.queueBuf w).favored = false)
    {is : List ℕ} (his : ∀ i ∈ is, i < s.geometry.mapSize) (h : Picked s picks t.2) :
    Picked s (picks ++ greedy s.candidate s.recorded is fun j => !bitSet t.1 j)
      (is.foldl favorStep t).2 := by
  induction is generalizing picks t with
  | nil =>
    rw [greedy, List.append_nil]
    exact h
  | cons i is ih =>
    obtain ⟨hi, his⟩ := List.forall_mem_cons.mp his
    rw [List.foldl_cons]
    cases hc : s.candidate i with
    | none =>
      rw [greedy_of_none hc, h.skip (.inl hc)]
      exact ih his h
    | some w =>
      obtain ⟨hw, m, hm⟩ := candidate_eq_some.mp hc
      cases hbit : bitSet t.1 i with
      | false =>
        rw [greedy_of_seen (by simp [hbit]), h.skip (.inr hbit)]
        exact ih his h
      | true =>
        obtain ⟨hpick, htemp⟩ := h.pick (hclear i w hw) hw hm hbit
        have hseen : ∀ j ∈ is, (!bitSet (favorStep t i).1 j) =
            (!bitSet t.1 j || s.recorded w j) := by
          intro j hj
          rw [htemp, bitSet_clear _ _ _ (his j hj), recorded, hm, Option.any_some]
          cases bitSet t.1 j <;> cases bitSet m j <;> rfl
        rw [greedy_of_unseen hc (by simp [hbit]), ← greedy_congr hseen]
        simpa using ih his hpick

end Loop

/-- The entries that the winner loop favors are its picks. -/
theorem favorWinners_picked {s : QueueState}
    (hclear : ∀ i w, s.topRated i = some w → (s.queueBuf w).favored = false)
    (hsmallest : s.smallestFavored = -1) : Picked s s.winners s.favorWinners := by
  have hstart : Picked s [] s := by
    refine ⟨rfl, rfl, rfl, rfl, ?_, hsmallest⟩
    funext q
    simp [favoring]
  have hseen : (fun j => !bitSet (fun _ => 0xff) j) = fun _ => false := by
    funext j
    rw [bitSet_full]
    rfl
  have hloop := Picked.loop (t := (fun _ => 0xff, s)) hclear
    (fun i hi => List.mem_range.mp hi) hstart
  rw [hseen, List.nil_append] at hloop
  exact hloop

/-! ## The whole cull -/

section Cull
variable {s : QueueState} {q : ℕ}

theorem resetFavored_winners (s : QueueState) : s.resetFavored.winners = s.winners := by
  have hcandidate : s.resetFavored.candidate = s.candidate := by
    funext i
    simp only [candidate, resetFavored_mini]
    rfl
  have hrecorded : s.resetFavored.recorded = s.recorded := by
    funext w i
    simp only [recorded, resetFavored_mini]
  rw [winners, hcandidate, hrecorded]
  rfl

theorem mem_winners (hin : s.Addressed) {w : ℕ} (h : w ∈ s.winners) : w < s.queuedItems := by
  obtain ⟨i, -, hi⟩ := exists_candidate h
  exact hin.winner_lt i w (candidate_eq_some.mp hi).1

/-- What the last loop of `cull_queue` makes of an entry. -/
def marked (disableRedundant : Bool) (entry : QueueEntry) : QueueEntry :=
  if entry.disabled = true ∨ (!entry.favored) = entry.fsRedundant then entry
  else { entry with
    fsRedundant := !entry.favored
    traceMini := if (!entry.favored) = true then none else entry.traceMini
    disabled := if ((!entry.favored) && disableRedundant) = true then true else entry.disabled }

/-- One iteration of the last loop changes one entry. -/
theorem markStep_queueBuf (s : QueueState) (q : ℕ) :
    (if (s.queueBuf q).disabled then s else s.markAsRedundant q !(s.queueBuf q).favored) =
      { s with queueBuf :=
        Function.update s.queueBuf q (marked s.disableRedundant (s.queueBuf q)) } := by
  have hsame : s = { s with queueBuf := Function.update s.queueBuf q (s.queueBuf q) } := by
    rw [Function.update_eq_self]
  unfold markAsRedundant marked
  by_cases hdisabled : (s.queueBuf q).disabled = true
  · rw [if_pos hdisabled, if_pos (.inl hdisabled)]
    exact hsame
  · rw [if_neg hdisabled]
    by_cases heq : (!(s.queueBuf q).favored) = (s.queueBuf q).fsRedundant
    · rw [if_pos heq, if_pos (.inr heq)]
      exact hsame
    · rw [if_neg heq, if_neg (not_or.mpr ⟨hdisabled, heq⟩)]
      rfl

theorem markUnfavored_loop (s : QueueState) (n : ℕ) :
    (List.range n).foldl (fun s q =>
      if (s.queueBuf q).disabled then s else s.markAsRedundant q !(s.queueBuf q).favored) s =
    { s with queueBuf := fun q =>
      if q < n then marked s.disableRedundant (s.queueBuf q) else s.queueBuf q } := by
  induction n with
  | zero => rfl
  | succ n ih =>
    rw [List.range_succ, List.foldl_append, ih, List.foldl_cons, List.foldl_nil,
      markStep_queueBuf]
    refine congrArg (fun buf => { s with queueBuf := buf }) (funext fun q => ?_)
    dsimp only
    rcases Nat.lt_trichotomy q n with hq | rfl | hq
    · rw [Function.update_of_ne hq.ne, if_pos hq, if_pos (hq.trans n.lt_succ_self)]
    · rw [Function.update_self, if_neg (lt_irrefl q), if_pos q.lt_succ_self]
    · rw [Function.update_of_ne hq.ne', if_neg (by omega), if_neg (by omega)]

theorem resetFavored_picked (hin : s.Addressed) :
    Picked s.resetFavored s.winners s.resetFavored.favorWinners := by
  rw [← resetFavored_winners]
  refine favorWinners_picked (fun i w hw => ?_) rfl
  exact congrArg QueueEntry.favored (if_pos (hin.winner_lt i w hw))

/-- The entry after a cull that takes effect. -/
theorem cullQueue_entry (hin : s.Addressed) (hchanged : s.scoreChanged = true)
    (hmode : s.nonInstrumentedMode = false) (hq : q < s.queuedItems) :
    s.cullQueue.queueBuf q = marked s.disableRedundant
      { s.queueBuf q with favored := decide (q ∈ s.winners) } := by
  have hpicked := resetFavored_picked hin
  have hreset : s.resetFavored.queueBuf q = { s.queueBuf q with favored := false } := if_pos hq
  rw [cullQueue, hchanged, hmode, if_neg (by decide), markUnfavored, markUnfavored_loop,
    hpicked.queuedItems_eq, hpicked.redundant_eq]
  change (if q < s.queuedItems then _ else _) = _
  rw [if_pos hq, hpicked.queueBuf_eq, favoring, hreset]
  rfl

/-- The index that `cull_queue` leaves is that of its first pick that has not been fuzzed. -/
theorem cullQueue_smallest (hin : s.Addressed) (hchanged : s.scoreChanged = true)
    (hmode : s.nonInstrumentedMode = false) :
    s.cullQueue.smallestFavored = s.firstPending s.winners := by
  have hfuzzed : ∀ q, (s.resetFavored.queueBuf q).wasFuzzed = (s.queueBuf q).wasFuzzed := by
    intro q
    unfold resetFavored
    dsimp only
    split <;> rfl
  rw [cullQueue, hchanged, hmode, if_neg (by decide), markUnfavored, markUnfavored_loop]
  refine (resetFavored_picked hin).smallest_eq.trans ?_
  simp only [firstPending, hfuzzed]

theorem cullQueue_idle (h : s.scoreChanged = false ∨ s.nonInstrumentedMode = true) :
    s.cullQueue = s := by
  rw [cullQueue, if_pos]
  rcases h with h | h <;> simp [h]

end Cull

end AflPlusPlus.FavoredSet.QueueState
