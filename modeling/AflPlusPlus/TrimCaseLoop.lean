import AflPlusPlus.FavoredSetInvariants
import AflPlusPlus.TrimCase

/-!
# What the trimming loops leave

Every state that the loops reach holds a subsequence of the input, made by deleting chunks,
with the checksum of the entry. The loops end, because an iteration shortens the buffer or
advances the position, and the chunk sizes get smaller.
-/

namespace AflPlusPlus.Trimming
open ByteWords CoverageMap ListBlocks TransitionSystems
open Fuzzer (Fault)

/-- A chunk of at least four bytes, or the shorter rest at the end, is deleted behind the
first chunk. -/
def DeletesChunk (input output : List Byte) : Prop :=
  ∃ pos removeLen, trimMinBytes ≤ removeLen ∧ removeLen ≤ pos ∧ pos < input.length ∧
    output = eraseBlock pos (min removeLen (input.length - pos)) input

theorem DeletesChunk.sublist {input output : List Byte} (h : DeletesChunk input output) :
    output.Sublist input := by
  obtain ⟨pos, removeLen, -, -, -, rfl⟩ := h
  exact eraseBlock_sublist

theorem sublist_of_deletes {input output : List Byte}
    (h : Relation.ReflTransGen DeletesChunk input output) : output.Sublist input := by
  induction h with
  | refl => exact List.Sublist.refl _
  | tail _ hstep ih => exact hstep.sublist.trans ih

theorem DeletesChunk.ne_nil {input output : List Byte} (h : DeletesChunk input output) :
    output ≠ [] := by
  obtain ⟨pos, removeLen, hmin, hle, hlt, rfl⟩ := h
  have hfour : trimMinBytes = 4 := rfl
  have hlen : 0 < (input.take pos).length := by
    rw [List.length_take]
    omega
  intro hnil
  rw [eraseBlock, List.append_eq_nil_iff] at hnil
  rw [hnil.1] at hlen
  exact absurd hlen (by simp)

theorem ne_nil_of_deletes {input output : List Byte}
    (h : Relation.ReflTransGen DeletesChunk input output) (hne : input ≠ []) : output ≠ [] := by
  cases h with
  | refl => exact hne
  | tail _ hstep => exact hstep.ne_nil

namespace LoopState

variable {afl : Afl} {execCksum : BitVec 64} {s t : LoopState}

/-- The state of the loops after chunks of `input` were deleted. -/
structure Trims (afl : Afl) (execCksum : BitVec 64) (input : List Byte) (s : LoopState) : Prop where
  len_le : s.len ≤ s.inBuf.length
  deletes : Relation.ReflTransGen DeletesChunk input s.content
  cksum_eq : afl.cksum s.content = execCksum
  removeLen_le : s.status = .running → trimMinBytes ≤ s.removeLen ∧ s.removeLen ≤ s.removePos

theorem Trims.length_content {input : List Byte} (h : s.Trims afl execCksum input) :
    s.content.length = s.len := by
  rw [content, List.length_take, Nat.min_eq_left h.len_le]

theorem writeWithGap_eq (afl : Afl) {mem : List Byte} {len at' n : ℕ} (h : at' + n ≤ len) :
    afl.writeWithGap mem len at' n = afl.postProcess (eraseBlock at' n (mem.take len)) := by
  have hhead : (mem.take len).take at' = mem.take at' := by
    rw [List.take_take, Nat.min_eq_left (by omega)]
  rw [Afl.writeWithGap, eraseBlock, hhead, List.drop_take, Nat.sub_sub]

theorem pos_add_trimAvail_le (h : s.removePos < s.len) : s.removePos + s.trimAvail ≤ s.len := by
  have := Nat.min_le_right s.removeLen (s.len - s.removePos)
  unfold trimAvail
  omega

/-- What the buffer holds when a chunk was deleted. -/
theorem content_accept (hlen : s.len ≤ s.inBuf.length) (h : s.removePos < s.len)
    (traceBits : Mem) :
    (s.accept traceBits).content = eraseBlock s.removePos s.trimAvail s.content :=
  take_memmove (pos_add_trimAvail_le h) hlen

theorem length_accept_inBuf (hlen : s.len ≤ s.inBuf.length) (h : s.removePos < s.len)
    (traceBits : Mem) : (s.accept traceBits).inBuf.length = s.inBuf.length := by
  have hpos := pos_add_trimAvail_le h
  change (memmove _ _ _ s.inBuf).length = _
  exact length_memmove (by omega) (by omega)

/-- What happens in an iteration of the inner loop. -/
theorem tryChunk_cases {stopSoon : Bool} {fault : Fault} (h : s.removePos < s.len) :
    ((stopSoon ∨ fault = .error) ∧
      s.tryChunk afl execCksum stopSoon fault = { s with fault := fault, status := .aborted }) ∨
    (¬(stopSoon ∨ fault = .error) ∧
      (afl.cksum (eraseBlock s.removePos s.trimAvail s.content) = execCksum ∧
        (∃ traceBits, s.tryChunk afl execCksum stopSoon fault =
          { s.accept traceBits with fault := fault }) ∨
      afl.cksum (eraseBlock s.removePos s.trimAvail s.content) ≠ execCksum ∧
        s.tryChunk afl execCksum stopSoon fault = { s.reject with fault := fault })) := by
  unfold tryChunk
  rw [writeWithGap_eq afl (pos_add_trimAvail_le h)]
  dsimp only
  by_cases hint : stopSoon ∨ fault = .error
  · exact .inl ⟨hint, if_pos hint⟩
  · refine .inr ⟨hint, ?_⟩
    rw [if_neg hint]
    by_cases hck : afl.cksum (eraseBlock s.removePos s.trimAvail s.content) = execCksum
    · exact .inl ⟨hck, _, if_pos hck⟩
    · exact .inr ⟨hck, if_neg hck⟩

/-- What a step of the loops does. -/
inductive Stepped (afl : Afl) (execCksum : BitVec 64) (s : LoopState) :
    LoopAction → LoopState → Prop
  | abort (stopSoon : Bool) (fault : Fault) (hrun : s.status = .running)
    (hpos : s.removePos < s.len) (hint : stopSoon ∨ fault = .error) :
    Stepped afl execCksum s (.execute stopSoon fault)
      { s with fault := fault, status := .aborted }
  | accept (stopSoon : Bool) (fault : Fault) (traceBits : Mem) (hrun : s.status = .running)
    (hpos : s.removePos < s.len) (hint : ¬(stopSoon ∨ fault = .error))
    (hck : afl.cksum (eraseBlock s.removePos s.trimAvail s.content) = execCksum) :
    Stepped afl execCksum s (.execute stopSoon fault) { s.accept traceBits with fault := fault }
  | reject (stopSoon : Bool) (fault : Fault) (hrun : s.status = .running)
    (hpos : s.removePos < s.len) (hint : ¬(stopSoon ∨ fault = .error))
    (hck : afl.cksum (eraseBlock s.removePos s.trimAvail s.content) ≠ execCksum) :
    Stepped afl execCksum s (.execute stopSoon fault) { s.reject with fault := fault }
  | nextRound (hrun : s.status = .running) (hpos : ¬s.removePos < s.len) :
    Stepped afl execCksum s .nextRound (s.enterRound (s.removeLen / 2))

theorem stepped {a : LoopAction} (hstep : s.step afl execCksum a = some t) :
    s.Stepped afl execCksum a t := by
  cases a with
  | execute stopSoon fault =>
    rw [LoopState.step] at hstep
    split at hstep
    · next hguard =>
      obtain rfl := Option.some.inj hstep
      rcases tryChunk_cases hguard.2 with ⟨hint, ht⟩ | ⟨hint, ⟨hck, traceBits, ht⟩ | ⟨hck, ht⟩⟩
      · rw [ht]
        exact .abort stopSoon fault hguard.1 hguard.2 hint
      · rw [ht]
        exact .accept stopSoon fault traceBits hguard.1 hguard.2 hint hck
      · rw [ht]
        exact .reject stopSoon fault hguard.1 hguard.2 hint hck
    · exact absurd hstep (by simp)
  | nextRound =>
    rw [LoopState.step] at hstep
    split at hstep
    · next hguard =>
      obtain rfl := Option.some.inj hstep
      exact .nextRound hguard.1 hguard.2
    · exact absurd hstep (by simp)

section Steps

variable {input : List Byte}

theorem Trims.accept (h : s.Trims afl execCksum input) (hrun : s.status = .running)
    (hpos : s.removePos < s.len)
    (hck : afl.cksum (eraseBlock s.removePos s.trimAvail s.content) = execCksum)
    (traceBits : Mem) (fault : Fault) :
    Trims afl execCksum input { s.accept traceBits with fault := fault } where
  len_le := by
    change s.len - s.trimAvail ≤ (s.accept traceBits).inBuf.length
    rw [length_accept_inBuf h.len_le hpos]
    exact (Nat.sub_le _ _).trans h.len_le
  deletes := by
    refine h.deletes.tail ?_
    obtain ⟨hmin, hle⟩ := h.removeLen_le hrun
    have hcontent := content_accept h.len_le hpos traceBits
    exact ⟨s.removePos, s.removeLen, hmin, hle, h.length_content.symm ▸ hpos,
      hcontent.trans (by rw [trimAvail, h.length_content])⟩
  cksum_eq := by
    have hcontent := content_accept h.len_le hpos traceBits
    exact (congrArg afl.cksum hcontent).trans hck
  removeLen_le := fun _ => h.removeLen_le hrun

theorem Trims.reject (h : s.Trims afl execCksum input) (fault : Fault) :
    Trims afl execCksum input { s.reject with fault := fault } where
  len_le := h.len_le
  deletes := h.deletes
  cksum_eq := h.cksum_eq
  removeLen_le := by
    intro hrun
    obtain ⟨hmin, hle⟩ := h.removeLen_le hrun
    exact ⟨hmin, hle.trans (Nat.le_add_right _ _)⟩

theorem Trims.finish (h : s.Trims afl execCksum input) (fault : Fault) (status : LoopStatus)
    (hstatus : status ≠ .running) :
    Trims afl execCksum input { s with fault := fault, status := status } :=
  { h with removeLen_le := fun hrun => absurd hrun hstatus }

/-- A round starts behind the first chunk; the loops end when the chunks get too small. -/
theorem Trims.enterRound (h : Trims afl execCksum input { s with status := .finished })
    (removeLen : ℕ) : (s.enterRound removeLen).Trims afl execCksum input := by
  unfold LoopState.enterRound
  split
  · next hround =>
    refine { h with removeLen_le := fun _ => ⟨?_, le_rfl⟩ }
    exact (Nat.le_max_right _ _).trans hround
  · exact { h with removeLen_le := nofun }

theorem Trims.step (h : s.Trims afl execCksum input) (a : LoopAction)
    (hstep : s.step afl execCksum a = some t) : t.Trims afl execCksum input := by
  cases stepped hstep with
  | abort _ fault => exact h.finish fault .aborted nofun
  | accept _ fault traceBits hrun hpos _ hck => exact h.accept hrun hpos hck traceBits fault
  | reject _ fault => exact h.reject fault
  | nextRound => exact (h.finish s.fault .finished nofun).enterRound _

theorem Trims.start (input : List Byte) :
    (start input input.length).Trims afl (afl.cksum input) input := by
  have hinit : ∀ s : LoopState, s.inBuf = input → s.len = input.length → s.status = .finished →
      s.Trims afl (afl.cksum input) input := by
    intro s hbuf hlen hstatus
    have hcontent : s.content = input := by
      rw [content, hbuf, hlen, List.take_length]
    refine ⟨by rw [hbuf, hlen], ?_, ?_, fun h => absurd (hstatus.symm.trans h) nofun⟩
    · rw [hcontent]
    · rw [hcontent]
  unfold LoopState.start
  dsimp only
  split
  · exact hinit _ rfl rfl rfl
  · exact (hinit _ rfl rfl rfl).enterRound _

/-- What every run of the loops preserves. -/
theorem run_trims {input : List Byte} {actions : List LoopAction}
    (h : run (LoopState.step afl (afl.cksum input)) (LoopState.start input input.length) actions =
      some t) : t.Trims afl (afl.cksum input) input :=
  run_invariant (fun _ a _ hs hstep => hs.step a hstep) (Trims.start input) h

/-! ## The loops end -/

/-- Decreases with every step: the chunk size decides first, then what is left of the
buffer. -/
def measure (size : ℕ) (s : LoopState) : ℕ :=
  if s.status = .running then s.removeLen * (size + 1) + (s.len - s.removePos) + 1 else 0

theorem measure_step_lt (h : s.Trims afl execCksum input) (a : LoopAction)
    (hstep : s.step afl execCksum a = some t) :
    t.measure input.length < s.measure input.length := by
  have hsize : s.len ≤ input.length := by
    rw [← h.length_content]
    exact (sublist_of_deletes h.deletes).length_le
  have hmin : trimMinBytes = 4 := rfl
  have hmeasure : ∀ u : LoopState, u.status = .running → u.measure input.length =
      u.removeLen * (input.length + 1) + (u.len - u.removePos) + 1 := fun _ hrun => if_pos hrun
  cases stepped hstep with
  | abort _ _ hrun =>
    rw [hmeasure s hrun, measure, if_neg (by simp)]
    exact Nat.succ_pos _
  | accept _ fault traceBits hrun hpos =>
    obtain ⟨hfour, hle⟩ := h.removeLen_le hrun
    have havail : 0 < s.trimAvail := by
      unfold trimAvail
      omega
    have hend := pos_add_trimAvail_le hpos
    have ht : measure input.length { s.accept traceBits with fault := fault } =
        s.removeLen * (input.length + 1) + (s.len - s.trimAvail - s.removePos) + 1 :=
      hmeasure _ hrun
    rw [ht, hmeasure s hrun]
    omega
  | reject _ fault hrun hpos =>
    obtain ⟨hfour, hle⟩ := h.removeLen_le hrun
    have ht : measure input.length { s.reject with fault := fault } =
        s.removeLen * (input.length + 1) + (s.len - (s.removePos + s.removeLen)) + 1 :=
      hmeasure _ hrun
    rw [ht, hmeasure s hrun]
    omega
  | nextRound hrun =>
    obtain ⟨hfour, hle⟩ := h.removeLen_le hrun
    unfold LoopState.enterRound
    split
    · have ht : measure input.length
          { s with removeLen := s.removeLen / 2, removePos := s.removeLen / 2 } =
          s.removeLen / 2 * (input.length + 1) + (s.len - s.removeLen / 2) + 1 :=
        hmeasure _ hrun
      have hmul : (s.removeLen / 2 + 1) * (input.length + 1) ≤
          s.removeLen * (input.length + 1) := Nat.mul_le_mul_right _ (by omega)
      rw [Nat.add_mul, Nat.one_mul] at hmul
      rw [ht, hmeasure s hrun]
      omega
    · rw [hmeasure s hrun, measure, if_neg (by simp)]
      exact Nat.succ_pos _

theorem start_endsIn (input : List Byte) :
    EndsIn (LoopState.step afl (afl.cksum input)) (fun s => s.status ≠ .running)
      (LoopState.start input input.length) := by
  refine endsIn_of_measure (P := fun s => s.Trims afl (afl.cksum input) input)
    (measure input.length) (fun s a t hs hstep => hs.step a hstep)
    (fun s a t hs hstep => measure_step_lt hs a hstep) (fun s _ hstuck hrun => ?_)
    (Trims.start input)
  by_cases hpos : s.removePos < s.len
  · exact absurd (hstuck (.execute false .ok)) (by simp [LoopState.step, hrun, hpos])
  · exact absurd (hstuck .nextRound) (by simp [LoopState.step, hrun, hpos])

/-- An iteration runs a chunk inside the buffer; when the chunk is deleted, the position is
inside the shorter buffer as well or at its end. -/
theorem step_execute_pos {stopSoon : Bool} {fault : Fault}
    (hstep : s.step afl execCksum (.execute stopSoon fault) = some t) :
    s.removePos + s.trimAvail ≤ s.len ∧
      (t.removePos ≤ t.len ∨ t.content = s.content ∧ t.removePos = s.removePos + s.removeLen) := by
  cases stepped hstep with
  | abort _ _ _ hpos => exact ⟨pos_add_trimAvail_le hpos, .inl hpos.le⟩
  | accept _ _ traceBits _ hpos =>
    have hend := pos_add_trimAvail_le hpos
    refine ⟨hend, .inl ?_⟩
    change s.removePos ≤ s.len - s.trimAvail
    omega
  | reject _ _ _ hpos => exact ⟨pos_add_trimAvail_le hpos, .inr ⟨rfl, rfl⟩⟩

end Steps

end LoopState

/-- In every run of the trimming loops the buffer is what is left of the input after chunks were
deleted, and keeps the checksum; a chunk that is run lies inside the buffer. Every run ends. -/
theorem trimCase_loops (afl : Afl) (input : List Byte) :
    (∀ actions s, run (LoopState.step afl (afl.cksum input)) (LoopState.start input input.length)
        actions = some s →
      s.content.length = s.len ∧ Relation.ReflTransGen DeletesChunk input s.content ∧
      s.content.Sublist input ∧ (input ≠ [] → s.content ≠ []) ∧
      s.content.length ≤ input.length ∧ afl.cksum s.content = afl.cksum input ∧
      ∀ stopSoon fault t, s.step afl (afl.cksum input) (.execute stopSoon fault) = some t →
        s.removePos < s.len ∧ s.removePos + s.trimAvail ≤ s.len ∧
        (t.removePos ≤ t.len ∨
          t.content = s.content ∧ t.removePos = s.removePos + s.removeLen)) ∧
    EndsIn (LoopState.step afl (afl.cksum input)) (fun s => s.status ≠ .running)
      (LoopState.start input input.length) := by
  refine ⟨fun actions s hrun => ?_, LoopState.start_endsIn input⟩
  have h := LoopState.run_trims hrun
  have hsub := sublist_of_deletes h.deletes
  refine ⟨h.length_content, h.deletes, hsub, ne_nil_of_deletes h.deletes, hsub.length_le,
    h.cksum_eq, fun stopSoon fault t hstep => ⟨?_, LoopState.step_execute_pos hstep⟩⟩
  by_contra hge
  rw [LoopState.step, if_neg fun hguard => hge hguard.2] at hstep
  exact absurd hstep (by simp)

/-! ## A target that tells some inputs from the others -/

def oneHitIf (hit : Bool) : Mem := fun i => if hit ∧ i = 0 then 1 else 0

/-- The first index of the map is hit for the inputs that `accepts` holds of. -/
def recognizer (accepts : List Byte → Bool) : Afl where
  geometry := FavoredSet.QueueState.emptyQueue.geometry
  target input := oneHitIf (accepts input)
  xxh3 bytes := (bytes.headD 0).setWidth 64
  customMutators := []
  postProcessKeepOriginal := false
  minLength := 1
  maxLength := 1024 * 1024
  noUnlink := false
  behind _ := 0

theorem classifyCounts_oneHitIf (g : MapGeometry) (hit : Bool) :
    classifyCounts g (oneHitIf hit) = oneHitIf hit := by
  funext i
  rw [classifyCounts_apply]
  unfold oneHitIf
  split <;> split <;> rfl

theorem recognizer_cksum (accepts : List Byte → Bool) (input : List Byte) :
    (recognizer accepts).cksum input = if accepts input then 1 else 0 := by
  have htrace : (recognizer accepts).classifiedTrace input = oneHitIf (accepts input) :=
    classifyCounts_oneHitIf _ _
  rw [Afl.cksum, htrace]
  cases accepts input <;> rfl

/-- When the last chunk of a round stays, the position passes the end of the buffer. -/
theorem removePos_past_len : ∃ s,
    run (LoopState.step (recognizer fun input => input.length == 5)
        ((recognizer fun input => input.length == 5).cksum [0, 1, 2, 3, 4]))
      (LoopState.start [0, 1, 2, 3, 4] 5) [.execute false .ok] = some s ∧
    s.status = .running ∧ s.len = 5 ∧ s.removePos = 8 := by
  set afl := recognizer fun input => input.length == 5
  have hstart : LoopState.start [0, 1, 2, 3, 4] 5 =
      { inBuf := [0, 1, 2, 3, 4], len := 5, lenP2 := 8, removeLen := 4, removePos := 4,
        needsWrite := false, cleanTrace := fun _ => 0, fault := .ok, status := .running } := rfl
  have hstep : (LoopState.start [0, 1, 2, 3, 4] 5).step afl (afl.cksum [0, 1, 2, 3, 4])
      (.execute false .ok) =
        some ((LoopState.start [0, 1, 2, 3, 4] 5).tryChunk afl (afl.cksum [0, 1, 2, 3, 4]) false
          .ok) := rfl
  rw [run_cons, hstep, Option.bind_some, run_nil]
  refine ⟨_, rfl, ?_⟩
  rcases @LoopState.tryChunk_cases afl (afl.cksum [0, 1, 2, 3, 4])
    (LoopState.start [0, 1, 2, 3, 4] 5) false .ok (by decide) with
    ⟨hint, -⟩ | ⟨-, ⟨hck, -⟩ | ⟨-, ht⟩⟩
  · exact absurd hint (by decide)
  · rw [recognizer_cksum, recognizer_cksum] at hck
    exact absurd hck (by decide)
  · rw [ht]
    exact ⟨rfl, rfl, rfl⟩

end AflPlusPlus.Trimming
