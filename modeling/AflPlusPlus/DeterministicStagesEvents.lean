import AflPlusPlus.DeterministicStages

/-!
# The events of the deterministic stages

Every stage leaves `out_buf` as it found it. Its events are those of its attempts at each
effective offset, all of them on the unmodified input.
-/

namespace AflPlusPlus.DeterministicStages
open ByteWords ByteBuffers

/-! ## Flipping bits -/

section FlipBits

variable {buf : Buffer} {p : ℕ}

/-- The bits of byte `p` among the `k` bits from the `b`-th on. -/
def bitMask : ℕ → ℕ → ℕ → Byte
  | 0, _, _ => 0#8
  | k + 1, b, p => bitMask k b p ^^^ if (b + k) / 8 = p then 128#8 >>> ((b + k) % 8) else 0#8

theorem bitMask_add (k b i p : ℕ) : bitMask k (8 * i + b) (i + p) = bitMask k b p := by
  induction k with
  | zero => rfl
  | succ k ih =>
    have hdiv : (8 * i + b + k) / 8 = i + p ↔ (b + k) / 8 = p := by omega
    have hmod : (8 * i + b + k) % 8 = (b + k) % 8 := by omega
    simp only [bitMask, ih, hdiv, hmod]

theorem bitMask_eq_zero {k b : ℕ} (h : b + k ≤ 8 * p ∨ 8 * p + 8 ≤ b) : bitMask k b p = 0#8 := by
  induction k with
  | zero => rfl
  | succ k ih =>
    have hne : (b + k) / 8 ≠ p := by omega
    rw [bitMask, ih (by omega), if_neg hne]
    rfl

@[simp] theorem length_flipBit (b : ℕ) : (flipBit buf b).length = buf.length := by
  simp [flipBit]

theorem flipBits_succ (k b : ℕ) : flipBits (k + 1) buf b = flipBit (flipBits k buf b) (b + k) := by
  simp [flipBits, List.range_succ]

@[simp] theorem length_flipBits (k b : ℕ) : (flipBits k buf b).length = buf.length := by
  induction k with
  | zero => rfl
  | succ k ih => rw [flipBits_succ, length_flipBit, ih]

theorem byteAt_flipBit (b : ℕ) (hp : p < buf.length) : byteAt (flipBit buf b) p =
    byteAt buf p ^^^ if b / 8 = p then 128#8 >>> (b % 8) else 0#8 := by
  simp only [byteAt, flipBit, List.getD_eq_getElem?_getD, List.getElem?_modify]
  split <;> simp [hp]

theorem byteAt_flipBits (k b : ℕ) (hp : p < buf.length) :
    byteAt (flipBits k buf b) p = byteAt buf p ^^^ bitMask k b p := by
  induction k with
  | zero => simp [flipBits, bitMask]
  | succ k ih =>
    rw [flipBits_succ, byteAt_flipBit _ (by simpa using hp), ih, bitMask, BitVec.xor_assoc]

theorem flipBits_flipBits (k b : ℕ) : flipBits k (flipBits k buf b) b = buf := by
  refine buffer_ext (by simp) fun p hp => ?_
  have hp : p < buf.length := by simpa using hp
  rw [byteAt_flipBits k b (by simpa using hp), byteAt_flipBits k b hp, BitVec.xor_assoc,
    BitVec.xor_self, BitVec.xor_zero]

end FlipBits

/-! ## The loops -/

section Loops

/-- A loop whose iterations restore the buffer appends the events of its iterations. -/
theorem foldl_events {α : Type*} {f : State → α → State} {g : α → List Event} {buf : Buffer}
    {xs : List α}
    (hf : ∀ x ∈ xs, ∀ evs, f ⟨buf, evs⟩ x = ⟨buf, evs ++ g x⟩) (evs : List Event) :
    xs.foldl f ⟨buf, evs⟩ = ⟨buf, evs ++ xs.flatMap g⟩ := by
  induction xs generalizing evs with
  | nil => simp
  | cons x xs ih =>
    rw [List.foldl_cons, hf x List.mem_cons_self, ih fun y hy => hf y (List.mem_cons_of_mem _ hy)]
    simp

variable {n : ℕ} (buf : Buffer)

/-- What an attempt on the input leaves behind. -/
def Attempt.event (i : ℕ) (a : Attempt n) : Event :=
  if a.skipped then .skip i (storeAt n buf i a.value)
  else .exec i a.valType (storeAt n buf i a.value)

/-- The attempts over a word see the rest of the input. -/
theorem foldl_attempt (i : ℕ) (as : List (Attempt n)) {s : State}
    (hs : ∃ x : Word n, s.outBuf = storeAt n buf i x) :
    ∃ x : Word n, as.foldl (attempt i) s =
      ⟨storeAt n buf i x, s.events ++ as.map (Attempt.event buf i)⟩ := by
  induction as generalizing s with
  | nil =>
    obtain ⟨x, hx⟩ := hs
    exact ⟨x, by simp [← hx]⟩
  | cons a as ih =>
    obtain ⟨x, hx⟩ := hs
    have hstep : ∃ y : Word n, attempt i s a =
        ⟨storeAt n buf i y, s.events ++ [Attempt.event buf i a]⟩ := by
      unfold attempt Attempt.event
      split
      · exact ⟨x, by simp [hx]⟩
      · exact ⟨a.value, by simp [hx, State.store, State.commonFuzzStuff]⟩
    obtain ⟨y, hy⟩ := hstep
    obtain ⟨z, hz⟩ := ih (s := attempt i s a) ⟨y, by rw [hy]⟩
    exact ⟨z, by rw [List.foldl_cons, hz, hy]; simp⟩

theorem foldl_attempt_restored (i : ℕ) (as : List (Attempt n)) (evs : List Event) :
    (as.foldl (attempt i) ⟨buf, evs⟩).store n i (loadAt n buf i) =
      ⟨buf, evs ++ as.map (Attempt.event buf i)⟩ := by
  obtain ⟨x, hx⟩ := foldl_attempt buf i as (s := ⟨buf, evs⟩) ⟨loadAt n buf i, by simp⟩
  simp [hx, State.store]

variable (skipEffMap : ℕ → Bool)

def bitflipEvents (k : ℕ) : List Event :=
  (List.range (8 * buf.length - (k - 1))).flatMap fun b =>
    if skipEffMap (b / 8) then [.exec (b / 8) .none (flipBits k buf b)] else []

def byteflipEvents (n : ℕ) : List Event :=
  (List.range (buf.length - (n - 1))).flatMap fun i =>
    if skipEffMap i then
      [.exec i .none (storeAt n buf i (loadAt n buf i ^^^ BitVec.allOnes (8 * n)))] else []

/-- The events of a stage with the given attempts over a word. -/
def wordEvents (attempts : Word n → List (Attempt n)) : List Event :=
  (List.range (buf.length - (n - 1))).flatMap fun i =>
    if skipEffMap i then (attempts (loadAt n buf i)).map (Attempt.event buf i) else []

theorem bitflip_eq (k : ℕ) (evs : List Event) :
    bitflip skipEffMap k ⟨buf, evs⟩ = ⟨buf, evs ++ bitflipEvents buf skipEffMap k⟩ := by
  refine foldl_events (fun b _ evs => ?_) evs
  split <;> simp [State.commonFuzzStuff, flipBits_flipBits]

theorem byteflip_eq (hn : 0 < n) (evs : List Event) :
    byteflip skipEffMap n ⟨buf, evs⟩ = ⟨buf, evs ++ byteflipEvents buf skipEffMap n⟩ := by
  refine foldl_events (fun i hi evs => ?_) evs
  have hle : i + n ≤ buf.length := by
    have hlt : i < buf.length - (n - 1) := List.mem_range.mp hi
    omega
  split
  · simp [State.commonFuzzStuff, State.store, loadAt_storeAt _ hle]
  · simp

theorem arith_eq (attempts : Word n → ℕ → List (Attempt n)) (evs : List Event) :
    arith skipEffMap n attempts ⟨buf, evs⟩ = ⟨buf, evs ++ wordEvents buf skipEffMap
      fun orig => (List.range' 1 arithMax).flatMap (attempts orig)⟩ := by
  refine foldl_events (fun i _ evs => ?_) evs
  simp only [List.map_flatMap]
  split
  · exact foldl_events (fun j _ evs => foldl_attempt_restored buf i _ evs) evs
  · simp

theorem interest_eq (values : List ℤ) (attempts : Word n → ℤ → List (Attempt n))
    (evs : List Event) : interest skipEffMap n values attempts ⟨buf, evs⟩ =
      ⟨buf, evs ++ wordEvents buf skipEffMap fun orig => values.flatMap (attempts orig)⟩ := by
  refine foldl_events (fun i _ evs => ?_) evs
  split
  · rw [← foldl_attempt_restored, List.foldl_flatMap]
  · simp

theorem interest8_eq (evs : List Event) : interest8 skipEffMap ⟨buf, evs⟩ =
    ⟨buf,
      evs ++ wordEvents buf skipEffMap fun orig => interesting8.map (interest8Attempt orig)⟩ := by
  refine foldl_events (fun i _ evs => ?_) evs
  split
  · rw [List.map_map, List.map_eq_flatMap]
    refine foldl_events (fun v _ evs => ?_) evs
    have h := foldl_attempt_restored buf i [interest8Attempt (loadAt 1 buf i) v] evs
    simp only [List.foldl_cons, List.foldl_nil] at h
    dsimp only
    split
    · next hskip => simp [attempt, Attempt.event, hskip]
    · exact h
  · simp

/-- The events of a stage on the buffer. -/
def Stage.events : Stage → List Event
  | flip1 => .exec 0 .none buf :: bitflipEvents buf skipEffMap 1
  | flip2 => bitflipEvents buf skipEffMap 2
  | flip4 => bitflipEvents buf skipEffMap 4
  | flip8 => byteflipEvents buf skipEffMap 1
  | flip16 => byteflipEvents buf skipEffMap 2
  | flip32 => byteflipEvents buf skipEffMap 4
  | arith8 => wordEvents buf skipEffMap fun orig =>
      (List.range' 1 arithMax).flatMap (arith8Attempts orig)
  | arith16 => wordEvents buf skipEffMap fun orig =>
      (List.range' 1 arithMax).flatMap (arith16Attempts orig)
  | arith32 => wordEvents buf skipEffMap fun orig =>
      (List.range' 1 arithMax).flatMap (arith32Attempts orig)
  | interest8 => wordEvents buf skipEffMap fun orig => interesting8.map (interest8Attempt orig)
  | interest16 => wordEvents buf skipEffMap fun orig =>
      interesting16.flatMap (interest16Attempts orig)
  | interest32 => wordEvents buf skipEffMap fun orig =>
      interesting32.flatMap (interest32Attempts orig)

theorem Stage.run_eq (st : Stage) :
    st.run skipEffMap ⟨buf, []⟩ = ⟨buf, st.events buf skipEffMap⟩ := by
  cases st with
  | flip1 => exact bitflip_eq buf skipEffMap 1 [.exec 0 .none buf]
  | flip2 => exact bitflip_eq buf skipEffMap 2 []
  | flip4 => exact bitflip_eq buf skipEffMap 4 []
  | flip8 => exact byteflip_eq buf skipEffMap (by decide) []
  | flip16 => exact byteflip_eq buf skipEffMap (by decide) []
  | flip32 => exact byteflip_eq buf skipEffMap (by decide) []
  | arith8 => exact arith_eq buf skipEffMap arith8Attempts []
  | arith16 => exact arith_eq buf skipEffMap arith16Attempts []
  | arith32 => exact arith_eq buf skipEffMap arith32Attempts []
  | interest8 => exact interest8_eq buf skipEffMap []
  | interest16 => exact interest_eq buf skipEffMap interesting16 interest16Attempts []
  | interest32 => exact interest_eq buf skipEffMap interesting32 interest32Attempts []

theorem runStages_eq (sts : List Stage) : runStages skipEffMap sts buf =
    sts.flatMap fun st => (st.events buf skipEffMap).map (st, ·) := by
  induction sts with
  | nil => rfl
  | cons st sts ih => simp only [runStages, Stage.run_eq, ih, List.flatMap_cons]

end Loops

end AflPlusPlus.DeterministicStages
