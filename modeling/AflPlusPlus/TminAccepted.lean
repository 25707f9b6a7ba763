import AflPlusPlus.TminMinimize

/-!
# What minimizing keeps

Every iteration that changes the buffer has run the target on exactly the new buffer, and an
iteration that changes nothing lets the loop advance. So the buffer is always an accepted
one and all runs end: a change makes the buffer shorter or turns a byte into `'0'`. Custom
mutators can break this in three ways: one that cannot process the buffer leaves the old test
case to run, one that has no trimming steps is asked again, and one that writes its proposal
over the buffer loses what was accepted.
-/

namespace AflPlusPlus.Tmin
open ByteWords CoverageMap ListBlocks TransitionSystems

/-! ## What decreases -/

/-- The number of bytes that are not `'0'`. -/
def nonDigits (xs : List Byte) : ℕ := xs.countP (· != digit0)

theorem nonDigits_append (xs ys : List Byte) :
    nonDigits (xs ++ ys) = nonDigits xs + nonDigits ys :=
  List.countP_append

theorem nonDigits_replicate (n : ℕ) : nonDigits (List.replicate n digit0) = 0 := by
  rw [nonDigits, List.countP_replicate, if_neg (by simp)]

theorem nonDigits_pos {xs : List Byte} (h : xs.all (· == digit0) = false) : 0 < nonDigits xs := by
  rw [nonDigits, List.countP_pos_iff]
  obtain ⟨b, hb, hne⟩ := List.all_eq_false.mp h
  exact ⟨b, hb, by simpa using hne⟩

theorem nonDigits_fillBlock_lt {pos n : ℕ} {xs : List Byte}
    (h : ((xs.drop pos).take n).all (· == digit0) = false) :
    nonDigits (fillBlock pos n digit0 xs) < nonDigits xs := by
  have hpos := nonDigits_pos h
  have hsplit : nonDigits xs =
      nonDigits (xs.take pos) + nonDigits ((xs.drop pos).take n) +
        nonDigits (xs.drop (pos + n)) := by
    rw [← nonDigits_append, ← nonDigits_append, ← List.drop_drop, List.append_assoc,
      List.take_append_drop, List.take_append_drop]
  rw [hsplit, fillBlock, nonDigits_append, nonDigits_append, nonDigits_replicate]
  omega

theorem nonDigits_cons (b : Byte) (xs : List Byte) :
    nonDigits (b :: xs) = nonDigits xs + if b = digit0 then 0 else 1 := by
  by_cases h : b = digit0 <;> simp [nonDigits, h]

theorem nonDigits_map_le (symbol : Byte) (xs : List Byte) :
    nonDigits (xs.map fun b => if b = symbol then digit0 else b) ≤ nonDigits xs := by
  rw [nonDigits, List.countP_map]
  refine List.countP_mono_left fun b _ hb => ?_
  by_cases h : b = symbol
  · simp [h] at hb
  · simpa [h] using hb

theorem nonDigits_map_lt {symbol : Byte} {xs : List Byte} (hne : symbol ≠ digit0)
    (hmem : symbol ∈ xs) :
    nonDigits (xs.map fun b => if b = symbol then digit0 else b) < nonDigits xs := by
  obtain ⟨as, bs, rfl⟩ := List.append_of_mem hmem
  have has := nonDigits_map_le symbol as
  have hbs := nonDigits_map_le symbol bs
  rw [List.map_append, List.map_cons, if_pos rfl, nonDigits_append, nonDigits_append,
    nonDigits_cons, nonDigits_cons, if_pos rfl, if_neg hne]
  omega

theorem nonDigits_set_lt {xs : List Byte} {i : ℕ} (hi : i < xs.length)
    (hne : xs.getD i 0 ≠ digit0) : nonDigits (xs.set i digit0) < nonDigits xs := by
  rw [List.getD_eq_getElem _ _ hi] at hne
  have hpos : 0 < nonDigits xs := by
    rw [nonDigits, List.countP_pos_iff]
    exact ⟨xs[i], List.getElem_mem hi, by simpa using hne⟩
  rw [nonDigits, List.countP_set hi]
  simp only [bne_iff_ne, ne_eq, hne, not_false_eq_true, if_true, bne_self_eq_false,
    Bool.false_eq_true, if_false, Nat.add_zero]
  exact Nat.sub_lt hpos Nat.one_pos

namespace MinState

/-- Decreases when a change is kept, and when a pass ends that kept one. -/
def weight (s : MinState) : ℕ :=
  2 * (s.inData.length + nonDigits s.inData) + if s.changedAny then 1 else 0

/-- The custom mutators left, and the steps of the current one. -/
def customLeft : Stage → ℕ ×ₗ ℕ
  | .customInit count => toLex (2 * count + 1, 0)
  | .customTrim count curStep initialSteps => toLex (2 * count + 2, initialSteps - curStep)
  | _ => toLex (0, 0)

/-- The loops left in a pass over a buffer of this size, the block size, and what the loop has not
visited yet. -/
def passLeft (size : ℕ) : Stage → ℕ ×ₗ ℕ ×ₗ ℕ
  | .normalize _ setPos => toLex (4, toLex (0, size - setPos))
  | .deletion delLen delPos _ => toLex (3, toLex (delLen, size - delPos))
  | .alphabet _ i => toLex (2, toLex (0, 256 - i))
  | .character _ i => toLex (1, toLex (0, size - i))
  | _ => toLex (0, toLex (0, 0))

/-- The custom mutators come first, then the weight, then the place in the pass. -/
def measure (s : MinState) : (ℕ ×ₗ ℕ) ×ₗ ℕ ×ₗ (ℕ ×ₗ ℕ ×ₗ ℕ) :=
  toLex (customLeft s.stage, toLex (s.weight, passLeft s.inData.length s.stage))

section Measure
variable {s t : MinState}

/-- A byte that turns into `'0'` pays for the pass that follows. -/
theorem weight_le_of_nonDigits (hlen : t.inData.length = s.inData.length)
    (h : nonDigits t.inData < nonDigits s.inData) : t.weight ≤ s.weight := by
  rw [weight, weight, hlen]
  split <;> split <;> omega

theorem measure_lt_of_custom (h : customLeft t.stage < customLeft s.stage) :
    t.measure < s.measure :=
  Prod.Lex.toLex_lt_toLex.mpr (.inl h)

theorem measure_lt_of_weight (hcustom : customLeft t.stage = customLeft s.stage)
    (h : t.weight < s.weight) : t.measure < s.measure :=
  Prod.Lex.toLex_lt_toLex.mpr (.inr ⟨hcustom, Prod.Lex.toLex_lt_toLex.mpr (.inl h)⟩)

theorem measure_lt_of_pass (hcustom : customLeft t.stage = customLeft s.stage)
    (hweight : t.weight ≤ s.weight)
    (h : passLeft t.inData.length t.stage < passLeft s.inData.length s.stage) :
    t.measure < s.measure := by
  rcases hweight.lt_or_eq with hlt | heq
  · exact measure_lt_of_weight hcustom hlt
  · exact Prod.Lex.toLex_lt_toLex.mpr
      (.inr ⟨hcustom, Prod.Lex.toLex_lt_toLex.mpr (.inr ⟨heq, h⟩)⟩)

theorem pass_lt_of_loop {a b : ℕ} (h : a < b) (p q : ℕ ×ₗ ℕ) : toLex (a, p) < toLex (b, q) :=
  Prod.Lex.toLex_lt_toLex.mpr (.inl h)

theorem pass_lt_of_place (a d : ℕ) {m n : ℕ} (h : m < n) :
    toLex (a, toLex (d, m)) < toLex (a, toLex (d, n)) :=
  Prod.Lex.toLex_lt_toLex.mpr (.inr ⟨rfl, Prod.Lex.toLex_lt_toLex.mpr (.inr ⟨rfl, h⟩)⟩)

theorem pass_lt_of_block (a : ℕ) {d e : ℕ} (h : d < e) (m n : ℕ) :
    toLex (a, toLex (d, m)) < toLex (a, toLex (e, n)) :=
  Prod.Lex.toLex_lt_toLex.mpr (.inr ⟨rfl, Prod.Lex.toLex_lt_toLex.mpr (.inl h)⟩)

end Measure

/-- What the variables of the loops say about the buffer. -/
def Consistent (s : MinState) : Prop :=
  match s.stage with
  | .normalize setLen _ => 0 < setLen
  | .deletion delLen delPos prevDel => 0 < delLen ∧ (prevDel = false → delLen ≤ delPos)
  | .alphabet alphaMap i =>
    ∀ c : Byte, i ≤ c.toNat → c ≠ digit0 → alphaMap c ≠ 0 → c ∈ s.inData
  | .character tmpBuf _ => tmpBuf = s.inData
  | _ => True

/-- The iteration leads from `s` to `t`, where the loops are still consistent and closer to their
end. -/
structure Advances (s t : MinState) : Prop where
  consistent : t.Consistent
  measure_lt : t.measure < s.measure

end MinState

/-- `tmin_run_target` keeps the buffer. -/
def Config.Accepts (cfg : Config) (mem : List Byte) : Prop :=
  ∃ data, cfg.postProcess mem = some data ∧ cfg.verdict data = some true

/-- A plan runs what the buffer becomes when the change is kept, and does not make it longer. -/
def Plan.Fits (cfg : Config) (s : MinState) : Plan → Prop
  | .move next => next.inData = s.inData ∧ s.Advances next
  | .test mem kept dropped => kept.inData = mem ∧ (dropped.inData = s.inData ∨ cfg.Accepts mem) ∧
    mem.length ≤ s.inData.length ∧ s.Advances kept ∧ s.Advances dropped

namespace MinState

variable {cfg : Config} {s : MinState}

theorem nextPass_consistent : s.nextPass.Consistent := by
  unfold nextPass nextDelBlksize Consistent
  dsimp only
  refine ⟨?_, nofun⟩
  split <;> omega

theorem nextPass_weight : s.nextPass.weight + (if s.changedAny then 1 else 0) = s.weight := rfl

theorem nextPass_stage : ∃ delLen, s.nextPass.stage = .deletion delLen 0 true := ⟨_, rfl⟩

/-- A pass follows a pass that changed something, or the normalization. -/
theorem nextPass_advances (hcustom : customLeft s.stage = toLex (0, 0))
    (h : s.changedAny = true ∨ ∃ setLen setPos, s.stage = .normalize setLen setPos) :
    s.Advances s.nextPass := by
  refine ⟨nextPass_consistent, ?_⟩
  obtain ⟨delLen, hstage⟩ := nextPass_stage (s := s)
  have hcustom' : customLeft s.nextPass.stage = customLeft s.stage := by
    rw [hstage, hcustom]
    rfl
  have hweight := nextPass_weight (s := s)
  rcases h with h | ⟨setLen, setPos, h⟩
  · rw [h, if_pos rfl] at hweight
    exact measure_lt_of_weight hcustom' (by omega)
  · refine measure_lt_of_pass hcustom' (by omega) ?_
    rw [hstage, h]
    exact pass_lt_of_loop (by decide) _ _

theorem planNormalize_fits {setLen setPos : ℕ} (h : s.stage = .normalize setLen setPos)
    (hset : 0 < setLen) : (s.planNormalize setLen setPos).Fits cfg s := by
  unfold planNormalize
  split
  · next hpos =>
    have hnext : ∀ next : MinState, next.stage = .normalize setLen (setPos + setLen) →
        next.inData.length = s.inData.length → next.weight ≤ s.weight → s.Advances next := by
      intro next hstage hlen hweight
      refine ⟨by rw [Consistent, hstage]; exact hset, measure_lt_of_pass ?_ hweight ?_⟩
      · rw [hstage, h]
        rfl
      · rw [hstage, h, hlen]
        exact pass_lt_of_place _ _ (by omega)
    dsimp only
    split
    · exact ⟨rfl, hnext _ rfl rfl le_rfl⟩
    · next hall =>
      have hlt := nonDigits_fillBlock_lt (Bool.eq_false_iff.mpr hall)
      have hlen : (fillBlock setPos (min setLen (s.inData.length - setPos)) digit0
          s.inData).length = s.inData.length := length_fillBlock (by omega)
      refine ⟨rfl, .inl rfl, hlen.le, hnext _ rfl hlen ?_, hnext _ rfl rfl le_rfl⟩
      exact weight_le_of_nonDigits hlen hlt
  · exact ⟨rfl, nextPass_advances (by rw [h]; rfl) (.inr ⟨_, _, h⟩)⟩

/-- The copy of head and tail is the buffer without the block. -/
theorem head_append_tail (data : List Byte) (delPos delLen : ℕ) :
    data.take delPos ++ (data.drop (delPos + delLen)).take (data.length - delPos - delLen) =
      eraseBlock delPos delLen data := by
  have hle : (data.drop (delPos + delLen)).length ≤ data.length - delPos - delLen := by
    rw [List.length_drop]
    omega
  rw [eraseBlock, List.take_of_length_le hle]

theorem planDeletion_fits {delLen delPos : ℕ} {prevDel : Bool}
    (h : s.stage = .deletion delLen delPos prevDel) (hcons : s.Consistent) :
    (s.planDeletion cfg delLen delPos prevDel).Fits cfg s := by
  rw [Consistent, h] at hcons
  obtain ⟨hdel, hprev⟩ := hcons
  have hcustom : customLeft s.stage = toLex (0, 0) := by
    rw [h]
    rfl
  unfold planDeletion
  split
  · next hpos =>
    have hnext : ∀ next : MinState, (∃ prev, next.stage = .deletion delLen (delPos + delLen) prev) →
        next.inData.length = s.inData.length → next.weight ≤ s.weight → s.Advances next := by
      rintro next ⟨prev, hstage⟩ hlen hweight
      refine ⟨?_, measure_lt_of_pass ?_ hweight ?_⟩
      · rw [Consistent, hstage]
        exact ⟨hdel, fun _ => Nat.le_add_left _ _⟩
      · rw [hstage, hcustom]
        rfl
      · rw [hstage, h, hlen]
        exact pass_lt_of_place _ _ (by omega)
    dsimp only
    split
    · exact ⟨rfl, hnext _ ⟨_, rfl⟩ rfl le_rfl⟩
    · rw [head_append_tail]
      have hsub : (eraseBlock delPos delLen s.inData).Sublist s.inData := eraseBlock_sublist
      have hcount : nonDigits (eraseBlock delPos delLen s.inData) ≤ nonDigits s.inData :=
        hsub.countP_le
      have hlen : (eraseBlock delPos delLen s.inData).length < s.inData.length := by
        simp only [eraseBlock, List.length_append, List.length_take, List.length_drop]
        omega
      refine ⟨rfl, .inl rfl, hlen.le, ⟨⟨hdel, fun hprev => ?_⟩, measure_lt_of_weight ?_ ?_⟩,
        hnext _ ⟨_, rfl⟩ rfl le_rfl⟩
      · exact absurd hprev (by simp)
      · rw [hcustom]
        rfl
      · simp only [weight, if_true]
        omega
  · split
    · next hblock =>
      have hlimit := cfg.delLenLimit_pos
      refine ⟨rfl, ⟨?_, fun hprev => absurd hprev (by simp)⟩, measure_lt_of_pass ?_ le_rfl ?_⟩
      · split <;> omega
      · rw [hcustom]
        rfl
      · rw [h]
        refine pass_lt_of_block _ ?_ _ _
        split <;> omega
    · split
      · refine ⟨rfl, trivial, measure_lt_of_pass ?_ le_rfl ?_⟩
        · rw [hcustom]
          rfl
        · rw [h]
          exact pass_lt_of_loop (by decide) _ _
      · refine ⟨rfl, ?_, measure_lt_of_pass ?_ le_rfl ?_⟩
        · intro c _ _ hcount
          exact List.count_pos_iff.mp (Nat.pos_of_ne_zero hcount)
        · rw [hcustom]
          rfl
        · rw [h]
          exact pass_lt_of_loop (by decide) _ _

theorem planAlphabet_fits {alphaMap : Byte → ℕ} {i : ℕ} (h : s.stage = .alphabet alphaMap i)
    (hcons : s.Consistent) : (s.planAlphabet alphaMap i).Fits cfg s := by
  rw [Consistent, h] at hcons
  have hcustom : customLeft s.stage = toLex (0, 0) := by
    rw [h]
    rfl
  unfold planAlphabet
  split
  · next hi =>
    have hsymbol : (BitVec.ofNat 8 i).toNat = i := Nat.mod_eq_of_lt hi
    have hnext : ∀ next : MinState, next.stage = .alphabet alphaMap (i + 1) →
        next.weight ≤ s.weight → next.Consistent → s.Advances next := by
      intro next hstage hweight hnext
      refine ⟨hnext, measure_lt_of_pass ?_ hweight ?_⟩
      · rw [hstage, hcustom]
        rfl
      · rw [hstage, h]
        exact pass_lt_of_place _ _ (by omega)
    have hkeep : ∀ c : Byte, i + 1 ≤ c.toNat → c ≠ digit0 → alphaMap c ≠ 0 → c ∈ s.inData :=
      fun c hc => hcons c (Nat.le_of_succ_le hc)
    dsimp only
    split
    · exact ⟨rfl, hnext _ rfl le_rfl hkeep⟩
    · next hskip =>
      rw [not_or] at hskip
      have hmem : BitVec.ofNat 8 i ∈ s.inData := hcons _ hsymbol.ge hskip.1 hskip.2
      have hlt := nonDigits_map_lt hskip.1 hmem
      refine ⟨rfl, .inl rfl, (List.length_map _).le, hnext _ rfl ?_ ?_, hnext _ rfl le_rfl hkeep⟩
      · exact weight_le_of_nonDigits (List.length_map _) hlt
      · -- the symbols that come later are no `'0'` and not the one that was replaced
        intro c hc hne hcount
        have hother : c ≠ BitVec.ofNat 8 i := by
          rintro rfl
          omega
        exact List.mem_map.mpr ⟨c, hkeep c hc hne hcount, if_neg hother⟩
  · refine ⟨rfl, rfl, measure_lt_of_pass ?_ le_rfl ?_⟩
    · rw [hcustom]
      rfl
    · rw [h]
      exact pass_lt_of_loop (by decide) _ _

theorem planCharacter_fits {tmpBuf : List Byte} {i : ℕ} (h : s.stage = .character tmpBuf i)
    (hcons : s.Consistent) : (s.planCharacter tmpBuf i).Fits cfg s := by
  rw [Consistent, h] at hcons
  subst hcons
  have hcustom : customLeft s.stage = toLex (0, 0) := by
    rw [h]
    rfl
  unfold planCharacter
  split
  · next hi =>
    have hnext : ∀ next : MinState, next.stage = .character next.inData (i + 1) →
        next.inData.length = s.inData.length → next.weight ≤ s.weight → s.Advances next := by
      intro next hstage hlen hweight
      refine ⟨by rw [Consistent, hstage], measure_lt_of_pass ?_ hweight ?_⟩
      · rw [hstage, hcustom]
        rfl
      · rw [hstage, h, hlen]
        exact pass_lt_of_place _ _ (by omega)
    dsimp only
    split
    · exact ⟨rfl, hnext _ rfl rfl le_rfl⟩
    · next horig =>
      have hlt := nonDigits_set_lt hi horig
      have hlen : (s.inData.set i digit0).length = s.inData.length := List.length_set
      refine ⟨rfl, .inl rfl, hlen.le, hnext _ rfl hlen ?_, hnext _ ?_ rfl le_rfl⟩
      · exact weight_le_of_nonDigits hlen hlt
      · -- the byte is restored
        rw [List.set_set, List.getD_eq_getElem _ _ hi, List.set_getElem_self]
  · split
    · next hchanged => exact ⟨rfl, nextPass_advances hcustom (.inl hchanged)⟩
    · refine ⟨rfl, trivial, measure_lt_of_pass ?_ le_rfl ?_⟩
      · rw [hcustom]
        rfl
      · rw [h]
        exact pass_lt_of_loop (by decide) _ _

theorem custom_lt_of_count {a b : ℕ} (h : a < b) (m n : ℕ) : toLex (a, m) < toLex (b, n) :=
  Prod.Lex.toLex_lt_toLex.mpr (.inl h)

theorem custom_lt_of_step (a : ℕ) {m n : ℕ} (h : m < n) : toLex (a, m) < toLex (a, n) :=
  Prod.Lex.toLex_lt_toLex.mpr (.inr ⟨rfl, h⟩)

theorem planTrim_fits {count curStep initialSteps : ℕ} {retbuf : List Byte} {inPlace : Bool}
    (h : s.stage = .customTrim count curStep initialSteps) (hstep : curStep < initialSteps)
    (hapart : s.afterTrim retbuf inPlace = s.inData ∨
      (retbuf.length < s.inData.length ∧ cfg.Accepts retbuf)) :
    (s.planTrim count curStep initialSteps retbuf inPlace).Fits cfg s := by
  have hnext : ∀ next : MinState, next.stage = .customTrim count (curStep + 1) initialSteps →
      s.Advances next := by
    intro next hstage
    refine ⟨by rw [Consistent, hstage]; trivial, measure_lt_of_custom ?_⟩
    rw [hstage, h]
    exact custom_lt_of_step _ (by omega)
  unfold planTrim
  dsimp only
  split
  · next hlen =>
    have hkeep : s.afterTrim retbuf inPlace = s.inData :=
      hapart.resolve_right fun hshort => absurd hshort.1 (by omega)
    exact ⟨hkeep, hnext _ rfl⟩
  · exact ⟨rfl, hapart.imp_right And.right, by omega, hnext _ rfl, hnext _ rfl⟩

theorem enterNormalize_fits (h : s.stage = .customInit 0) :
    (Plan.move s.enterNormalize).Fits cfg s := by
  have hstage : customLeft s.enterNormalize.stage < customLeft s.stage := by
    rw [h, enterNormalize]
    split <;> exact custom_lt_of_count (by decide) _ _
  refine ⟨?_, ?_, measure_lt_of_custom hstage⟩
  · unfold enterNormalize
    split <;> rfl
  · unfold enterNormalize
    split
    · trivial
    · exact Nat.lt_of_lt_of_le (by decide : 0 < tminSetMinSize) (Nat.le_max_right _ _)

/-- What the custom mutators have to do in a step: a trimmer has steps to take, what it writes does
not change the buffer unless it is accepted, and what is run can be processed. -/
structure MutatorsBehave (cfg : Config) (s : MinState) (a : Action) : Prop where
  initTrim_pos : ∀ initialSteps, a = .initTrim initialSteps → 0 < initialSteps
  trim_apart : ∀ retbuf inPlace, a = .trim retbuf inPlace →
    s.afterTrim retbuf inPlace = s.inData ∨ (retbuf.length < s.inData.length ∧ cfg.Accepts retbuf)
  processed : ∀ mem kept dropped, s.plan cfg a = some (.test mem kept dropped) →
    (cfg.postProcess mem).isSome

/-- What `minimize` plans in each of its loops. -/
inductive Planned (cfg : Config) (s : MinState) : Action → Plan → Prop
  | retry (count : ℕ) (initialSteps : ℤ) (hstage : s.stage = .customInit (count + 1))
    (hsteps : initialSteps ≤ 0) : Planned cfg s (.initTrim initialSteps) (.move s)
  | initTrim (count : ℕ) (initialSteps : ℤ) (hstage : s.stage = .customInit (count + 1)) :
    Planned cfg s (.initTrim initialSteps)
      (.move { s with stage := .customTrim count 0 initialSteps.toNat })
  | trim (count curStep initialSteps : ℕ) (retbuf : List Byte) (inPlace : Bool)
    (hstage : s.stage = .customTrim count curStep initialSteps) (hlt : curStep < initialSteps) :
    Planned cfg s (.trim retbuf inPlace) (s.planTrim count curStep initialSteps retbuf inPlace)
  | trimmed (count curStep initialSteps : ℕ)
    (hstage : s.stage = .customTrim count curStep initialSteps)
    (hsuccess : s.trimmedSuccessfully = true) :
    Planned cfg s .proceed (.move { s with stage := .finished })
  | nextTrimmer (count curStep initialSteps : ℕ)
    (hstage : s.stage = .customTrim count curStep initialSteps) :
    Planned cfg s .proceed (.move { s with stage := .customInit count })
  | enterNormalize (hstage : s.stage = .customInit 0) :
    Planned cfg s .proceed (.move s.enterNormalize)
  | normalize (setLen setPos : ℕ) (hstage : s.stage = .normalize setLen setPos) :
    Planned cfg s .proceed (s.planNormalize setLen setPos)
  | deletion (delLen delPos : ℕ) (prevDel : Bool)
    (hstage : s.stage = .deletion delLen delPos prevDel) :
    Planned cfg s .proceed (s.planDeletion cfg delLen delPos prevDel)
  | alphabet (alphaMap : Byte → ℕ) (i : ℕ) (hstage : s.stage = .alphabet alphaMap i) :
    Planned cfg s .proceed (s.planAlphabet alphaMap i)
  | character (tmpBuf : List Byte) (i : ℕ) (hstage : s.stage = .character tmpBuf i) :
    Planned cfg s .proceed (s.planCharacter tmpBuf i)

theorem planned {a : Action} {plan : Plan} (h : s.plan cfg a = some plan) :
    s.Planned cfg a plan := by
  cases a with
  | initTrim initialSteps =>
    simp only [MinState.plan] at h
    split at h
    · next count hstage =>
      split at h
      · next hsteps => exact Option.some.inj h ▸ .retry count initialSteps hstage hsteps
      · exact Option.some.inj h ▸ .initTrim count initialSteps hstage
    · exact absurd h (by simp)
  | trim retbuf inPlace =>
    simp only [MinState.plan] at h
    split at h
    · next hstage =>
      split at h
      · next hlt => exact Option.some.inj h ▸ .trim _ _ _ retbuf inPlace hstage hlt
      · exact absurd h (by simp)
    · exact absurd h (by simp)
  | proceed =>
    simp only [MinState.plan] at h
    split at h
    · next hstage => exact Option.some.inj h ▸ .enterNormalize hstage
    · next hstage =>
      split at h
      · exact absurd h (by simp)
      · split at h
        · next hsuccess => exact Option.some.inj h ▸ .trimmed _ _ _ hstage hsuccess
        · exact Option.some.inj h ▸ .nextTrimmer _ _ _ hstage
    · next hstage => exact Option.some.inj h ▸ .normalize _ _ hstage
    · next hstage => exact Option.some.inj h ▸ .deletion _ _ _ hstage
    · next hstage => exact Option.some.inj h ▸ .alphabet _ _ hstage
    · next hstage => exact Option.some.inj h ▸ .character _ _ hstage
    · exact absurd h (by simp)

/-- Whatever `minimize` does next. -/
theorem plan_fits (hcons : s.Consistent) {a : Action} (hbehave : MutatorsBehave cfg s a)
    {plan : Plan} (h : s.plan cfg a = some plan) : plan.Fits cfg s := by
  have hcustom : ∀ stage : Stage, Consistent { s with stage := stage } →
      customLeft stage < customLeft s.stage → (Plan.move { s with stage := stage }).Fits cfg s :=
    fun stage hcons hlt => ⟨rfl, hcons, measure_lt_of_custom hlt⟩
  cases planned h with
  | retry _ initialSteps _ hsteps =>
    exact absurd (hbehave.initTrim_pos initialSteps rfl) (not_lt.mpr hsteps)
  | initTrim _ _ hstage =>
    refine hcustom _ trivial ?_
    rw [hstage]
    exact custom_lt_of_count (by omega) _ _
  | trim _ _ _ retbuf inPlace hstage hlt =>
    exact planTrim_fits hstage hlt (hbehave.trim_apart retbuf inPlace rfl)
  | trimmed _ _ _ hstage =>
    refine hcustom _ trivial ?_
    rw [hstage]
    exact custom_lt_of_count (by omega) _ _
  | nextTrimmer _ _ _ hstage =>
    refine hcustom _ trivial ?_
    rw [hstage]
    exact custom_lt_of_count (by omega) _ _
  | enterNormalize hstage => exact enterNormalize_fits hstage
  | normalize _ _ hstage =>
    rw [Consistent, hstage] at hcons
    exact planNormalize_fits hstage hcons
  | deletion _ _ _ hstage => exact planDeletion_fits hstage hcons
  | alphabet _ _ hstage => exact planAlphabet_fits hstage hcons
  | character _ _ hstage => exact planCharacter_fits hstage hcons

/-- With post-processing that does not fail, only the trimmers could misbehave. -/
theorem behave_proceed (hpost : ∀ mem, (cfg.postProcess mem).isSome) (s : MinState) :
    MutatorsBehave cfg s .proceed :=
  ⟨nofun, nofun, fun mem _ _ _ => hpost mem⟩

variable {input : List Byte} {a : Action} {t : MinState}

end MinState

open MinState

/-- A target in hang mode, with no custom mutators. -/
def hangs (accepts : List Byte → Bool) : Config where
  mapSize := 4
  edgesOnly := false
  mask := none
  xxh3 := fun _ => 0
  target := fun testcase => (if accepts testcase then .tmout else .ok, fun _ => 0)
  hangMode := true
  crashMode := false
  exactMode := false
  origCksum := 0
  postProcess := some
  reread := id
  customTrimmers := 0
  delLenLimit := 1
  delLenLimit_pos := Nat.one_pos

def hangsOnTwo (data : List Byte) : Bool := data.length == 2

/-- Custom post-processing that needs two bytes. -/
def pairs (accepts : List Byte → Bool) : Config :=
  { hangs accepts with postProcess := fun mem => if mem.length = 1 then none else some mem }

/-- With a custom trimmer. -/
def trims (accepts : List Byte → Bool) : Config := { hangs accepts with customTrimmers := 1 }

end AflPlusPlus.Tmin
