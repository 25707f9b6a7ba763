import AflPlusPlus.ExtrasStages

/-!
# Tokens inserted into the input

The head of a candidate is what `ex_tmp` holds: a byte of the input is copied there at the end
of an offset that is not skipped. At a skipped offset the byte stays what the last token of an
earlier offset, or an earlier stage, has left.
-/

namespace AflPlusPlus.ExtrasStages
open ByteWords ByteBuffers Overlays

/-- The input can hold the token. -/
def fits (inBuf extra : Buffer) : Bool := inBuf.length + extra.length ≤ maxFile

/-- The offset is not skipped. -/
def enabled (inBuf : Buffer) (skipEffMap : ℕ → Bool) (i : ℕ) : Bool := skipEffMap (i % inBuf.length)

/-- The last offset before `n` that is not skipped. -/
def lastEnabled (inBuf : Buffer) (skipEffMap : ℕ → Bool) : ℕ → Option ℕ
  | 0 => none
  | n + 1 => if enabled inBuf skipEffMap n then some n else lastEnabled inBuf skipEffMap n

/-- Byte `k` of `ex_tmp` after the offsets before `n` when each ends with the token `extra`. -/
def leftover (inBuf : Buffer) (skipEffMap : ℕ → Bool) (exTmp : ℕ → Byte) (extra : Buffer)
    (n k : ℕ) : Byte :=
  match lastEnabled inBuf skipEffMap n with
  | none => exTmp k
  | some i => byteAt (insertAt inBuf i extra) k

/-- The last of the tokens that are inserted. -/
def lastFitting (inBuf : Buffer) (extras : List Buffer) : Option Buffer :=
  (extras.filter (fits inBuf)).getLast?

/-- Before an offset that is not skipped, the bytes at the skipped ones happen to be those of the
input. -/
def HeadsKept (inBuf : Buffer) (extras : List Buffer) (skipEffMap : ℕ → Bool)
    (exTmp : ℕ → Byte) : Prop :=
  ∀ extra, lastFitting inBuf extras = some extra →
    ∀ i ≤ inBuf.length, enabled inBuf skipEffMap i = true →
      ∀ k < i, enabled inBuf skipEffMap k = false →
        leftover inBuf skipEffMap exTmp extra k k = byteAt inBuf k

/-! ## One offset -/

section Offset
variable {outBuf extra : Buffer} {extras : List Buffer} {skipEffMap : ℕ → Bool} {i k n : ℕ}
  {s : InsertState}

theorem copyTo_of_lt (mem : ℕ → Byte) (bytes : Buffer) (h : k < i) : copyTo mem i bytes k = mem k :=
  if_neg fun hin => absurd hin.1 (not_le.mpr h)

theorem byteAt_append {xs ys : Buffer} : byteAt (xs ++ ys) k =
    if k < xs.length then byteAt xs k else byteAt ys (k - xs.length) := by
  unfold byteAt
  rw [List.getD_eq_getElem?_getD, List.getElem?_append]
  split <;> rw [List.getD_eq_getElem?_getD]

theorem byteAt_insertAt (hi : i ≤ outBuf.length) : byteAt (insertAt outBuf i extra) k =
    if k < i then byteAt outBuf k
    else if k < i + extra.length then byteAt extra (k - i)
    else byteAt outBuf (k - extra.length) := by
  have hlen : (outBuf.take i).length = i := List.length_take_of_le hi
  rw [insertAt, List.append_assoc, byteAt_append, hlen]
  split
  · rename_i hlt
    simp [byteAt, List.getElem?_take_of_lt hlt]
  · rw [byteAt_append]
    by_cases hin : k < i + extra.length
    · rw [if_pos hin, if_pos (by omega)]
    · rw [if_neg hin, if_neg (by omega)]
      simp only [byteAt, List.getD_eq_getElem?_getD, List.getElem?_drop]
      congr 2
      omega

/-- Both copies: the head stays, the token and the tail follow. -/
theorem copyTo_copyTo (hi : i ≤ outBuf.length) (mem : ℕ → Byte)
    (hk : k < outBuf.length + extra.length) :
    copyTo (copyTo mem i extra) (i + extra.length) (outBuf.drop i) k =
      if k < i then mem k else byteAt (insertAt outBuf i extra) k := by
  rw [byteAt_insertAt hi]
  by_cases hlt : k < i
  · rw [if_pos hlt, copyTo_of_lt _ _ (by omega), copyTo_of_lt _ _ hlt]
  · rw [if_neg hlt, if_neg hlt]
    by_cases hin : k < i + extra.length
    · rw [if_pos hin, copyTo_of_lt _ _ hin, copyTo, if_pos ⟨by omega, hin⟩]
    · have hdrop : (outBuf.drop i).length = outBuf.length - i := List.length_drop
      rw [if_neg hin, copyTo, if_pos ⟨by omega, by omega⟩]
      simp only [byteAt, List.getD_eq_getElem?_getD, List.getElem?_drop]
      congr 2
      omega

/-- The head of the buffer is that of the input. -/
def HeadRight (outBuf : Buffer) (i : ℕ) (mem : ℕ → Byte) : Prop :=
  ∀ k < i, mem k = byteAt outBuf k

/-- The execution of a token at offset `i` when `ex_tmp` held `mem`. -/
def candidate (outBuf : Buffer) (i : ℕ) (extra : Buffer) (mem : ℕ → Byte) : InsertExec :=
  ⟨i, extra, (List.range (outBuf.length + extra.length)).map
    (copyTo (copyTo mem i extra) (i + extra.length) (outBuf.drop i))⟩

/-- A candidate is right exactly when its head is. -/
theorem candidate_eq_iff (hi : i ≤ outBuf.length) (mem : ℕ → Byte) :
    (candidate outBuf i extra mem).buf = insertAt outBuf i extra ↔ HeadRight outBuf i mem := by
  have hlen : (insertAt outBuf i extra).length = outBuf.length + extra.length := by
    simp only [insertAt, List.length_append, List.length_take, List.length_drop]
    omega
  have hread : ∀ f : ℕ → Byte, ∀ k < outBuf.length + extra.length,
      byteAt ((List.range (outBuf.length + extra.length)).map f) k = f k := by
    intro f k hk
    simp [byteAt, hk]
  unfold candidate
  constructor
  · intro heq k hk
    have hbyte := congrArg (fun buf => byteAt buf k) heq
    rw [hread _ k (by omega), copyTo_copyTo hi mem (by omega), if_pos hk, byteAt_insertAt hi,
      if_pos hk] at hbyte
    exact hbyte
  · intro hhead
    refine buffer_ext (by simp [hlen]) fun k hk => ?_
    rw [List.length_map, List.length_range] at hk
    rw [hread _ k hk, copyTo_copyTo hi mem hk]
    split
    · rw [hhead k ‹_›, byteAt_insertAt hi, if_pos ‹_›]
    · rfl

theorem insertExtra_of_fits (h : fits outBuf extra = true) (s : InsertState) :
    insertExtra outBuf i s extra =
      ⟨copyTo (copyTo s.exTmp i extra) (i + extra.length) (outBuf.drop i),
        s.execs ++ [candidate outBuf i extra s.exTmp]⟩ :=
  if_neg (not_lt.mpr (of_decide_eq_true h))

theorem insertExtra_of_not_fits (h : fits outBuf extra = false) (s : InsertState) :
    insertExtra outBuf i s extra = s :=
  if_pos (not_le.mp (of_decide_eq_false h))

theorem lastFitting_concat (outBuf : Buffer) (extras : List Buffer) (extra : Buffer) :
    lastFitting outBuf (extras ++ [extra]) =
      if fits outBuf extra then some extra else lastFitting outBuf extras := by
  unfold lastFitting
  rw [List.filter_append]
  cases h : fits outBuf extra with
  | true => simp [h]
  | false => simp [h]

/-- What the tokens at offset `i` leave in `ex_tmp` and what has been executed. -/
structure Inserted (outBuf : Buffer) (extras : List Buffer) (i : ℕ) (s t : InsertState) :
    Prop where
  head_eq : ∀ k < i, t.exTmp k = s.exTmp k
  tail_eq : ∀ extra, lastFitting outBuf extras = some extra →
    ∀ k, i ≤ k → k < outBuf.length → t.exTmp k = byteAt (insertAt outBuf i extra) k
  unchanged : lastFitting outBuf extras = none → t = s
  execs_eq : ∃ added, t.execs = s.execs ++ added ∧
    (lastFitting outBuf extras ≠ none → added ≠ []) ∧
    ∀ e ∈ added, e.stageCurByte = i ∧
      (e.buf = insertAt outBuf i e.extra ↔ HeadRight outBuf i s.exTmp)

theorem foldl_insertExtra (hi : i ≤ outBuf.length) (extras : List Buffer) (s : InsertState) :
    Inserted outBuf extras i s (extras.foldl (insertExtra outBuf i) s) := by
  induction extras using List.reverseRecOn with
  | nil =>
    refine ⟨fun _ _ => rfl, fun extra h => absurd h (by simp [lastFitting]), fun _ => rfl,
      [], (List.append_nil _).symm, fun h => absurd rfl h, fun e he => absurd he ?_⟩
    exact List.not_mem_nil
  | append_singleton extras extra ih =>
    obtain ⟨hhead, htail, hunchanged, added, hadded, hsome, hexecs⟩ := ih
    rw [List.foldl_append, List.foldl_cons, List.foldl_nil]
    generalize extras.foldl (insertExtra outBuf i) s = t at hhead htail hunchanged hadded
    have hlast := lastFitting_concat outBuf extras extra
    cases hfits : fits outBuf extra with
    | false =>
      rw [hfits, if_neg Bool.false_ne_true] at hlast
      rw [insertExtra_of_not_fits hfits]
      exact ⟨hhead, hlast ▸ htail, hlast ▸ hunchanged, added, hadded, hlast ▸ hsome, hexecs⟩
    | true =>
      rw [hfits, if_pos rfl] at hlast
      rw [insertExtra_of_fits hfits]
      refine ⟨fun k hk => ?_, fun last heq k hik hk => ?_, fun hnone => ?_,
        added ++ [candidate outBuf i extra t.exTmp], ?_, fun _ => by simp, fun e he => ?_⟩
      · dsimp only
        rw [copyTo_copyTo hi _ (by omega), if_pos hk, hhead k hk]
      · obtain rfl := Option.some.inj (hlast.symm.trans heq)
        dsimp only
        rw [copyTo_copyTo hi _ (by omega), if_neg (by omega)]
      · exact absurd (hlast.symm.trans hnone) (by simp)
      · dsimp only
        rw [hadded, List.append_assoc]
      · rcases List.mem_append.mp he with he | he
        · exact hexecs e he
        · obtain rfl := List.mem_singleton.mp he
          refine ⟨rfl, (candidate_eq_iff hi t.exTmp).trans ?_⟩
          exact forall_congr' fun k => imp_congr_right fun hk => by rw [hhead k hk]

end Offset

/-! ## The offsets one after the other -/

section Loop
variable {inBuf extra : Buffer} {extras : List Buffer} {skipEffMap : ℕ → Bool}
  {exTmp : ℕ → Byte} {i k n : ℕ} {s : InsertState}

/-- The buffer `ex_tmp` after the first `n` offsets, when `extra` is the last token of each. -/
def Mixed (inBuf : Buffer) (skipEffMap : ℕ → Bool) (exTmp : ℕ → Byte) (extra : Buffer) (n : ℕ)
    (mem : ℕ → Byte) : Prop :=
  ∀ k < inBuf.length, mem k = if k < n ∧ enabled inBuf skipEffMap k = true then byteAt inBuf k
    else leftover inBuf skipEffMap exTmp extra (min n k) k

theorem leftover_enabled (h : enabled inBuf skipEffMap n = true) (k : ℕ) :
    leftover inBuf skipEffMap exTmp extra (n + 1) k = byteAt (insertAt inBuf n extra) k := by
  unfold leftover lastEnabled
  rw [if_pos h]

theorem leftover_skipped (h : enabled inBuf skipEffMap n = false) (k : ℕ) :
    leftover inBuf skipEffMap exTmp extra (n + 1) k =
      leftover inBuf skipEffMap exTmp extra n k := by
  unfold leftover
  rw [lastEnabled, if_neg (by simp [h])]

theorem Mixed.skip (h : Mixed inBuf skipEffMap exTmp extra n s.exTmp)
    (hskip : enabled inBuf skipEffMap n = false) :
    Mixed inBuf skipEffMap exTmp extra (n + 1) s.exTmp := by
  intro k hk
  rw [h k hk]
  rcases lt_trichotomy k n with hlt | rfl | hgt
  · rw [min_eq_right hlt.le, min_eq_right (by omega)]
    simp only [hlt, Nat.lt_succ_of_lt hlt]
  · rw [if_neg (by simp), if_neg (by simp [hskip]), min_self, min_eq_right (by omega)]
  · rw [if_neg (by omega), if_neg (by omega), min_eq_left hgt.le, min_eq_left (by omega),
      leftover_skipped hskip]

theorem Mixed.insert {t : InsertState} (h : Mixed inBuf skipEffMap exTmp extra n s.exTmp)
    (ht : Inserted inBuf extras n s t) (hlast : lastFitting inBuf extras = some extra)
    (henabled : enabled inBuf skipEffMap n = true) :
    Mixed inBuf skipEffMap exTmp extra (n + 1)
      (Function.update t.exTmp n (byteAt inBuf n)) := by
  intro k hk
  rcases lt_trichotomy k n with hlt | rfl | hgt
  · rw [Function.update_of_ne hlt.ne, ht.head_eq k hlt, h k hk, min_eq_right hlt.le,
      min_eq_right (by omega)]
    simp only [hlt, Nat.lt_succ_of_lt hlt]
  · rw [Function.update_self, if_pos ⟨k.lt_succ_self, henabled⟩]
  · rw [Function.update_of_ne hgt.ne', ht.tail_eq extra hlast k hgt.le hk, if_neg (by omega),
      min_eq_left (by omega), leftover_enabled henabled]

/-- The head that an offset finds is right exactly when the skipped bytes are. -/
theorem Mixed.headRight_iff (h : Mixed inBuf skipEffMap exTmp extra n s.exTmp)
    (hn : n ≤ inBuf.length) : HeadRight inBuf n s.exTmp ↔
      ∀ k < n, enabled inBuf skipEffMap k = false →
        leftover inBuf skipEffMap exTmp extra k k = byteAt inBuf k := by
  refine forall_congr' fun k => imp_congr_right fun hk => ?_
  rw [h k (by omega), min_eq_right hk.le]
  cases henabled : enabled inBuf skipEffMap k with
  | true => simp [hk]
  | false => simp

/-- The candidates of the first `n` offsets are right exactly when the skipped bytes before each
of them are. -/
theorem insertOffsets_spec (hlast : lastFitting inBuf extras = some extra)
    (hn : n ≤ inBuf.length + 1) :
    Mixed inBuf skipEffMap exTmp extra n
        (insertOffsets inBuf extras skipEffMap n ⟨exTmp, []⟩).exTmp ∧
      ((∀ e ∈ (insertOffsets inBuf extras skipEffMap n ⟨exTmp, []⟩).execs,
        e.buf = insertAt inBuf e.stageCurByte e.extra) ↔
      ∀ i < n, enabled inBuf skipEffMap i = true → ∀ k < i,
        enabled inBuf skipEffMap k = false →
          leftover inBuf skipEffMap exTmp extra k k = byteAt inBuf k) := by
  induction n with
  | zero =>
    refine ⟨fun k _ => ?_, iff_of_true (fun e he => absurd he List.not_mem_nil)
      fun i hi => absurd hi i.not_lt_zero⟩
    rw [if_neg (by simp), Nat.zero_min]
    rfl
  | succ n ih =>
    obtain ⟨hmixed, hiff⟩ := ih (by omega)
    unfold insertOffsets at hmixed hiff ⊢
    rw [List.range_succ, List.foldl_append, List.foldl_cons, List.foldl_nil]
    generalize (List.range n).foldl (insertOffset inBuf extras skipEffMap) ⟨exTmp, []⟩ = s
      at hmixed hiff ⊢
    cases henabled : enabled inBuf skipEffMap n with
    | false =>
      have hsame : insertOffset inBuf extras skipEffMap s n = s :=
        if_neg (show ¬enabled inBuf skipEffMap n = true by simp [henabled])
      rw [hsame, hiff]
      refine ⟨hmixed.skip henabled, forall_congr' fun i => ⟨fun h hi hset => ?_, fun h hi => ?_⟩⟩
      · have hne : i ≠ n := by
          rintro rfl
          exact absurd (hset.symm.trans henabled) (by decide)
        exact h (by omega) hset
      · exact h (by omega)
    | true =>
      have hins : Inserted inBuf extras n s (extras.foldl (insertExtra inBuf n) s) :=
        foldl_insertExtra (by omega) extras s
      have hstep : insertOffset inBuf extras skipEffMap s n =
          { extras.foldl (insertExtra inBuf n) s with
            exTmp := Function.update (extras.foldl (insertExtra inBuf n) s).exTmp n
              (byteAt inBuf n) } := if_pos henabled
      rw [hstep]
      generalize extras.foldl (insertExtra inBuf n) s = t at hins ⊢
      refine ⟨hmixed.insert hins hlast henabled, ?_⟩
      obtain ⟨added, hadded, hsome, hexecs⟩ := hins.execs_eq
      have hhead := hmixed.headRight_iff (by omega)
      dsimp only
      rw [hadded]
      constructor
      · intro h i hi hset
        by_cases hin : i = n
        · rw [hin, ← hhead]
          obtain ⟨e, he⟩ := List.exists_mem_of_ne_nil _ (hsome (by rw [hlast]; simp))
          obtain ⟨hbyte, hright⟩ := hexecs e he
          exact hright.mp (hbyte ▸ h e (List.mem_append_right _ he))
        · exact hiff.mp (fun e he => h e (List.mem_append_left _ he)) i (by omega) hset
      · intro h e he
        rcases List.mem_append.mp he with he | he
        · exact hiff.mpr (fun i hi => h i (by omega)) e he
        · obtain ⟨hbyte, hright⟩ := hexecs e he
          rw [hbyte, hright]
          exact hhead.mpr (h n n.lt_succ_self henabled)

/-- Without a token that fits, nothing is executed. -/
theorem insertOffsets_execs_of_none (hnone : lastFitting inBuf extras = none)
    (hn : n ≤ inBuf.length + 1) :
    (insertOffsets inBuf extras skipEffMap n ⟨exTmp, []⟩).execs = [] := by
  induction n with
  | zero => rfl
  | succ n ih =>
    have hexecs := ih (by omega)
    unfold insertOffsets at hexecs ⊢
    rw [List.range_succ, List.foldl_append, List.foldl_cons, List.foldl_nil]
    generalize (List.range n).foldl (insertOffset inBuf extras skipEffMap) ⟨exTmp, []⟩ = s
      at hexecs ⊢
    unfold insertOffset
    split
    · have hins : Inserted inBuf extras n s (extras.foldl (insertExtra inBuf n) s) :=
        foldl_insertExtra (by omega) extras s
      dsimp only
      rw [hins.unchanged hnone, hexecs]
    · exact hexecs

theorem insertOffsets_right_iff (inBuf : Buffer) (extras : List Buffer) (skipEffMap : ℕ → Bool)
    (exTmp : ℕ → Byte) :
    (∀ e ∈ (insertOffsets inBuf extras skipEffMap (inBuf.length + 1) ⟨exTmp, []⟩).execs,
      e.buf = insertAt inBuf e.stageCurByte e.extra) ↔
      HeadsKept inBuf extras skipEffMap exTmp := by
  cases hlast : lastFitting inBuf extras with
  | none =>
    rw [insertOffsets_execs_of_none hlast le_rfl]
    refine iff_of_true (fun e he => absurd he List.not_mem_nil) fun extra heq => ?_
    exact absurd (hlast.symm.trans heq) (by simp)
  | some extra =>
    rw [(insertOffsets_spec hlast le_rfl).2]
    constructor
    · intro h last heq i hi
      obtain rfl := Option.some.inj (hlast.symm.trans heq)
      exact h i (by omega)
    · exact fun h i hi => h extra hlast i (by omega)

end Loop

/-- In both stages every candidate is the input with the token inserted if and only if the bytes
of `ex_tmp` at the skipped offsets before an executed one are those of the input. -/
theorem extras_insert_iff (inBuf : Buffer) (skipEffMap : ℕ → Bool) (exTmp : ℕ → Byte) :
    (∀ extras : List Buffer,
      (∀ e ∈ (userExtrasInsert inBuf extras skipEffMap ⟨exTmp, []⟩).execs,
        e.buf = insertAt inBuf e.stageCurByte e.extra) ↔
        HeadsKept inBuf extras skipEffMap exTmp) ∧
    ∀ aExtras : List Buffer,
      (∀ e ∈ (autoExtrasInsert inBuf aExtras skipEffMap ⟨exTmp, []⟩).execs,
        e.buf = insertAt inBuf e.stageCurByte e.extra) ↔
        HeadsKept inBuf aExtras skipEffMap exTmp :=
  ⟨fun extras => insertOffsets_right_iff inBuf extras skipEffMap exTmp,
    fun aExtras => insertOffsets_right_iff inBuf aExtras skipEffMap exTmp⟩

/-- Offset 1 is skipped: the candidates at offsets 2 and 3 have a byte of the token there. -/
theorem extras_insert_skipped :
    ¬∀ (inBuf : Buffer) (extras : List Buffer) (skipEffMap : ℕ → Bool) (exTmp : ℕ → Byte),
      ∀ e ∈ (userExtrasInsert inBuf extras skipEffMap ⟨exTmp, []⟩).execs,
        e.buf = insertAt inBuf e.stageCurByte e.extra := by
  intro h
  have := h [1, 2, 3] [[8, 9]] (fun i => i != 1) (fun _ => 0) ⟨2, [8, 9], [1, 9, 8, 9, 3]⟩
    (by decide)
  exact absurd this (by decide)

end AflPlusPlus.ExtrasStages
