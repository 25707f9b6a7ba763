import AflPlusPlus.SuggestedEnvs

/-!
# Where the suggestions write

Without the terminator of an empty rest every write into the shortened copy is in its place. Only
one of the two loops leaves that terminator out.
-/

namespace AflPlusPlus.SuggestedEnvs
open ByteWords CheckedBlocks BlockTexts CkAlloc SeparatedTexts TextLines

/-! ## The distance is at least the difference of the lengths -/

section Distance
variable {s1 : List Byte} {c : Byte} {column : List ℕ} {x : ℕ}

theorem le_helperMin3 {a b c n : ℕ} (ha : n ≤ a) (hb : n ≤ b) (hc : n ≤ c) :
    n ≤ helperMin3 a b c := by
  rw [helperMin3]
  split_ifs <;> assumption

theorem getD_set {k : ℕ} (hk : k < column.length) (v y : ℕ) :
    (column.set k v).getD y 0 = if y = k then v else column.getD y 0 := by
  rw [List.getD_eq_getElem?_getD, List.getD_eq_getElem?_getD, List.getElem?_set]
  by_cases heq : y = k
  · rw [if_pos heq.symm, if_pos hk, if_pos heq, Option.getD_some]
  · rw [if_neg (Ne.symm heq), if_neg heq]

/-- After `x` characters an entry is at least the difference of `x` and its position. -/
def Above (n x : ℕ) (column : List ℕ) : Prop :=
  column.length = n + 1 ∧ ∀ y ≤ n, x ≤ column.getD y 0 + y

/-- The entries up to `k` are of this round, those behind of the last one; `lastdiag` is the entry
at `k` of the last one. -/
def Between (n x k : ℕ) (st : List ℕ × ℕ) : Prop :=
  st.1.length = n + 1 ∧ (∀ y ≤ n, (if y ≤ k then x + 1 else x) ≤ st.1.getD y 0 + y) ∧ x ≤ st.2 + k

theorem Between.step {n k : ℕ} {st : List ℕ × ℕ} (h : Between n x k st) (hk : k < n) :
    Between n x (k + 1) (columnStep s1 c st k) := by
  obtain ⟨hlen, hentries, hdiag⟩ := h
  have hhere := hentries k hk.le
  have hnext := hentries (k + 1) hk
  rw [if_pos le_rfl] at hhere
  rw [if_neg (Nat.not_succ_le_self k)] at hnext
  refine ⟨by rw [columnStep, List.length_set, hlen], fun y hy => ?_, hnext⟩
  rw [columnStep, getD_set (by omega)]
  by_cases heq : y = k + 1
  · have hmin : x - k ≤ helperMin3 (st.1.getD (k + 1) 0 + 1) (st.1.getD k 0 + 1)
        (st.2 + if s1.getD k 0 = c then 0 else 1) := by
      apply le_helperMin3
      · omega
      · omega
      · exact (Nat.sub_le_iff_le_add.mpr hdiag).trans (Nat.le_add_right _ _)
    rw [if_pos heq, if_pos heq.le, heq]
    omega
  · have hother := hentries y hy
    have hsame : y ≤ k + 1 ↔ y ≤ k := by omega
    rw [if_neg heq, if_congr hsame rfl rfl]
    exact hother

theorem Above.round (h : Above s1.length x column) :
    Above s1.length (x + 1) (columnRound s1 column (x + 1) c) := by
  have hsteps : ∀ k ≤ s1.length, Between s1.length x k
      ((List.range k).foldl (columnStep s1 c) (column.set 0 (x + 1), x)) := by
    intro k hk
    induction k with
    | zero =>
      rw [List.range_zero, List.foldl_nil]
      refine ⟨by rw [List.length_set, h.1], fun y hy => ?_, le_rfl⟩
      rw [getD_set (by rw [h.1]; exact Nat.succ_pos _)]
      by_cases hzero : y = 0
      · rw [if_pos hzero, if_pos hzero.le, hzero]
      · rw [if_neg hzero, if_neg (by omega)]
        exact h.2 y hy
    | succ k ih =>
      rw [List.range_succ, List.foldl_append]
      exact (ih (Nat.le_of_succ_le hk)).step hk
  obtain ⟨hlen, hentries, -⟩ := hsteps s1.length le_rfl
  refine ⟨hlen, fun y hy => ?_⟩
  have hentry := hentries y hy
  rwa [if_pos hy] at hentry

theorem above_firstColumn (n : ℕ) : Above n 0 (firstColumn n) := by
  refine ⟨?_, fun y _ => Nat.zero_le _⟩
  rw [firstColumn]
  split
  · next h => rw [h, List.length_singleton]
  · exact List.length_range

theorem length_le_distance (s1 s2 : List Byte) :
    s2.length ≤ stringDistanceLevenshtein s1 s2 + s1.length := by
  have hrounds : ∀ (l : List Byte) (x : ℕ) (column : List ℕ), Above s1.length x column →
      Above s1.length (x + l.length)
        ((l.zipIdx x).foldl (fun column e => columnRound s1 column (e.2 + 1) e.1) column) := by
    intro l
    induction l with
    | nil => exact fun x column h => h
    | cons c l ih =>
      intro x column h
      rw [List.zipIdx_cons, List.foldl_cons, List.length_cons, Nat.add_comm l.length,
        ← Nat.add_assoc]
      exact ih (x + 1) _ h.round
  have habove := (hrounds s2 0 _ (above_firstColumn s1.length)).2 s1.length le_rfl
  rwa [Nat.zero_add] at habove

end Distance

/-! ## One reduced text -/

section Reduce
variable {text : List Byte} {n last : ℕ} {b : Block Byte} {guarded : Bool}

theorem ok_bind {α β : Type} (a : α) (f : α → Except Failure β) : (Except.ok a >>= f) = f a := rfl

theorem memcpy_eq {failure : Failure} {i : ℕ} {xs : List Byte} (h : i + xs.length ≤ b.size) :
    memcpy failure b i xs = .ok (b.overwrite i xs.length fun k => xs.getD k 0) := if_pos h

/-- What the string without the segment is. -/
def reduced (text : List Byte) (n : ℕ) : List Byte :=
  (text.take n ++ text.drop (segmentEnd text n)).take (text.length + n - segmentEnd text n)

theorem terminatorIndex_eq {len start : ℕ} (hlen : len < 2 ^ 62) (hstart : start ≤ len)
    (hlast : last ≤ len + start) : terminatorIndex len start last = len + start - last := by
  rw [terminatorIndex, Nat.mod_eq_of_lt (by omega : last < 2 ^ 64)]
  have hsum : len + 2 ^ 64 - last + start = 2 ^ 64 + (len + start - last) := by omega
  rw [hsum, Nat.add_mod_left, Nat.mod_eq_of_lt (by omega)]

/-- The parts in front of the segment and behind it. -/
theorem copyParts_eq (hn : n < text.length) (hlast : n < last) (hb : b.size = text.length + 1) :
    ∃ b', copyParts text n last b = .ok b' ∧ b'.size = text.length + 1 ∧
      At b' 0 (text.take n ++ text.drop last) := by
  have hlen : (text.take n).length = n := by
    rw [List.length_take, Nat.min_eq_left hn.le]
  have hfront : At (b.overwrite 0 (text.take n).length fun k => (text.take n).getD k 0) 0
      (text.take n) := at_overwrite 0 (by omega)
  rw [copyParts, memcpy_eq (by omega)]
  simp only [bind, Except.bind]
  generalize hr : b.overwrite 0 (text.take n).length (fun k => (text.take n).getD k 0) = r
    at hfront ⊢
  have hrsize : r.size = text.length + 1 := by
    rw [← hr, Block.size_overwrite, hb]
  split
  · next hin =>
    have hroom : n + (text.drop last).length ≤ r.size := by
      rw [List.length_drop]
      omega
    refine ⟨_, memcpy_eq hroom, hrsize, at_append.mpr ⟨hfront.overwrite _ (Or.inr ?_), ?_⟩⟩
    · omega
    · rw [hlen, Nat.zero_add]
      exact at_overwrite 0 hroom
  · next hout =>
    have hnil : text.drop last = [] := List.drop_eq_nil_of_le (Nat.not_lt.mp hout)
    rw [hnil, List.append_nil]
    exact ⟨r, rfl, hrsize, hfront⟩

theorem reduce_eq (guarded : Bool) (hn : n < text.length) (hlen : text.length < 2 ^ 62)
    (hb : b.size = text.length + 1) (hlast : segmentEnd text n ≤ text.length + n) :
    ∃ b', reduce guarded text n (segmentEnd text n) b = .ok b' ∧ b'.size = text.length + 1 ∧
      At b' 0 (reduced text n ++ [0]) := by
  have hpos : n < segmentEnd text n := by
    rw [segmentEnd]
    omega
  obtain ⟨b', hcopied, hsize, hat⟩ := copyParts_eq hn hpos hb
  have hindex := terminatorIndex_eq hlen hn.le hlast
  have hin : text.length + n - segmentEnd text n < b'.size := by omega
  have hstore := Block.store_eq hin (0 : Byte)
  have hcount : (reduced text n).length = text.length + n - segmentEnd text n := by
    rw [reduced, List.length_take, List.length_append, List.length_take, List.length_drop]
    omega
  refine ⟨_, ?_, ?_, at_append.mpr ⟨(hat.take _).store hstore ?_, ?_⟩⟩
  · rw [reduce, hcopied]
    simp only [bind, Except.bind]
    rw [if_neg fun h => h.2 hlast, hindex, hstore]
    exact rfl
  · exact hsize
  · right
    rw [Nat.zero_add]
    exact hcount.le
  · rw [Nat.zero_add, hcount]
    exact ⟨load_store_self hstore, trivial⟩

theorem segmentEnd_only (hsep : chr '_' ∉ text) : segmentEnd text 0 = text.length + 1 := by
  have hall : segmentAt (chr '_') text 0 = text := by
    rw [segmentAt, List.drop_zero, List.takeWhile_eq_self_iff]
    exact fun c hc => decide_eq_true (ne_of_mem_of_not_mem hc hsep)
  rw [segmentEnd, hall, Nat.zero_add]

theorem copyParts_only : copyParts text 0 (text.length + 1) b = .ok b := by
  have hout : ¬ text.length + 1 < text.length := by omega
  rw [copyParts, List.take_zero, memcpy_eq (Nat.zero_le _)]
  simp only [bind, Except.bind]
  rw [if_neg hout]
  exact congrArg Except.ok (overwrite_none b 0 _)

/-- There is no place for a terminator when the only segment of a text is taken out. -/
theorem terminatorIndex_only (hlen : text.length < 2 ^ 62) :
    text.length < terminatorIndex text.length 0 (text.length + 1) := by
  rw [terminatorIndex, Nat.mod_eq_of_lt (by omega : text.length + 1 < 2 ^ 64)]
  omega

theorem reduce_only_guarded (hsep : chr '_' ∉ text) :
    reduce true text 0 (segmentEnd text 0) b = .ok b := by
  have hguard : true = true ∧ ¬ text.length + 0 ≥ text.length + 1 := ⟨rfl, by omega⟩
  rw [segmentEnd_only hsep, reduce, copyParts_only, ok_bind, if_pos hguard]

theorem reduce_only_unguarded (hsep : chr '_' ∉ text) (hlen : text.length < 2 ^ 62)
    (hb : b.size = text.length + 1) :
    reduce false text 0 (segmentEnd text 0) b = .error .reducedOutOfBounds := by
  have hguard : ¬(false = true ∧ ¬ text.length + 0 ≥ text.length + 1) :=
    fun h => Bool.false_ne_true h.1
  have hout : ¬ terminatorIndex text.length 0 (text.length + 1) < b.size := by
    rw [hb, Nat.not_lt]
    exact terminatorIndex_only hlen
  have hstore : b.store (terminatorIndex text.length 0 (text.length + 1)) 0 = none := by
    rw [Block.store, if_neg hout]
  rw [segmentEnd_only hsep, reduce, copyParts_only, ok_bind, if_neg hguard, hstore, checked]

end Reduce

/-! ## The loop over the segments -/

section Loop
variable {text : List Byte} {n fuel : ℕ} {b : Block Byte} {guarded : Bool} {s : Suggestions}
  {act : List Byte → Suggestions → Suggestions}

/-- Only a segment that is the whole text ends behind it. -/
theorem segmentEnd_le_or (hn : n < text.length) :
    segmentEnd text n ≤ text.length + n ∨ (n = 0 ∧ chr '_' ∉ text) := by
  have hle := length_segmentAt_le (chr '_') hn.le
  by_cases hzero : n = 0
  · subst hzero
    by_cases hsep : chr '_' ∈ text
    · left
      rw [segmentEnd]
      have hne : (segmentAt (chr '_') text 0).length ≠ text.length := by
        intro heq
        have hall : segmentAt (chr '_') text 0 = text :=
          (List.takeWhile_prefix _).eq_of_length heq
        rw [segmentAt, List.drop_zero, List.takeWhile_eq_self_iff] at hall
        exact absurd (hall _ hsep) (by simp)
      omega
    · exact Or.inr ⟨rfl, hsep⟩
  · left
    rw [segmentEnd]
    omega

theorem mem_of_mem_reduced {c : Byte} (hc : c ∈ reduced text n) : c ∈ text := by
  have hmem := List.mem_of_mem_take hc
  rw [List.mem_append] at hmem
  exact hmem.elim List.mem_of_mem_take List.mem_of_mem_drop

/-- One round of the loop makes the string without the segment. -/
theorem reduce_string (hn : n < text.length) (hlen : text.length < 2 ^ 62) (hzero : 0 ∉ text)
    (hfit : guarded = true ∨ chr '_' ∈ text) (hb : b.size = text.length + 1)
    (hempty : n = 0 → b.load 0 = some 0) :
    ∃ b', reduce guarded text n (segmentEnd text n) b = .ok b' ∧ b'.size = text.length + 1 ∧
      stringAt b' 0 0 = some (reduced text n) := by
  have hfree : 0 ∉ reduced text n := fun hmem => hzero (mem_of_mem_reduced hmem)
  rcases segmentEnd_le_or hn with hle | ⟨rfl, hsep⟩
  · obtain ⟨b', heq, hsize, hat⟩ := reduce_eq guarded hn hlen hb hle
    exact ⟨b', heq, hsize, stringAt_terminated hat hfree⟩
  · -- nothing was written yet, and nothing is
    obtain rfl : guarded = true := hfit.resolve_right hsep
    have hnil : reduced text 0 = [] := by
      rw [reduced, segmentEnd_only hsep, Nat.add_zero, Nat.sub_eq_zero_of_le (Nat.le_succ _),
        List.take_zero]
    refine ⟨b, reduce_only_guarded hsep, hb, ?_⟩
    rw [hnil] at hfree ⊢
    have hat : At b 0 (([] : List Byte) ++ [0]) := ⟨hempty rfl, trivial⟩
    exact stringAt_terminated hat hfree

theorem reducesFrom_iff_reduced (hbegins : Begins (chr '_') text n) (hn : n < text.length)
    {r : List Byte} : ReducesFrom (chr '_') n text r ↔
      r = reduced text n ∨ ReducesFrom (chr '_') (segmentEnd text n) text r := by
  have hfrom := reducesFrom_iff (r := r) (hbegins.segment hn)
  rw [List.length_take, Nat.min_eq_left hn.le, without_eq hn rfl] at hfrom
  exact hfrom

/-- The loop acts on every reduced text, and it ends. -/
theorem reduceLoop_eq (guarded : Bool) (text : List Byte)
    (act : List Byte → Suggestions → Suggestions) (fuel : ℕ) (b : Block Byte) (s : Suggestions)
    (hlen : text.length < 2 ^ 62) (hzero : 0 ∉ text)
    (hfit : guarded = true ∨ chr '_' ∈ text) (hbegins : n < text.length → Begins (chr '_') text n)
    (hb : b.size = text.length + 1) (hempty : n = 0 → b.load 0 = some 0)
    (hle : n ≤ text.length + 1) (hfuel : text.length + 1 < n + fuel) :
    ∃ rs : List (List Byte), (∀ r, r ∈ rs ↔ ReducesFrom (chr '_') n text r) ∧
      reduceLoop guarded text act fuel n b s = .ok (rs.foldl (fun s r => act r s) s) := by
  induction fuel generalizing n b s with
  | zero => exact absurd hle (by omega)
  | succ fuel ih =>
    by_cases hn : n < text.length
    · have hseg := length_segmentAt_le (chr '_') hn.le
      obtain ⟨b', heq, hsize, hstring⟩ := reduce_string hn hlen hzero hfit hb hempty
      have hpos : n < segmentEnd text n ∧ segmentEnd text n ≤ text.length + 1 := by
        rw [segmentEnd]
        omega
      have hnext : segmentEnd text n < text.length → Begins (chr '_') text (segmentEnd text n) := by
        intro hin
        refine (hbegins hn).next ?_
        rw [segmentEnd] at hin
        omega
      obtain ⟨rs, hrs, hrest⟩ :=
        ih b' (act (reduced text n) s) hnext hsize (by omega) hpos.2 (by omega)
      refine ⟨reduced text n :: rs, fun r => ?_, ?_⟩
      · rw [List.mem_cons, hrs, reducesFrom_iff_reduced (hbegins hn) hn]
      · rw [reduceLoop, if_pos hn, heq, ok_bind, hstring, checked, ok_bind, hrest,
          List.foldl_cons]
    · refine ⟨[], fun r => ?_, ?_⟩
      · exact iff_of_false List.not_mem_nil (not_reducesFrom (Nat.not_lt.mp hn))
      · rw [reduceLoop, if_neg hn]
        rfl

/-- The unguarded loop writes outside when the text has only one segment. -/
theorem reduceLoop_only (hlen : text.length < 2 ^ 62) (htext : text ≠ [])
    (hsep : chr '_' ∉ text) (hb : b.size = text.length + 1) :
    reduceLoop false text act (fuel + 1) 0 b s = .error .reducedOutOfBounds := by
  rw [reduceLoop, if_pos (List.length_pos_iff.mpr htext), reduce_only_unguarded hsep hlen hb]
  rfl

end Loop

/-! ## What is found -/

section Found
variable {s : Suggestions} {name : List Byte} {fuel : ℕ}

/-- What was printed was found. -/
def Opened (s : Suggestions) : Prop := ∀ j, s.seen j = true → s.found = true

/-- A step that finds something when `close` holds. -/
def Finds (close : Prop) (s t : Suggestions) : Prop :=
  Opened t ∧ (t.found = true ↔ s.found = true ∨ close)

theorem suggest_finds (h : Opened s) (j : ℕ) (env : List Byte) (d : ℕ) :
    Finds (d < envSimilarityTreshold) s (suggest j env d s) := by
  rw [suggest]
  split
  · next hclose => exact ⟨fun _ _ => rfl, iff_of_true rfl (Or.inr hclose.1)⟩
  · next hfar =>
    refine ⟨h, (or_iff_left_of_imp fun hd => ?_).symm⟩
    -- a variable that is close is left out when it was printed before
    have hseen : s.seen j ≠ false := fun hfalse => hfar ⟨hd, hfalse⟩
    exact h j (Bool.eq_true_of_not_eq_false hseen)

theorem Finds.trans {p q : Prop} {t u : Suggestions} (h : Finds p s t) (h' : Finds q t u) :
    Finds (p ∨ q) s u := by
  refine ⟨h'.1, ?_⟩
  rw [h'.2, h.2, or_assoc]

theorem foldl_finds {ι : Type} {f : Suggestions → ι → Suggestions} {close : ι → Prop}
    (hf : ∀ i s, Opened s → Finds (close i) s (f s i)) (l : List ι) (h : Opened s) :
    Finds (∃ i ∈ l, close i) s (l.foldl f s) := by
  induction l generalizing s with
  | nil => exact ⟨h, (or_iff_left fun ⟨i, hi, _⟩ => List.not_mem_nil hi).symm⟩
  | cons i l ih =>
    have hstep := hf i s h
    have hrest := hstep.trans (ih hstep.1)
    rwa [List.foldl_cons, List.exists_mem_cons_iff]

theorem foldlM_finds {ι : Type} {f : Suggestions → ι → Except Failure Suggestions}
    {close : ι → Prop} (l : List ι)
    (hf : ∀ i ∈ l, ∀ s, Opened s → ∃ t, f s i = .ok t ∧ Finds (close i) s t) (h : Opened s) :
    ∃ t, l.foldlM f s = .ok t ∧ Finds (∃ i ∈ l, close i) s t := by
  induction l generalizing s with
  | nil => exact ⟨s, rfl, h, (or_iff_left fun ⟨i, hi, _⟩ => List.not_mem_nil hi).symm⟩
  | cons i l ih =>
    rw [List.forall_mem_cons] at hf
    obtain ⟨t, heq, hstep⟩ := hf.1 s h
    obtain ⟨u, hrun, hrest⟩ := ih hf.2 hstep.1
    refine ⟨u, ?_, ?_⟩
    · rw [List.foldlM_cons, heq, ok_bind, hrun]
    · rw [List.exists_mem_cons_iff]
      exact hstep.trans hrest

/-- The name is close to a known variable. -/
def CloseWhole (name : List Byte) : Prop :=
  ∃ env ∈ aflEnvironmentVariables,
    stringDistanceLevenshtein (env.drop 4) name < envSimilarityTreshold

/-- The name is close to a known variable without one of its segments. -/
def CloseReduced (name : List Byte) : Prop :=
  ∃ env ∈ aflEnvironmentVariables, ∃ r, Reduces (chr '_') (env.drop 4) r ∧
    stringDistanceLevenshtein r name < envSimilarityTreshold

theorem exists_mem_zipIdx {α : Type} {l : List α} {p : α → Prop} :
    (∃ e ∈ l.zipIdx, p e.1) ↔ ∃ a ∈ l, p a := by
  conv_rhs => rw [← List.zipIdx_map_fst 0 l]
  simp only [List.mem_map, exists_exists_and_eq_and]

theorem fst_mem_of_mem_zipIdx {α : Type} {l : List α} {e : α × ℕ} (he : e ∈ l.zipIdx) :
    e.1 ∈ l := by
  have hmem := List.mem_map_of_mem (f := Prod.fst) he
  rwa [List.zipIdx_map_fst] at hmem

theorem suggestWhole_finds (name : List Byte) (h : Opened s) :
    Finds (CloseWhole name) s (suggestWhole name s) := by
  have hfold := foldl_finds (fun e t ht => suggest_finds ht e.2 e.1
    (stringDistanceLevenshtein (e.1.drop 4) name)) aflEnvironmentVariables.zipIdx h
  have hclose : CloseWhole name ↔ ∃ e ∈ aflEnvironmentVariables.zipIdx,
      stringDistanceLevenshtein (e.1.drop 4) name < envSimilarityTreshold :=
    exists_mem_zipIdx.symm
  rw [hclose]
  exact hfold

def isShort (l : List Char) : Bool := l.length.ble 42 && l.all fun c => chr c != 0

theorem short_ofList (l : List Char) (h : isShort l = true) :
    (ofString (String.ofList l)).length ≤ 42 ∧ 0 ∉ ofString (String.ofList l) := by
  rw [isShort, Bool.and_eq_true, List.all_eq_true] at h
  rw [ofString, String.toList_ofList, List.length_map]
  refine ⟨Nat.le_of_ble_eq_true h.1, fun hmem => ?_⟩
  obtain ⟨c, hc, hzero⟩ := List.mem_map.mp hmem
  exact absurd hzero (bne_iff_ne.mp (h.2 c hc))

theorem aflEnvironmentVariables_short :
    ∀ env ∈ aflEnvironmentVariables, env.length ≤ 42 ∧ 0 ∉ env := by
  rw [aflEnvironmentVariables, List.forall_mem_map]
  dsimp only
  repeat
    refine List.forall_mem_cons.mpr ⟨short_ofList _ rfl, ?_⟩
  exact fun _ h => absurd h List.not_mem_nil

theorem suggestReduced_finds (name : List Byte) (hfuel : 48 ≤ fuel) (h : Opened s)
    {e : List Byte × ℕ} (he : e.1 ∈ aflEnvironmentVariables) :
    ∃ t, suggestReduced fuel name s e = .ok t ∧
      Finds (∃ r, Reduces (chr '_') (e.1.drop 4) r ∧
        stringDistanceLevenshtein r name < envSimilarityTreshold) s t := by
  obtain ⟨hshort, hzero⟩ := aflEnvironmentVariables_short e.1 he
  rw [suggestReduced]
  generalize htext : e.1.drop 4 = text
  have hlen : text.length ≤ 42 := by
    rw [← htext, List.length_drop]
    omega
  have hfree : 0 ∉ text := by
    rw [← htext]
    exact fun hmem => hzero (List.mem_of_mem_drop hmem)
  have hsmall : text.length + 1 ≤ maxAlloc := by
    rw [maxAlloc]
    omega
  obtain ⟨rs, hrs, hloop⟩ := reduceLoop_eq true text
    (fun string => suggest e.2 e.1 (stringDistanceLevenshtein string name)) fuel
    ⟨text.length + 1, fun _ => 0⟩ s (by omega) hfree (Or.inl rfl) (fun _ => begins_zero) rfl
    (fun _ => Block.load_eq (Nat.succ_pos _)) (Nat.zero_le _) (by omega)
  have hfold := foldl_finds (fun r t ht => suggest_finds ht e.2 e.1
    (stringDistanceLevenshtein r name)) rs h
  simp only [hrs, reducesFrom_zero] at hfold
  refine ⟨_, ?_, hfold⟩
  rw [ckAlloc_eq hsmall, allocated, ok_bind]
  exact hloop

end Found

/-! ## The whole function -/

section Whole
variable {rest : List Byte} {fuel : ℕ}

/-- The name behind the prefix. -/
def nameOf (rest : List Byte) : List Byte := rest.takeWhile (· ≠ chr '=')

def prefixed (rest : List Byte) : List Byte := ofString "AFL_" ++ rest

theorem envName_prefixed : ((prefixed rest).takeWhile (· ≠ chr '=')).drop 4 = nameOf rest := by
  have hafl : ofString "AFL_" = [chr 'A', chr 'F', chr 'L', chr '_'] := by decide +kernel
  have hno : ∀ c ∈ ofString "AFL_", decide (c ≠ chr '=') = true := by
    rw [hafl]
    decide
  rw [prefixed, List.takeWhile_append_of_pos hno, hafl]
  rfl

theorem zero_notMem_nameOf (hzero : 0 ∉ rest) : 0 ∉ nameOf rest :=
  fun hmem => hzero ((List.takeWhile_prefix _).subset hmem)

/-- The copy of the name is a string. -/
theorem copy_name {name : List Byte} (hzero : 0 ∉ name) :
    ∃ b, memcpy .outOfBounds ⟨name.length + 1, fun _ => 0⟩ 0 name = .ok b ∧
      stringAt b 0 0 = some name := by
  have hroom : 0 + name.length ≤ name.length + 1 := by omega
  have hname : At ((⟨name.length + 1, fun _ => 0⟩ : Block Byte).overwrite 0 name.length
      fun k => name.getD k 0) 0 name := at_overwrite 0 hroom
  have hend : At (⟨name.length + 1, fun _ => 0⟩ : Block Byte) name.length [0] :=
    ⟨Block.load_eq (Nat.lt_succ_self _), trivial⟩
  refine ⟨_, memcpy_eq hroom, stringAt_terminated (at_append.mpr ⟨hname, ?_⟩) hzero⟩
  rw [Nat.zero_add]
  exact hend.overwrite _ (Or.inl (by omega))

/-- A name that is too long is not looked at. -/
theorem printSuggestedEnvs_of_long (fuel : ℕ) (hlong : maxAlloc ≤ (nameOf rest).length) :
    printSuggestedEnvs fuel (prefixed rest) = .error .abort ∨
      printSuggestedEnvs fuel (prefixed rest) = .error .outOfBounds := by
  rw [printSuggestedEnvs, envName_prefixed]
  rcases ckAlloc_of_lt (Nat.lt_succ_of_le hlong) with hnone | ⟨b, hsome, hsize⟩
  · left
    rw [hnone]
    rfl
  · right
    have hroom : ¬ 0 + (nameOf rest).length ≤ b.size := by
      rw [maxAlloc] at hsize
      omega
    rw [hsome, allocated, ok_bind, memcpy, if_neg hroom]
    rfl

/-- What is found in the first loop, and in the second one when there was nothing in the first. -/
theorem printSuggestedEnvs_eq (hzero : 0 ∉ rest) (hshort : (nameOf rest).length < maxAlloc)
    (hfuel : 48 ≤ fuel) : ∃ s t, Finds (CloseWhole (nameOf rest)) ⟨fun _ => false, false, []⟩ s ∧
      Finds (CloseReduced (nameOf rest)) s t ∧ printSuggestedEnvs fuel (prefixed rest) =
        if s.found then .ok s.printed
        else if t.found then .ok t.printed
        else (reduceLoop false (nameOf rest) suggestName fuel 0
          ⟨(nameOf rest).length + 1, fun _ => 0⟩ t).map Suggestions.printed := by
  obtain ⟨b, hcopy, hstring⟩ := copy_name (zero_notMem_nameOf hzero)
  have hclosed : Opened ⟨fun _ => false, false, []⟩ := fun _ h => absurd h Bool.false_ne_true
  have hwhole := suggestWhole_finds (nameOf rest) hclosed
  have hround : ∀ e ∈ aflEnvironmentVariables.zipIdx, ∀ s, Opened s →
      ∃ t, suggestReduced fuel (nameOf rest) s e = .ok t ∧
        Finds (∃ r, Reduces (chr '_') (e.1.drop 4) r ∧
          stringDistanceLevenshtein r (nameOf rest) < envSimilarityTreshold) s t :=
    fun e he s hs => suggestReduced_finds (nameOf rest) hfuel hs (fst_mem_of_mem_zipIdx he)
  obtain ⟨t, hreduced, hfinds⟩ := foldlM_finds _ hround hwhole.1
  have hclose : CloseReduced (nameOf rest) ↔ ∃ e ∈ aflEnvironmentVariables.zipIdx,
      ∃ r, Reduces (chr '_') (e.1.drop 4) r ∧
        stringDistanceLevenshtein r (nameOf rest) < envSimilarityTreshold :=
    exists_mem_zipIdx.symm
  refine ⟨_, t, hwhole, ⟨hfinds.1, hfinds.2.trans (or_congr_right hclose.symm)⟩, ?_⟩
  rw [printSuggestedEnvs, envName_prefixed, ckAlloc_eq hshort, allocated, ok_bind, hcopy, ok_bind,
    hstring, checked, ok_bind]
  simp only [hreduced, ok_bind]
  rfl

/-- One segment and nothing found: the terminator is written in front of the block. -/
theorem printSuggestedEnvs_of_far (hzero : 0 ∉ rest) (hshort : (nameOf rest).length < maxAlloc)
    (hfuel : 48 ≤ fuel) (hempty : nameOf rest ≠ []) (hsep : chr '_' ∉ nameOf rest)
    (hwhole : ¬ CloseWhole (nameOf rest)) (hreduced : ¬ CloseReduced (nameOf rest)) :
    printSuggestedEnvs fuel (prefixed rest) = .error .reducedOutOfBounds := by
  obtain ⟨s, t, hs, ht, heq⟩ := printSuggestedEnvs_eq hzero hshort hfuel
  have hfound : ¬ s.found = true := by
    rw [hs.2]
    exact not_or.mpr ⟨Bool.false_ne_true, hwhole⟩
  have hfound' : ¬ t.found = true := by
    rw [ht.2]
    exact not_or.mpr ⟨hfound, hreduced⟩
  have hsmall : (nameOf rest).length < 2 ^ 62 := hshort.trans (by decide)
  obtain ⟨fuel, rfl⟩ := Nat.exists_eq_succ_of_ne_zero (by omega : fuel ≠ 0)
  rw [if_neg hfound, if_neg hfound', reduceLoop_only hsmall hempty hsep rfl] at heq
  exact heq

/-- In the other cases the function ends. -/
theorem printSuggestedEnvs_ends (hzero : 0 ∉ rest) (hshort : (nameOf rest).length < maxAlloc)
    (hfuel : rest.length + 48 ≤ fuel)
    (hcase : nameOf rest = [] ∨ chr '_' ∈ nameOf rest ∨ CloseWhole (nameOf rest) ∨
      CloseReduced (nameOf rest)) :
    ∃ out, printSuggestedEnvs fuel (prefixed rest) = .ok out := by
  obtain ⟨s, t, hs, ht, heq⟩ := printSuggestedEnvs_eq hzero hshort (by omega : 48 ≤ fuel)
  have hsmall : (nameOf rest).length < 2 ^ 62 := hshort.trans (by decide)
  have hnameLen : (nameOf rest).length ≤ rest.length := (List.takeWhile_prefix _).length_le
  rw [heq]
  by_cases hfound : s.found = true
  · exact ⟨_, if_pos hfound⟩
  rw [if_neg hfound]
  by_cases hfound' : t.found = true
  · exact ⟨_, if_pos hfound'⟩
  rw [if_neg hfound']
  have hloop : ∃ u, reduceLoop false (nameOf rest) suggestName fuel 0
      ⟨(nameOf rest).length + 1, fun _ => 0⟩ t = .ok u := by
    rcases hcase with hempty | hsep | hclose
    · obtain ⟨fuel, rfl⟩ := Nat.exists_eq_succ_of_ne_zero (by omega : fuel ≠ 0)
      rw [hempty]
      exact ⟨t, if_neg (Nat.lt_irrefl 0)⟩
    · obtain ⟨rs, -, hloop⟩ := reduceLoop_eq false (nameOf rest) suggestName fuel
        ⟨(nameOf rest).length + 1, fun _ => 0⟩ t hsmall (zero_notMem_nameOf hzero) (Or.inr hsep)
        (fun _ => begins_zero) rfl (fun _ => Block.load_eq (Nat.succ_pos _)) (Nat.zero_le _)
        (by omega)
      exact ⟨_, hloop⟩
    · rw [ht.2, hs.2] at hfound'
      exact absurd (hclose.imp_left Or.inr) hfound'
  obtain ⟨u, hu⟩ := hloop
  exact ⟨u.printed, by rw [hu]; rfl⟩

/-- The prefix and a name: the two loops write inside the allocated length and the function ends
exactly when the name is too long to be copied, is empty, has a second segment, or is close to a
known variable, whole or without one of its segments. -/
theorem printSuggestedEnvs_writes_iff (rest : List Byte) (hzero : 0 ∉ rest) (fuel : ℕ)
    (hfuel : rest.length + 48 ≤ fuel) :
    (printSuggestedEnvs fuel (prefixed rest) ≠ .error .endless ∧
      printSuggestedEnvs fuel (prefixed rest) ≠ .error .reducedOutOfBounds) ↔
      maxAlloc ≤ (nameOf rest).length ∨ nameOf rest = [] ∨ chr '_' ∈ nameOf rest ∨
        CloseWhole (nameOf rest) ∨ CloseReduced (nameOf rest) := by
  constructor
  · rintro ⟨-, hinside⟩
    by_contra hcase
    simp only [not_or, Nat.not_le] at hcase
    obtain ⟨hshort, hempty, hsep, hwhole, hreduced⟩ := hcase
    exact hinside (printSuggestedEnvs_of_far hzero hshort (by omega) hempty hsep hwhole hreduced)
  · intro hcase
    by_cases hlong : maxAlloc ≤ (nameOf rest).length
    · rcases printSuggestedEnvs_of_long fuel hlong with heq | heq
      · rw [heq]
        decide
      · rw [heq]
        decide
    · obtain ⟨out, heq⟩ := printSuggestedEnvs_ends hzero (Nat.not_le.mp hlong) hfuel
        (hcase.resolve_left hlong)
      rw [heq]
      exact ⟨nofun, nofun⟩

/-- `AFL_A_B` has two segments. -/
theorem printSuggestedEnvs_writes_iff_segments :
    printSuggestedEnvs 51 (prefixed [chr 'A', chr '_', chr 'B']) ≠ .error .reducedOutOfBounds :=
  ((printSuggestedEnvs_writes_iff [chr 'A', chr '_', chr 'B'] (by decide) 51 (by decide)).mpr
    (Or.inr (Or.inr (Or.inl (by decide))))).2

/-- A name that is much longer than all known variables is not close to one. -/
theorem far_of_long (name : List Byte) (hlong : 45 ≤ name.length) :
    ¬ CloseWhole name ∧ ¬ CloseReduced name := by
  have hshort : ∀ env ∈ aflEnvironmentVariables, (env.drop 4).length ≤ 42 := by
    intro env henv
    have hle := (aflEnvironmentVariables_short env henv).1
    rw [List.length_drop]
    omega
  have hfar : ∀ r : List Byte, r.length ≤ 42 →
      ¬ stringDistanceLevenshtein r name < envSimilarityTreshold := by
    intro r hr
    have hge := length_le_distance r name
    rw [envSimilarityTreshold]
    omega
  constructor
  · rintro ⟨env, henv, hclose⟩
    exact hfar _ (hshort env henv) hclose
  · rintro ⟨env, henv, r, hr, hclose⟩
    exact hfar r (hr.length_le.trans (hshort env henv)) hclose

/-- A name of one segment that is longer than all known variables. -/
theorem printSuggestedEnvs_outside :
    printSuggestedEnvs 100 (prefixed (List.replicate 50 (chr 'X'))) =
      .error .reducedOutOfBounds := by
  have hname : nameOf (List.replicate 50 (chr 'X')) = List.replicate 50 (chr 'X') := by decide
  have hfar := far_of_long (List.replicate 50 (chr 'X')) (by decide)
  apply printSuggestedEnvs_of_far
  · decide
  · rw [hname]
    decide
  · decide
  · rw [hname]
    decide
  · rw [hname]
    decide
  · rw [hname]
    exact hfar.1
  · rw [hname]
    exact hfar.2

end Whole

end AflPlusPlus.SuggestedEnvs
