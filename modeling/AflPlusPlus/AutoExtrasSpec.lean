import AflPlusPlus.AutoExtras

/-!
# What the table of automatic tokens holds

Its tokens are few, short, varied and pairwise different, whatever is entered or evicted, and the
ones in front are sorted by size. That no token of the user is entered rests on the order that
every function keeps the user's tokens in.
-/

namespace AflPlusPlus.AutoExtras
open ByteWords CStrings DictionaryFiles Qsorts

variable {q : Qsort} {s : State} {mem : List Byte} {l : List AutoExtraData} {rnd : ℕ}

/-- Equal as case-insensitive tokens. -/
def SameToken (a b : List Byte) : Prop := a.map tolower = b.map tolower

instance (a b : List Byte) : Decidable (SameToken a b) := inferInstanceAs (Decidable (_ = _))

/-- Made of one repeated byte. -/
def OneByte (mem : List Byte) : Prop := ∃ b, mem ≠ [] ∧ ∀ x ∈ mem, x = b

/-! ## Comparisons -/

theorem u32_sub_toInt {m n : ℕ} (hm : m < 2 ^ 31) (hn : n < 2 ^ 31) :
    (BitVec.ofNat 32 m - BitVec.ofNat 32 n).toInt = m - n := by
  rw [BitVec.toInt_sub, BitVec.toInt_ofNat', BitVec.toInt_ofNat',
    Int.bmod_def, Int.bmod_def, Int.bmod_def]
  omega

theorem memcmpNocase_eq_false {a b : List Byte} (h : a.length = b.length) :
    memcmpNocase a b = false ↔ SameToken a b := by
  induction a generalizing b with
  | nil =>
    rw [List.length_eq_zero_iff.mp h.symm]
    simp [memcmpNocase, SameToken]
  | cons x a ih =>
    cases b with
    | nil => simp at h
    | cons y b =>
      have hrest := ih (Nat.succ_injective h)
      rw [memcmpNocase]
      by_cases hxy : tolower x = tolower y
      · rw [if_neg (not_not.mpr hxy), hrest]
        simp [SameToken, hxy]
      · simp [SameToken, hxy]

theorem SameToken.length_eq {a b : List Byte} (h : SameToken a b) : a.length = b.length := by
  simpa using congrArg List.length h

theorem isToken_iff {e : AutoExtraData} : e.isToken mem = true ↔ SameToken e.data mem := by
  rw [AutoExtraData.isToken, Bool.and_eq_true, decide_eq_true_eq, Bool.not_eq_true']
  constructor
  · rintro ⟨hlen, h⟩
    exact (memcmpNocase_eq_false hlen).mp h
  · intro h
    exact ⟨h.length_eq, (memcmpNocase_eq_false h.length_eq).mpr h⟩

theorem runEnd_of_oneByte (h : OneByte mem) : runEnd mem = mem.length := by
  obtain ⟨b, hne, hall⟩ := h
  cases mem with
  | nil => exact absurd rfl hne
  | cons c mem =>
    obtain ⟨rfl, htail⟩ := List.forall_mem_cons.mp hall
    rw [runEnd, List.tail_cons, List.head?_cons, List.takeWhile_eq_self_iff.mpr, List.length_cons,
      Nat.add_comm]
    intro x hx
    simpa using (htail x hx).symm

/-! ## The order of the user's tokens -/

/-- By size, and none of them too big. -/
structure ExtrasSorted (extras : List (List Byte)) : Prop where
  sorted : extras.Pairwise (fun e f => e.length ≤ f.length)
  small : ∀ e ∈ extras, e.length ≤ maxDictFile

theorem ExtrasSorted.sort {extras : List (List Byte)} (h : ∀ e ∈ extras, e.length ≤ maxDictFile) :
    ExtrasSorted (q.sort compareExtrasLen extras) := by
  have hconst : maxDictFile < 2 ^ 31 := by decide
  have hkey := q.ordered compareExtrasLen (fun e => (e.length : ℤ)) extras (by
    intro a ha b hb
    exact u32_sub_toInt ((h a ha).trans_lt hconst) ((h b hb).trans_lt hconst))
  exact ⟨hkey.imp (fun h => by exact_mod_cast h), fun e he => h e (Qsort.mem_sort.mp he)⟩

theorem ExtrasSorted.sublist {k l : List (List Byte)} (h : ExtrasSorted l) (hk : k.Sublist l) :
    ExtrasSorted k :=
  ⟨h.sorted.sublist hk, fun e he => h.small e (hk.subset he)⟩

theorem extrasCheckAndSort_sorted (h : ∀ e ∈ s.extras, e.length ≤ maxDictFile) :
    ExtrasSorted (s.extrasCheckAndSort q).extras := by
  rw [State.extrasCheckAndSort]
  split_ifs with hempty
  · rw [List.length_eq_zero_iff.mp hempty]
    exact ⟨List.Pairwise.nil, by simp⟩
  · exact ExtrasSorted.sort h

theorem keep_small {loaded : Loaded} {curLine : ℕ} {keyword : List Byte}
    (h : ∀ e ∈ loaded.extras, e.length ≤ maxDictFile) :
    ∀ e ∈ (loaded.keep curLine keyword).extras, e.length ≤ maxDictFile := by
  rw [Loaded.keep]
  split_ifs with hbig
  · exact h
  · exact List.forall_mem_append.mpr ⟨h, by simpa using hbig⟩

theorem line_small {loaded : Loaded} {dictLevel : BitVec 32} {curLine : ℕ} {buf : List Byte}
    (h : ∀ e ∈ loaded.extras, e.length ≤ maxDictFile) :
    ∀ e ∈ (loaded.line dictLevel curLine buf).extras, e.length ≤ maxDictFile := by
  rw [Loaded.line]
  cases findKeyword dictLevel.toInt buf with
  | skipped => exact h
  | malformed complaint => exact h
  | quoted text => exact keep_small h

theorem loadLines_small {loaded : Loaded} {dictLevel : BitVec 32} {curLine : ℕ}
    {file : List Byte} (h : ∀ e ∈ loaded.extras, e.length ≤ maxDictFile) :
    ∀ e ∈ (loadLines dictLevel curLine loaded file).extras, e.length ≤ maxDictFile := by
  induction curLine, loaded, file using loadLines.induct dictLevel with
  | case1 curLine loaded => simpa [loadLines] using h
  | case2 curLine loaded b file read ih =>
    rw [loadLines]
    exact ih (line_small h)

theorem everyNth_length_le (n r : ℕ) (data : List Byte) :
    (everyNth n r data).length ≤ data.length := by
  rw [everyNth, List.length_map]
  exact (List.length_filter_le _ _).trans_eq List.length_range

theorem deunicode_small {data : List Byte} (h : data.length ≤ maxDictFile) :
    ∀ e ∈ deunicode data, e.length ≤ maxDictFile := by
  have hpart := fun n r => (everyNth_length_le n r data).trans h
  rw [deunicode]
  dsimp only
  split_ifs <;> simp [hpart]

theorem dedup_sublist (extras : List (List Byte)) : (dedup extras).Sublist extras := by
  induction extras using dedup.induct with
  | case1 => simp [dedup]
  | case2 e extras ih =>
    rw [dedup]
    exact (ih.trans (dedupAgainst_sublist e extras)).cons_cons e

theorem step_extras (h : ExtrasSorted s.extras) (action : Action) :
    ExtrasSorted (s.step q action).extras := by
  cases action with
  | loadFile dictLevel file => exact extrasCheckAndSort_sorted (loadLines_small h.small)
  | loadDir files =>
    refine extrasCheckAndSort_sorted (List.forall_mem_append.mpr ⟨h.small, ?_⟩)
    intro e he
    simpa using (of_decide_eq_true (List.mem_filter.mp he).2).2
  | addExtra mem =>
    rw [State.step, State.addExtra]
    split_ifs with hpresent hbig
    · exact h
    · exact h
    · exact ExtrasSorted.sort (List.forall_mem_append.mpr ⟨h.small, by simpa using hbig⟩)
  | deunicode =>
    rw [State.step, State.deunicodeExtras]
    split_ifs
    · exact h
    · refine ExtrasSorted.sort (List.forall_mem_append.mpr ⟨h.small, ?_⟩)
      intro e he
      obtain ⟨data, hdata, he⟩ := List.mem_flatMap.mp he
      exact deunicode_small (h.small data hdata) e he
  | dedup => exact h.sublist (dedup_sublist _)
  | maybeAddAuto rnd mem =>
    rw [State.step, State.maybeAddAuto]
    split_ifs <;> exact h

theorem matchesExtra_iff {extras : List (List Byte)} (h : ExtrasSorted extras) :
    matchesExtra extras mem = true ↔ ∃ e ∈ extras, SameToken e mem := by
  rw [matchesExtra]
  rw [dropWhile_takeWhile_key List.length h.sorted, List.any_eq_true]
  constructor
  · rintro ⟨e, he, hsame⟩
    obtain ⟨he, hlen⟩ := List.mem_filter.mp he
    exact ⟨e, he, (memcmpNocase_eq_false (of_decide_eq_true hlen)).mp (by simpa using hsame)⟩
  · rintro ⟨e, he, hsame⟩
    refine ⟨e, List.mem_filter.mpr ⟨he, decide_eq_true hsame.length_eq⟩, ?_⟩
    simpa using (memcmpNocase_eq_false hsame.length_eq).mpr hsame

/-! ## The automatic tokens -/

def tokens (l : List AutoExtraData) : List (List Byte) := l.map AutoExtraData.data

/-- What holds of the tokens in any order. -/
structure TokensInv (tokens : List (List Byte)) : Prop where
  count : tokens.length ≤ maxAutoExtras
  short : ∀ e ∈ tokens, e.length ≤ maxAutoExtra
  varied : ∀ e ∈ tokens, ¬ OneByte e
  different : tokens.Pairwise (fun e f => ¬ SameToken e f)

theorem TokensInv.perm {k l : List (List Byte)} (h : TokensInv l) (hk : k.Perm l) :
    TokensInv k where
  count := hk.length_eq ▸ h.count
  short e he := h.short e (hk.subset he)
  varied e he := h.varied e (hk.subset he)
  different := (hk.pairwise_iff (fun hne hsame => hne hsame.symm)).mpr h.different

theorem TokensInv.append {l : List (List Byte)} (h : TokensInv l)
    (hcount : l.length < maxAutoExtras) (hshort : mem.length ≤ maxAutoExtra)
    (hvaried : ¬ OneByte mem) (hnew : ∀ e ∈ l, ¬ SameToken e mem) : TokensInv (l ++ [mem]) where
  count := by
    rw [List.length_append]
    exact hcount
  short := List.forall_mem_append.mpr ⟨h.short, by simpa using hshort⟩
  varied := List.forall_mem_append.mpr ⟨h.varied, by simpa using hvaried⟩
  different := List.pairwise_append.mpr
    ⟨h.different, List.pairwise_singleton _ _, by simpa using hnew⟩

/-- To evict a token is to take it out and to put the new one in its place. -/
theorem TokensInv.set {l : List (List Byte)} (h : TokensInv l) (i : ℕ)
    (hshort : mem.length ≤ maxAutoExtra) (hvaried : ¬ OneByte mem)
    (hnew : ∀ e ∈ l, ¬ SameToken e mem) : TokensInv (l.set i mem) where
  count := by
    rw [List.length_set]
    exact h.count
  short e he := by
    rcases List.mem_or_eq_of_mem_set he with he | rfl
    · exact h.short e he
    · exact hshort
  varied e he := by
    rcases List.mem_or_eq_of_mem_set he with he | rfl
    · exact h.varied e he
    · exact hvaried
  different := by
    obtain ⟨-, -, -, hdifferent⟩ := h
    induction l generalizing i with
    | nil => simp
    | cons f l ih =>
      obtain ⟨hhead, htail⟩ := List.pairwise_cons.mp hdifferent
      obtain ⟨hf, hl⟩ := List.forall_mem_cons.mp hnew
      cases i with
      | zero =>
        rw [List.set_cons_zero]
        exact List.pairwise_cons.mpr ⟨fun e he hsame => hl e he hsame.symm, htail⟩
      | succ i =>
        rw [List.set_cons_succ]
        refine List.pairwise_cons.mpr ⟨?_, ih i hl htail⟩
        intro e he
        rcases List.mem_or_eq_of_mem_set he with he | rfl
        · exact hhead e he
        · exact hf

/-- A token that is there is only counted. A new one is appended or takes the place of another. -/
theorem tokens_enter (rnd : ℕ) (mem : List Byte) (l : List AutoExtraData) :
    tokens (enter rnd mem l) = tokens l ∨
      (∀ e ∈ tokens l, ¬ SameToken e mem) ∧
        (l.length < maxAutoExtras ∧ tokens (enter rnd mem l) = tokens l ++ [mem] ∨
          ∃ i, tokens (enter rnd mem l) = (tokens l).set i mem) := by
  rw [enter]
  cases hfound : l.findIdx? (AutoExtraData.isToken mem) with
  | some i =>
    left
    refine List.ext_getElem? fun j => ?_
    simp only [tokens, List.getElem?_map, List.getElem?_modify]
    cases l[j]? with
    | none => rfl
    | some e => by_cases hj : i = j <;> simp [hj]
  | none =>
    right
    constructor
    · intro e he
      obtain ⟨f, hf, rfl⟩ := List.mem_map.mp he
      have hnot := List.findIdx?_eq_none_iff.mp hfound f hf
      rw [← isToken_iff, hnot]
      exact Bool.false_ne_true
    · dsimp only
      split_ifs with hroom
      · exact Or.inl ⟨hroom, by simp [tokens]⟩
      · exact Or.inr ⟨_, List.map_set⟩

theorem mem_tokens_enter {token : List Byte} (h : token ∈ tokens (enter rnd mem l)) :
    token ∈ tokens l ∨ token = mem := by
  rcases tokens_enter rnd mem l with heq | ⟨-, ⟨-, heq⟩ | ⟨i, heq⟩⟩
  · rw [heq] at h
    exact Or.inl h
  · rw [heq, List.mem_append, List.mem_singleton] at h
    exact h
  · rw [heq] at h
    exact List.mem_or_eq_of_mem_set h

theorem sortAutoExtras_perm (q : Qsort) (l : List AutoExtraData) :
    (sortAutoExtras q l).Perm l := by
  rw [sortAutoExtras]
  refine ((q.perm _ _).append_right _).trans ?_
  rw [List.take_append_drop]
  exact q.perm _ _

theorem tokens_sortAutoExtras (q : Qsort) (l : List AutoExtraData) :
    (tokens (sortAutoExtras q l)).Perm (tokens l) :=
  (sortAutoExtras_perm q l).map _

/-- The invariant of the tables. -/
structure State.Inv (s : State) : Prop where
  extras : ExtrasSorted s.extras
  tokens : TokensInv (tokens s.aExtras)
  bySize : (s.aExtras.take (min useAutoExtras s.aExtras.length)).Pairwise
    (fun e f => e.data.length ≤ f.data.length)

theorem sortAutoExtras_bySize (h : ∀ e ∈ tokens l, e.length ≤ maxAutoExtra) :
    ((sortAutoExtras q l).take (min useAutoExtras (sortAutoExtras q l).length)).Pairwise
      (fun e f => e.data.length ≤ f.data.length) := by
  have hconst : maxAutoExtra < 2 ^ 31 := by decide
  rw [sortAutoExtras]
  set byUse := q.sort compareAutoExtrasUseD l
  set top := min useAutoExtras byUse.length
  have hle : top ≤ byUse.length := min_le_right _ _
  have hfront : (q.sort compareAutoExtrasLen (byUse.take top)).length = top := by
    rw [Qsort.length_sort, List.length_take, min_eq_left hle]
  have htotal : (q.sort compareAutoExtrasLen (byUse.take top) ++ byUse.drop top).length =
      byUse.length := by
    rw [List.length_append, hfront, List.length_drop, Nat.add_sub_cancel' hle]
  rw [htotal, List.take_left' hfront]
  have hshort : ∀ e ∈ byUse.take top, e.data.length < 2 ^ 31 := by
    intro e he
    have hmem : e ∈ l := Qsort.mem_sort.mp (List.mem_of_mem_take he)
    exact (h e.data (List.mem_map_of_mem hmem)).trans_lt hconst
  have hkey := q.ordered compareAutoExtrasLen (fun e => (e.data.length : ℤ)) (byUse.take top)
    (fun e he f hf => u32_sub_toInt (hshort e he) (hshort f hf))
  exact hkey.imp (fun h => by exact_mod_cast h)

theorem enter_inv (h : TokensInv (tokens l)) (hshort : mem.length ≤ maxAutoExtra)
    (hvaried : ¬ OneByte mem) : TokensInv (tokens (enter rnd mem l)) := by
  rcases tokens_enter rnd mem l with heq | ⟨hnew, ⟨hroom, heq⟩ | ⟨i, heq⟩⟩
  · rwa [heq]
  · rw [heq]
    exact h.append (by simpa [tokens] using hroom) hshort hvaried hnew
  · rw [heq]
    exact h.set i hshort hvaried hnew

/-- A call returns early or goes on with a varied short token that is not one of the user's. -/
theorem maybeAddAuto_cases (q : Qsort) (rnd : ℕ) (mem : List Byte) (h : ExtrasSorted s.extras) :
    s.maybeAddAuto q rnd mem = s ∨
      mem.length ≤ maxAutoExtra ∧ ¬ OneByte mem ∧ (∀ e ∈ s.extras, ¬ SameToken e mem) ∧
        s.maybeAddAuto q rnd mem = { s with
          autoChanged := true, aExtras := sortAutoExtras q (enter rnd mem s.aExtras) } := by
  rw [State.maybeAddAuto]
  split_ifs with hoff hskip hbuiltin hmatch
  · exact Or.inl rfl
  · exact Or.inl rfl
  · exact Or.inl rfl
  · exact Or.inl rfl
  · right
    push Not at hskip
    refine ⟨hskip.2, fun hone => hskip.1 (runEnd_of_oneByte hone), ?_, rfl⟩
    intro e he hsame
    exact hmatch ((matchesExtra_iff h).mpr ⟨e, he, hsame⟩)

theorem maybeAddAuto_inv (h : s.Inv) (rnd : ℕ) (mem : List Byte) :
    (s.maybeAddAuto q rnd mem).Inv := by
  rcases maybeAddAuto_cases q rnd mem h.extras with heq | ⟨hshort, hvaried, -, heq⟩
  · rwa [heq]
  · have hentered : TokensInv (tokens (enter rnd mem s.aExtras)) :=
      enter_inv h.tokens hshort hvaried
    rw [heq]
    exact ⟨h.extras, hentered.perm (tokens_sortAutoExtras q _),
      sortAutoExtras_bySize hentered.short⟩

theorem extrasCheckAndSort_aExtras : (s.extrasCheckAndSort q).aExtras = s.aExtras := by
  rw [State.extrasCheckAndSort]
  split_ifs <;> rfl

/-- Only `maybe_add_auto` changes the automatic tokens. -/
theorem step_aExtras (s : State) {action : Action} (h : ∀ rnd mem, action ≠ .maybeAddAuto rnd mem) :
    (s.step q action).aExtras = s.aExtras := by
  cases action with
  | loadFile dictLevel file => exact extrasCheckAndSort_aExtras
  | loadDir files => exact extrasCheckAndSort_aExtras
  | addExtra mem =>
    rw [State.step, State.addExtra]
    split_ifs <;> rfl
  | deunicode =>
    rw [State.step, State.deunicodeExtras]
    split_ifs <;> rfl
  | dedup => rfl
  | maybeAddAuto rnd mem => exact absurd rfl (h rnd mem)

theorem step_inv (h : s.Inv) (action : Action) : (s.step q action).Inv := by
  by_cases hauto : ∃ rnd mem, action = .maybeAddAuto rnd mem
  · obtain ⟨rnd, mem, rfl⟩ := hauto
    exact maybeAddAuto_inv h rnd mem
  · push Not at hauto
    have heq : (s.step q action).aExtras = s.aExtras := step_aExtras s hauto
    exact ⟨step_extras h.extras action, heq ▸ h.tokens, heq ▸ h.bySize⟩

theorem init_inv : init.Inv where
  extras := ⟨List.Pairwise.nil, by simp [init]⟩
  tokens := ⟨by simp [tokens, init], by simp [tokens, init], by simp [tokens, init],
    List.Pairwise.nil⟩
  bySize := List.Pairwise.nil

theorem run_inv (h : s.Inv) (actions : List Action) : (s.run q actions).Inv := by
  induction actions generalizing s with
  | nil => exact h
  | cons action actions ih => exact ih (step_inv h action)

/-- What a call enters is the given token, and only after the comparison with the user's. -/
theorem maybeAddAuto_inserted (h : s.Inv) {e : AutoExtraData}
    (he : e ∈ (s.maybeAddAuto q rnd mem).aExtras) (hnew : ∀ f ∈ s.aExtras, f.data ≠ e.data) :
    ∀ x ∈ s.extras, ¬ SameToken x e.data := by
  have hold : e.data ∉ tokens s.aExtras := by
    intro hmem
    obtain ⟨f, hf, heq⟩ := List.mem_map.mp hmem
    exact hnew f hf heq
  rcases maybeAddAuto_cases q rnd mem h.extras with heq | ⟨-, -, huser, heq⟩
  · rw [heq] at he
    exact absurd rfl (hnew e he)
  · rw [heq] at he
    have hdata : e.data ∈ tokens (enter rnd mem s.aExtras) :=
      (tokens_sortAutoExtras q _).subset (List.mem_map_of_mem he)
    have hmem : e.data = mem := (mem_tokens_enter hdata).resolve_left hold
    rwa [hmem]

theorem run_autoExtras (q : Qsort) (actions : List Action) :
    (init.run q actions).aExtras.length ≤ maxAutoExtras ∧
    (∀ e ∈ (init.run q actions).aExtras, e.data.length ≤ maxAutoExtra ∧ ¬ OneByte e.data) ∧
    (init.run q actions).aExtras.Pairwise (fun e f => ¬ SameToken e.data f.data) ∧
    ((init.run q actions).aExtras.take
      (min useAutoExtras (init.run q actions).aExtras.length)).Pairwise
        (fun e f => e.data.length ≤ f.data.length) ∧
    ∀ rnd mem, ∀ e ∈ ((init.run q actions).maybeAddAuto q rnd mem).aExtras,
      (∀ f ∈ (init.run q actions).aExtras, f.data ≠ e.data) →
        ∀ x ∈ (init.run q actions).extras, ¬ SameToken x e.data := by
  have h : (init.run q actions).Inv := run_inv init_inv actions
  refine ⟨?_, ?_, List.pairwise_map.mp h.tokens.different, h.bySize, ?_⟩
  · simpa [tokens] using h.tokens.count
  · intro e he
    have hdata : e.data ∈ tokens (init.run q actions).aExtras := List.mem_map_of_mem he
    exact ⟨h.tokens.short _ hdata, h.tokens.varied _ hdata⟩
  · exact fun rnd mem e he hnew => maybeAddAuto_inserted h he hnew

end AflPlusPlus.AutoExtras
