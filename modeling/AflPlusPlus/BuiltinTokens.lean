import AflPlusPlus.AutoExtrasSpec
import AflPlusPlus.DeterministicStagesArith

/-!
# Automatic tokens that the stages try anyway

A token of two or four bytes is not entered when it is one of the interesting values in either
byte order. The comparison of two bytes promotes them to an `int` that is never negative: of the
negative values only one is neither found with its bytes swapped nor a run of one byte.
-/

namespace AflPlusPlus.AutoExtras
open ByteWords ByteBuffers CStrings DeterministicStages DictionaryFiles Qsorts

variable {q : Qsort} {s : State} {mem : List Byte} {l : List AutoExtraData} {rnd : ℕ}

/-- The table for tokens of a length. -/
def builtinValues (len : ℕ) : List ℤ :=
  if len = 2 then interesting16 else if len = 4 then interesting32 else []

/-- The value of the token, read in one of the byte orders, is an interesting one. -/
def DuplicatesBuiltin (mem : List Byte) : Prop :=
  ∃ be, (inOrder be (loadAt mem.length mem 0)).toInt ∈ builtinValues mem.length

instance (mem : List Byte) : Decidable (DuplicatesBuiltin mem) :=
  inferInstanceAs (Decidable (∃ _, _))

/-! ## The comparisons -/

/-- Minus 128 in the byte order of the machine. -/
def missed : List Byte := [0x80, 0xff]

/-- Each other negative value has a sibling in the table with the swapped bytes. -/
theorem builtin16_ofInt : ∀ v ∈ interesting16, v ≠ -128 → builtin16 (BitVec.ofInt 16 v) = true := by
  decide +kernel

theorem eq_ofInt {n : ℕ} {x : BitVec n} {v : ℤ} (h : x.toInt = v) : x = BitVec.ofInt n v := by
  rw [← h, BitVec.ofInt_toInt]

theorem builtin16_of_toInt {x : Word 2} {be : Bool} (h : (inOrder be x).toInt ∈ interesting16)
    (hx : x ≠ 0xff80) : builtin16 x = true := by
  cases be with
  | false =>
    have hword : x = BitVec.ofInt 16 x.toInt := eq_ofInt rfl
    rw [hword]
    refine builtin16_ofInt _ h fun hv => hx ?_
    rw [hword, hv]
    rfl
  | true =>
    rw [builtin16, List.any_eq_true]
    refine ⟨_, h, decide_eq_true (Or.inr ?_)⟩
    rw [swap16_eq, ← eq_ofInt rfl]
    exact (revWord_revWord x).symm

theorem builtin32_of_toInt {x : Word 4} {be : Bool} (h : (inOrder be x).toInt ∈ interesting32) :
    builtin32 x = true := by
  rw [builtin32, List.any_eq_true]
  refine ⟨_, h, decide_eq_true ?_⟩
  cases be with
  | false => exact Or.inl (eq_ofInt rfl)
  | true =>
    right
    rw [swap32_eq, ← eq_ofInt rfl]
    exact (revWord_revWord x).symm

theorem loadAt_missed (hlen : mem.length = 2) (h : loadAt 2 mem 0 = 0xff80) : mem = missed := by
  have hbyte : ∀ j < 2, byteAt mem j = byteOf (0xff80 : Word 2) j := by
    intro j hj
    rw [← h, byteOf_loadAt hj, Nat.zero_add]
  refine buffer_ext hlen fun p hp => ?_
  rw [hlen] at hp
  rw [hbyte p hp]
  revert p
  decide

theorem isBuiltin_of_duplicates (h : DuplicatesBuiltin mem) (hmem : mem ≠ missed) :
    isBuiltin mem = true := by
  obtain ⟨be, h⟩ := h
  rw [isBuiltin, Bool.or_eq_true, Bool.and_eq_true, Bool.and_eq_true]
  rw [builtinValues] at h
  split_ifs at h with h2 h4
  · left
    refine ⟨decide_eq_true h2, ?_⟩
    rw [h2] at h
    exact builtin16_of_toInt h fun hx => hmem (loadAt_missed h2 hx)
  · right
    refine ⟨decide_eq_true h4, ?_⟩
    rw [h4] at h
    exact builtin32_of_toInt h
  · exact absurd h (List.not_mem_nil)

/-! ## What is entered -/

theorem maybeAddAuto_missed (h : matchesExtra s.extras missed = false) :
    s.maybeAddAuto q rnd missed = { s with
      autoChanged := true, aExtras := sortAutoExtras q (enter rnd missed s.aExtras) } := by
  have hvaried : ¬ (runEnd missed = missed.length ∨ missed.length > maxAutoExtra) := by decide
  have hbuiltin : isBuiltin missed = false := by decide +kernel
  rw [State.maybeAddAuto, if_neg (by decide), if_neg hvaried, hbuiltin, h]
  rfl

/-- Either the count of one entry goes up, or the token becomes an entry. -/
theorem enter_cases (rnd : ℕ) (mem : List Byte) (l : List AutoExtraData) :
    (∃ front e back, l = front ++ e :: back ∧ SameToken e.data mem ∧
      enter rnd mem l = front ++ { e with hitCnt := e.hitCnt + 1 } :: back) ∨
    (∀ e ∈ l, ¬ SameToken e.data mem) ∧ ⟨mem, 0⟩ ∈ enter rnd mem l := by
  rw [enter]
  cases hfound : l.findIdx? (AutoExtraData.isToken mem) with
  | some i =>
    left
    obtain ⟨hi, htoken, -⟩ := List.findIdx?_eq_some_iff_getElem.mp hfound
    refine ⟨l.take i, l[i], l.drop (i + 1), ?_, isToken_iff.mp htoken, ?_⟩
    · rw [List.cons_getElem_drop_succ, List.take_append_drop]
    · exact List.modify_eq_take_cons_drop hi
  | none =>
    right
    constructor
    · intro e he hsame
      have hnot := List.findIdx?_eq_none_iff.mp hfound e he
      rw [isToken_iff.mpr hsame] at hnot
      exact absurd hnot (by decide)
    · dsimp only
      split_ifs with hroom
      · simp
      · have hslot : maxAutoExtras / 2 + randBelow rnd ((maxAutoExtras + 1) / 2) < l.length := by
          have hhalves : maxAutoExtras / 2 + (maxAutoExtras + 1) / 2 = maxAutoExtras := by decide
          have hrand : randBelow rnd ((maxAutoExtras + 1) / 2) < (maxAutoExtras + 1) / 2 := by
            rw [randBelow, if_neg (by decide)]
            exact Nat.mod_lt _ (by decide)
          omega
        exact List.mem_set hslot _

/-- A call that comes to the table changes it: one count, or the tokens. -/
theorem enter_not_perm : ¬ (enter rnd mem l).Perm l := by
  intro hperm
  rcases enter_cases rnd mem l with ⟨front, e, back, hl, -, henter⟩ | ⟨hnew, hmem⟩
  · rw [henter, hl] at hperm
    have hsum := (hperm.map AutoExtraData.hitCnt).sum_eq
    simp only [List.map_append, List.map_cons, List.sum_append, List.sum_cons] at hsum
    have hcount : e.hitCnt + 1 = e.hitCnt := add_right_cancel (add_left_cancel hsum)
    exact absurd (add_eq_left.mp hcount) (by decide)
  · exact hnew _ (hperm.subset hmem) rfl

theorem missed_entered : missed ∈ tokens (enter rnd missed l) := by
  rcases enter_cases rnd missed l with ⟨front, e, back, -, hsame, henter⟩ | ⟨-, hmem⟩
  · have hdata : e.data = missed := by
      have hlower : ∀ b : Byte, (tolower b = tolower 0x80 → b = 0x80) ∧
          (tolower b = tolower 0xff → b = 0xff) := by
        decide
      have hlen : e.data.length = 2 := hsame.length_eq
      obtain ⟨b, c, hbc⟩ := List.length_eq_two.mp hlen
      rw [hbc, SameToken, missed] at hsame
      simp only [List.map_cons, List.map_nil, List.cons.injEq, and_true] at hsame
      rw [hbc, (hlower b).1 hsame.1, (hlower c).2 hsame.2]
      rfl
    rw [henter, tokens, List.map_append, List.map_cons]
    simp [hdata]
  · exact List.mem_map_of_mem hmem

/-- The call returns before it comes to the table. -/
def Rejects (q : Qsort) (rnd : ℕ) (s : State) (mem : List Byte) : Prop :=
  s.maybeAddAuto q rnd mem = s

theorem rejects_of_duplicates (h : DuplicatesBuiltin mem) (hmem : mem ≠ missed) :
    Rejects q rnd s mem := by
  rw [Rejects, State.maybeAddAuto]
  split_ifs with hoff hskip hbuiltin hmatch
  · rfl
  · rfl
  · rfl
  · rfl
  · exact absurd (isBuiltin_of_duplicates h hmem) hbuiltin

theorem rejects_missed_iff :
    Rejects q rnd s missed ↔ matchesExtra s.extras missed = true := by
  constructor
  · intro h
    by_contra hmatch
    rw [Rejects, maybeAddAuto_missed (Bool.eq_false_of_not_eq_true hmatch)] at h
    have htable : sortAutoExtras q (enter rnd missed s.aExtras) = s.aExtras :=
      congrArg State.aExtras h
    have hperm := sortAutoExtras_perm q (enter rnd missed s.aExtras)
    rw [htable] at hperm
    exact enter_not_perm hperm.symm
  · intro h
    rw [Rejects, State.maybeAddAuto]
    split_ifs with hoff hskip hbuiltin
    · rfl
    · rfl
    · rfl
    · rfl

theorem duplicates_missed : DuplicatesBuiltin missed := by
  decide +kernel

theorem rejects_iff : (DuplicatesBuiltin mem → Rejects q rnd s mem) ↔
    (mem = missed → matchesExtra s.extras missed = true) := by
  constructor
  · rintro h rfl
    exact rejects_missed_iff.mp (h duplicates_missed)
  · intro h hbuiltin
    by_cases hmem : mem = missed
    · rw [hmem]
      exact rejects_missed_iff.mpr (h hmem)
    · exact rejects_of_duplicates hbuiltin hmem

/-! ## Runs -/

/-- No automatic token duplicates an interesting value. -/
def NoBuiltins (s : State) : Prop := ∀ token ∈ tokens s.aExtras, ¬ DuplicatesBuiltin token

theorem maybeAddAuto_of_not_rejects (h : ¬ Rejects q rnd s mem) :
    s.maybeAddAuto q rnd mem = { s with
      autoChanged := true, aExtras := sortAutoExtras q (enter rnd mem s.aExtras) } := by
  rw [Rejects, State.maybeAddAuto] at h
  rw [State.maybeAddAuto]
  split_ifs at h ⊢
  · exact absurd rfl h
  · exact absurd rfl h
  · exact absurd rfl h
  · exact absurd rfl h
  · rfl

theorem tokens_maybeAddAuto {token : List Byte}
    (h : token ∈ tokens (s.maybeAddAuto q rnd mem).aExtras) :
    token ∈ tokens s.aExtras ∨ token = mem ∧ ¬ Rejects q rnd s mem := by
  by_cases hreject : Rejects q rnd s mem
  · rw [Rejects] at hreject
    rw [hreject] at h
    exact Or.inl h
  · rw [maybeAddAuto_of_not_rejects hreject] at h
    rcases mem_tokens_enter ((tokens_sortAutoExtras q _).mem_iff.mp h) with hold | rfl
    · exact Or.inl hold
    · exact Or.inr ⟨rfl, hreject⟩

theorem step_noBuiltins (h : NoBuiltins s) {action : Action}
    (hmissed : ∀ rnd, action = .maybeAddAuto rnd missed → matchesExtra s.extras missed = true) :
    NoBuiltins (s.step q action) := by
  by_cases hauto : ∃ rnd mem, action = .maybeAddAuto rnd mem
  · obtain ⟨rnd, mem, rfl⟩ := hauto
    intro token htoken
    rcases tokens_maybeAddAuto htoken with hold | ⟨rfl, hentered⟩
    · exact h token hold
    · intro hbuiltin
      refine hentered (rejects_iff.mpr ?_ hbuiltin)
      rintro rfl
      exact hmissed rnd rfl
  · push Not at hauto
    rw [NoBuiltins, step_aExtras s hauto]
    exact h

theorem run_concat (s : State) (run : List Action) (action : Action) :
    s.run q (run ++ [action]) = (s.run q run).step q action := by
  rw [State.run, State.run, List.foldl_append, List.foldl_cons, List.foldl_nil]

theorem run_noBuiltins_iff {actions : List Action} :
    (∀ run, run <+: actions → NoBuiltins (init.run q run)) ↔
      ∀ run rnd, run ++ [.maybeAddAuto rnd missed] <+: actions →
        matchesExtra (init.run q run).extras missed = true := by
  constructor
  · intro h run rnd hrun
    by_contra hmatch
    have hentered := h _ hrun missed
    rw [run_concat, State.step, maybeAddAuto_missed (Bool.eq_false_of_not_eq_true hmatch)]
      at hentered
    exact hentered ((tokens_sortAutoExtras q _).mem_iff.mpr missed_entered) duplicates_missed
  · intro h run
    induction run using List.reverseRecOn with
    | nil =>
      intro _ token htoken
      exact absurd htoken (by simp [State.run, init, tokens])
    | append_singleton run action ih =>
      intro hrun
      rw [run_concat]
      refine step_noBuiltins (ih ((List.prefix_append _ _).trans hrun)) ?_
      rintro rnd rfl
      exact h run rnd hrun

theorem maybeAddAuto_builtins_iff (q : Qsort) :
    (∀ (s : State) rnd mem, (DuplicatesBuiltin mem → s.maybeAddAuto q rnd mem = s) ↔
      (mem = missed → matchesExtra s.extras missed = true)) ∧
    ∀ actions, (∀ run, run <+: actions → ∀ e ∈ (init.run q run).aExtras,
        ¬ DuplicatesBuiltin e.data) ↔
      ∀ run rnd, run ++ [.maybeAddAuto rnd missed] <+: actions →
        matchesExtra (init.run q run).extras missed = true := by
  constructor
  · intro s rnd mem
    exact rejects_iff
  · intro actions
    rw [← run_noBuiltins_iff]
    simp only [NoBuiltins, tokens, List.forall_mem_map]

theorem minus128_entered : DuplicatesBuiltin [0x80, 0xff] ∧
    ∀ q : Qsort, init.maybeAddAuto q 0 [0x80, 0xff] ≠ init :=
  ⟨duplicates_missed, fun _ h => absurd (rejects_missed_iff.mp h) (by decide)⟩

end AflPlusPlus.AutoExtras
