import AflPlusPlus.AutoExtrasSpec

/-!
# Duplicates among the user's tokens

`dedup_extras` takes duplicates out of the array in place, while it walks along it. Its accesses
are checked here. It makes of a sorted array the same tokens in the same order, each of them once.
-/

namespace AflPlusPlus.AutoExtras
open ByteWords DictionaryFiles Qsorts

/-! ## The loops over the array -/

/-- The inner loop for the token at `i`, from `j` on: the tokens behind a duplicate are moved down
over it. -/
def dedupFrom (i : ℕ) : ℕ → ℕ → List (List Byte) → Option (List (List Byte))
  | 0, _, _ => none
  | fuel + 1, j, extras =>
    if j ≥ extras.length then some extras
    else do
      let e ← extras[i]?
      let f ← extras[j]?
      if e.length ≠ f.length then some extras
      else if e = f then dedupFrom i fuel j (extras.eraseIdx j)
      else dedupFrom i fuel (j + 1) extras

/-- The outer loop, from `i` on. -/
def dedupLoop : ℕ → ℕ → List (List Byte) → Option (List (List Byte))
  | 0, _, _ => none
  | fuel + 1, i, extras =>
    if i < extras.length - 1 then do
      let extras ← dedupFrom i (extras.length + 1) (i + 1) extras
      dedupLoop fuel (i + 1) extras
    else some extras

/-- The array after the call. There is none when an access is outside of it, or a loop takes more
rounds than the array has tokens. -/
def dedupExtras (extras : List (List Byte)) : Option (List (List Byte)) :=
  if extras.length < 2 then some extras else dedupLoop (extras.length + 1) 0 extras

/-- The inner loop walks along the tokens behind the part that is done. -/
theorem dedupFrom_eq {i fuel : ℕ} {e : List Byte} {done extras : List (List Byte)}
    (hi : done[i]? = some e) (hfuel : extras.length < fuel) :
    dedupFrom i fuel done.length (done ++ extras) = some (done ++ dedupAgainst e extras) := by
  induction fuel generalizing done extras with
  | zero => exact absurd hfuel (Nat.not_lt_zero _)
  | succ fuel ih =>
    have hlt : i < done.length := (List.getElem?_eq_some_iff.mp hi).1
    rw [dedupFrom]
    cases extras with
    | nil => simp [dedupAgainst]
    | cons f extras =>
      have hj : ¬done.length ≥ (done ++ f :: extras).length := by simp
      rw [if_neg hj, List.getElem?_append_left hlt, hi, List.getElem?_append_right le_rfl,
        Nat.sub_self, dedupAgainst]
      simp only [List.getElem?_cons_zero, Option.bind_eq_bind, Option.bind_some]
      split
      · rfl
      · split
        · rw [List.eraseIdx_append_of_length_le le_rfl, Nat.sub_self, List.eraseIdx_cons_zero]
          exact ih hi (by simpa using hfuel)
        · have hdone : (done ++ [f])[i]? = some e := by rw [List.getElem?_append_left hlt, hi]
          have hrest := ih hdone (by simpa using hfuel)
          rw [List.length_append, List.append_assoc, List.append_assoc] at hrest
          exact hrest

theorem dedupLoop_eq {fuel : ℕ} (done : List (List Byte)) {extras : List (List Byte)}
    (hfuel : extras.length < fuel) :
    dedupLoop fuel done.length (done ++ extras) = some (done ++ dedup extras) := by
  induction fuel generalizing done extras with
  | zero => exact absurd hfuel (Nat.not_lt_zero _)
  | succ fuel ih =>
    rw [dedupLoop]
    cases extras with
    | nil =>
      rw [if_neg (by simp), dedup]
    | cons e extras =>
      rw [dedup]
      split
      · next hi =>
        have hinner : ∀ n, extras.length < n →
            dedupFrom done.length n (done.length + 1) (done ++ e :: extras) =
              some (done ++ e :: dedupAgainst e extras) := by
          intro n hn
          have hdone : (done ++ [e])[done.length]? = some e := by simp
          have hwalk := dedupFrom_eq hdone hn
          rw [List.length_append, List.append_assoc, List.append_assoc] at hwalk
          exact hwalk
        have hshort := (dedupAgainst_sublist e extras).length_le
        have hless : (dedupAgainst e extras).length < fuel := by
          rw [List.length_cons] at hfuel
          omega
        have houter := ih (done ++ [e]) hless
        rw [List.length_append, List.append_assoc, List.append_assoc] at houter
        rw [hinner _ (by simp; omega)]
        exact houter
      · next hi =>
        have hnil : extras = [] := by
          rw [List.length_append, List.length_cons] at hi
          exact List.length_eq_zero_iff.mp (by omega)
        rw [hnil, dedupAgainst, dedup]

/-- The loops end, access the array only where it has tokens, and compute `dedup`. -/
theorem dedupExtras_eq (extras : List (List Byte)) : dedupExtras extras = some (dedup extras) := by
  rw [dedupExtras]
  split
  · next hshort =>
    match extras, hshort with
    | [], _ => rw [dedup]
    | [e], _ => rw [dedup, dedupAgainst, dedup]
  · exact dedupLoop_eq [] (Nat.lt_succ_self _)

/-! ## What is left -/

/-- In an array that is sorted by length the walk takes away every duplicate. -/
theorem mem_dedupAgainst {e f : List Byte} {extras : List (List Byte)}
    (hsorted : (e :: extras).Pairwise fun a b => a.length ≤ b.length) :
    f ∈ dedupAgainst e extras ↔ f ∈ extras ∧ f ≠ e := by
  induction extras with
  | nil => simp [dedupAgainst]
  | cons g extras ih =>
    have htail : (e :: extras).Pairwise fun a b => a.length ≤ b.length :=
      hsorted.sublist ((List.sublist_cons_self g extras).cons_cons e)
    rw [dedupAgainst]
    split
    · next hlen =>
      -- Longer tokens follow, so none of them is the same.
      constructor
      · intro hf
        refine ⟨hf, ?_⟩
        rintro rfl
        have hle := (List.pairwise_cons.mp hsorted).1 g List.mem_cons_self
        have hge : ∀ h ∈ g :: extras, g.length ≤ h.length := by
          intro h hh
          obtain rfl | hh := List.mem_cons.mp hh
          · exact le_rfl
          · exact (List.pairwise_cons.mp (List.pairwise_cons.mp hsorted).2).1 h hh
        exact hlen (hle.antisymm (hge f hf))
      · exact And.left
    · split
      · next heq =>
        rw [ih htail, heq]
        constructor
        · rintro ⟨hf, hne⟩
          exact ⟨List.mem_cons_of_mem g hf, hne⟩
        · rintro ⟨hf, hne⟩
          exact ⟨(List.mem_cons.mp hf).resolve_left hne, hne⟩
      · next hne =>
        rw [List.mem_cons, List.mem_cons, ih htail]
        constructor
        · rintro (rfl | ⟨hf, hfe⟩)
          · exact ⟨.inl rfl, fun heq => hne heq.symm⟩
          · exact ⟨.inr hf, hfe⟩
        · rintro ⟨rfl | hf, hfe⟩
          · exact .inl rfl
          · exact .inr ⟨hf, hfe⟩

/-- One copy of each token is left. -/
theorem dedup_nodup {extras : List (List Byte)}
    (hsorted : extras.Pairwise fun a b => a.length ≤ b.length) :
    (dedup extras).Nodup ∧ ∀ e, e ∈ dedup extras ↔ e ∈ extras := by
  induction extras using dedup.induct with
  | case1 => simp [dedup]
  | case2 e extras ih =>
    have hagainst := dedupAgainst_sublist e extras
    obtain ⟨hnodup, hmem⟩ := ih ((List.pairwise_cons.mp hsorted).2.sublist hagainst)
    rw [dedup]
    constructor
    · rw [List.nodup_cons, hmem, mem_dedupAgainst hsorted]
      exact ⟨fun h => h.2 rfl, hnodup⟩
    · intro f
      rw [List.mem_cons, List.mem_cons, hmem, mem_dedupAgainst hsorted]
      constructor
      · rintro (rfl | ⟨hf, -⟩)
        · exact .inl rfl
        · exact .inr hf
      · rintro (rfl | hf)
        · exact .inl rfl
        · by_cases hfe : f = e
          · exact .inl hfe
          · exact .inr ⟨hf, hfe⟩

/-! ## Additions -/

/-- The tokens are sorted by length, and no token is there twice. -/
structure Tidy (extras : List (List Byte)) : Prop extends ExtrasSorted extras where
  nodup : extras.Nodup

theorem Tidy.dedup {extras : List (List Byte)} (h : ExtrasSorted extras) :
    Tidy (AutoExtras.dedup extras) :=
  ⟨h.sublist (dedup_sublist extras), (dedup_nodup h.sorted).1⟩

/-- The walk of `add_extra` stops behind the tokens of the length of the new one, so it needs the
order to find it. -/
theorem isPresent_iff {mem : List Byte} {found : Bool} {extras : List (List Byte)}
    (hsorted : extras.Pairwise fun a b => a.length ≤ b.length)
    (hfound : found = true → ∀ e ∈ extras, mem.length ≤ e.length) :
    isPresent mem found extras = true ↔ mem ∈ extras := by
  induction extras generalizing found with
  | nil => simp [isPresent]
  | cons e extras ih =>
    obtain ⟨hle, htail⟩ := List.pairwise_cons.mp hsorted
    rw [isPresent, List.mem_cons]
    split
    · next hlen =>
      split
      · next heq => exact iff_of_true rfl (.inl heq.symm)
      · next hne =>
        rw [ih htail fun _ f hf => hlen.ge.trans (hle f hf)]
        exact (or_iff_right fun heq => hne heq.symm).symm
    · next hlen =>
      have hne : mem ≠ e := fun heq => hlen (congrArg List.length heq).symm
      split
      · next hbehind =>
        have hlt : mem.length < e.length :=
          lt_of_le_of_ne (hfound hbehind e List.mem_cons_self) fun heq => hlen heq.symm
        refine iff_of_false Bool.false_ne_true ?_
        rintro (heq | hmem)
        · exact hne heq
        · exact absurd (hle mem hmem) (Nat.not_le.mpr hlt)
      · next hbefore =>
        rw [ih htail fun h => absurd h hbefore]
        exact (or_iff_right hne).symm

variable {q : Qsort} {s : State}

theorem Tidy.sort {extras : List (List Byte)} (h : Tidy extras) :
    Tidy (q.sort compareExtrasLen extras) :=
  ⟨ExtrasSorted.sort h.small, (q.perm compareExtrasLen extras).nodup_iff.mpr h.nodup⟩

/-- A new token is added, unless it is too big. -/
theorem Tidy.addExtra (h : Tidy s.extras) (mem : List Byte) : Tidy (s.addExtra q mem).extras ∧
    ∀ e, e ∈ (s.addExtra q mem).extras ↔ e ∈ s.extras ∨ e = mem ∧ e.length ≤ maxDictFile := by
  have hpresent : isPresent mem false s.extras = true ↔ mem ∈ s.extras :=
    isPresent_iff h.sorted fun hfound => absurd hfound Bool.false_ne_true
  rw [State.addExtra]
  split
  · next hfound =>
    refine ⟨h, fun e => (or_iff_left_of_imp ?_).symm⟩
    rintro ⟨rfl, -⟩
    exact hpresent.mp hfound
  · next hnew =>
    split
    · next hbig =>
      refine ⟨h, fun e => (or_iff_left_of_imp ?_).symm⟩
      rintro ⟨rfl, hsmall⟩
      exact absurd hsmall (Nat.not_le.mpr hbig)
    · next hsmall =>
      have hmem : mem ∉ s.extras := fun hmem => hnew (hpresent.mpr hmem)
      constructor
      · constructor
        · apply ExtrasSorted.sort
          exact List.forall_mem_append.mpr ⟨h.small, by simpa using hsmall⟩
        · apply (q.perm compareExtrasLen _).nodup_iff.mpr
          exact List.nodup_append_comm.mp (List.nodup_cons.mpr ⟨hmem, h.nodup⟩)
      · intro e
        refine Qsort.mem_sort.trans ?_
        rw [State.addExtraNocheck, List.mem_append, List.mem_singleton]
        apply or_congr_right
        constructor
        · rintro rfl
          exact ⟨rfl, Nat.not_lt.mp hsmall⟩
        · exact And.left

/-- What is done to the array: additions, and the loaders' sorting and removal of duplicates. -/
inductive Upkeep
  | addExtra (mem : List Byte)
  | checkAndSort
  | dedup
deriving DecidableEq

def State.upkeep (q : Qsort) (s : State) : Upkeep → State
  | .addExtra mem => s.addExtra q mem
  | .checkAndSort => s.extrasCheckAndSort q
  | .dedup => s.dedupExtras

theorem Tidy.upkeep (h : Tidy s.extras) (op : Upkeep) : Tidy (s.upkeep q op).extras ∧
    ∀ e, e ∈ (s.upkeep q op).extras ↔
      e ∈ s.extras ∨ op = .addExtra e ∧ e.length ≤ maxDictFile := by
  cases op with
  | addExtra mem =>
    simp only [Upkeep.addExtra.injEq, eq_comm (a := mem)]
    exact h.addExtra mem
  | checkAndSort =>
    simp only [reduceCtorEq, false_and, or_false]
    rw [State.upkeep, State.extrasCheckAndSort]
    split
    · exact ⟨h, fun e => Iff.rfl⟩
    · exact ⟨h.sort, fun e => Qsort.mem_sort⟩
  | dedup =>
    simp only [reduceCtorEq, false_and, or_false]
    exact ⟨Tidy.dedup h.toExtrasSorted, (dedup_nodup h.sorted).2⟩

theorem Tidy.run (h : Tidy s.extras) (ops : List Upkeep) :
    Tidy (ops.foldl (State.upkeep q) s).extras ∧
    ∀ e, e ∈ (ops.foldl (State.upkeep q) s).extras ↔
      e ∈ s.extras ∨ .addExtra e ∈ ops ∧ e.length ≤ maxDictFile := by
  induction ops generalizing s with
  | nil => simpa using h
  | cons op ops ih =>
    obtain ⟨htidy, hmem⟩ := h.upkeep (q := q) op
    obtain ⟨hrun, hrest⟩ := ih htidy
    refine ⟨hrun, fun e => ?_⟩
    rw [List.foldl_cons, hrest, hmem, List.mem_cons, or_assoc, ← or_and_right, eq_comm]

/-- `dedup_extras` ends, stays in the array and keeps one copy of each token in the order of their
lengths. Additions, sorting and the removal of duplicates keep an array in which each token is
once, and lose none. -/
theorem extras_tidy (q : Qsort) (s : State) (extras : List (List Byte))
    (hsorted : extras.Pairwise fun a b => a.length ≤ b.length) (h : Tidy s.extras) :
    (∃ rest, dedupExtras extras = some rest ∧ rest.Nodup ∧ (∀ e, e ∈ rest ↔ e ∈ extras) ∧
      rest.Pairwise fun a b => a.length ≤ b.length) ∧
    ∀ ops : List Upkeep, Tidy (ops.foldl (State.upkeep q) s).extras ∧
      ∀ e, e ∈ (ops.foldl (State.upkeep q) s).extras ↔
        e ∈ s.extras ∨ .addExtra e ∈ ops ∧ e.length ≤ maxDictFile := by
  constructor
  · refine ⟨dedup extras, dedupExtras_eq extras, ?_⟩
    obtain ⟨hnodup, hmem⟩ := dedup_nodup hsorted
    exact ⟨hnodup, hmem, hsorted.sublist (dedup_sublist extras)⟩
  · exact fun ops => h.run ops

/-- Duplicates that follow each other, and one at the end. -/
def twoTokens : List (List Byte) := [[1], [1], [1], [2], [1], [1, 2], [1, 2]]

theorem extras_tidy_twoTokens :
    (∃ rest, dedupExtras twoTokens = some rest ∧ rest.Nodup ∧ (∀ e, e ∈ rest ↔ e ∈ twoTokens) ∧
      rest.Pairwise fun a b => a.length ≤ b.length) ∧
    ∀ ops : List Upkeep, Tidy (ops.foldl (State.upkeep .merge) init).extras ∧
      ∀ e, e ∈ (ops.foldl (State.upkeep .merge) init).extras ↔
        e ∈ init.extras ∨ .addExtra e ∈ ops ∧ e.length ≤ maxDictFile :=
  extras_tidy .merge init twoTokens (by decide)
    ⟨⟨List.Pairwise.nil, fun e he => absurd he List.not_mem_nil⟩, List.nodup_nil⟩

end AflPlusPlus.AutoExtras
