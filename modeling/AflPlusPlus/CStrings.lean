import AflPlusPlus.ByteWords

/-!
# String comparisons of the C library

The functions of the `strcmp` and `memcmp` families walk over two arrays until they find a
difference, reach a NUL or have looked at as many characters as they were told to. Which
characters of one argument decide the result does not depend on the other argument.
-/

namespace AflPlusPlus.CStrings
open ByteWords

/-- `tolower` in the C locale. -/
def tolower (b : Byte) : Byte := if 0x41#8 ≤ b ∧ b ≤ 0x5a#8 then b ||| 0x20#8 else b

/-- The characters at the first place where the arrays differ, up to what `fold` identifies,
while neither ends. -/
def firstDifference (fold : Byte → Byte) : List Byte → List Byte → Option (Byte × Byte)
  | a :: as, b :: bs =>
    if fold a = fold b then firstDifference fold as bs else some (fold a, fold b)
  | _, _ => none

section FirstDifference
variable {fold : Byte → Byte} {x s : List Byte}

@[simp] theorem firstDifference_nil : firstDifference fold x [] = none := by
  cases x <;> rfl

theorem firstDifference_ne {d : Byte × Byte} (h : firstDifference fold x s = some d) :
    d.1 ≠ d.2 := by
  induction x generalizing s with
  | nil => exact absurd h nofun
  | cons a x ih =>
    cases s with
    | nil => exact absurd h nofun
    | cons b s =>
      rw [firstDifference] at h
      split at h
      · exact ih h
      · next hne =>
        rw [← Option.some.inj h]
        exact hne

/-- When the second array may not be the longer one, no difference means that the first one
starts with it. -/
theorem firstDifference_eq_none_iff
    (h : x.map fold <+: s.map fold → s.length ≤ x.length) :
    firstDifference fold x s = none ↔ s.map fold <+: x.map fold := by
  induction x generalizing s with
  | nil =>
    cases s with
    | nil => simp
    | cons b s => exact absurd (h List.nil_prefix) (by simp)
  | cons a x ih =>
    cases s with
    | nil => simp
    | cons b s =>
      rw [firstDifference, List.map_cons, List.map_cons, List.cons_prefix_cons]
      by_cases heq : fold a = fold b
      · rw [if_pos heq, and_iff_right heq.symm]
        refine ih fun hprefix => ?_
        have hlen := h (by simpa [heq] using hprefix)
        simpa using hlen
      · rw [if_neg heq]
        exact iff_of_false nofun fun h => heq h.1.symm

/-- A longer array makes no difference before the end of the shorter one. -/
theorem firstDifference_of_prefix {t : List Byte} {d : Byte × Byte}
    (hst : s.map fold <+: t.map fold) (h : firstDifference fold x s = some d) :
    firstDifference fold x t = some d := by
  induction x generalizing s t with
  | nil => exact absurd h nofun
  | cons a x ih =>
    cases s with
    | nil => exact absurd h nofun
    | cons b s =>
      cases t with
      | nil => simp at hst
      | cons c t =>
        rw [List.map_cons, List.map_cons, List.cons_prefix_cons] at hst
        rw [firstDifference] at h ⊢
        rw [← hst.1]
        split
        · next heq =>
          rw [if_pos heq] at h
          exact ih hst.2 h
        · next hne =>
          rw [if_neg hne] at h
          exact h

end FirstDifference

/-- A kind of comparison: whether it ends at a NUL, and what it does to characters before it
compares them. Only the NUL counts as equal to the NUL. -/
structure Comparison where
  endsAtNul : Bool
  fold : Byte → Byte
  fold_zero : ∀ b, fold b = fold 0 → b = 0

namespace Comparison

def bytes : Comparison := ⟨false, id, fun _ h => h⟩

def characters : Comparison := ⟨true, id, fun _ h => h⟩

theorem tolower_zero (b : Byte) (h : tolower b = tolower 0) : b = 0 := by
  revert b
  decide

def caseless : Comparison := ⟨true, tolower, tolower_zero⟩

/-- The comparison of two arrays, up to `limit` characters when there is a limit. There is no
result when the end of an array is passed. -/
def compare (cmp : Comparison) : Option ℕ → List Byte → List Byte → Option ℤ
  | some 0, _, _ => some 0
  | limit, a :: as, b :: bs =>
    if cmp.fold a ≠ cmp.fold b then some ((cmp.fold a).toNat - (cmp.fold b).toNat : ℤ)
    else if cmp.endsAtNul && a == 0 then some 0
    else cmp.compare (limit.map Nat.pred) as bs
  | _, _, _ => none

/-- The characters of an argument that a comparison looks at when it finds no difference. -/
def decisive (cmp : Comparison) : Option ℕ → List Byte → List Byte
  | some 0, _ => []
  | _, [] => []
  | limit, b :: bs =>
    if cmp.endsAtNul && b == 0 then [b] else b :: cmp.decisive (limit.map Nat.pred) bs

/-- An array that may be passed to a comparison: it is terminated by a NUL or long enough. -/
def Readable (cmp : Comparison) (limit : Option ℕ) (s : List Byte) : Prop :=
  (cmp.endsAtNul = true ∧ 0 ∈ s) ∨ ∃ n, limit = some n ∧ n ≤ s.length

variable {cmp : Comparison} {limit : Option ℕ} {s x : List Byte} {b : Byte}

@[simp] theorem decisive_zero : cmp.decisive (some 0) s = [] := by
  cases s <;> rfl

theorem decisive_nil : cmp.decisive limit [] = [] := by
  match limit with
  | none => rfl
  | some 0 => rfl
  | some (n + 1) => rfl

theorem decisive_cons (hlimit : limit ≠ some 0) : cmp.decisive limit (b :: s) =
    if cmp.endsAtNul && b == 0 then [b] else b :: cmp.decisive (limit.map Nat.pred) s := by
  match limit, hlimit with
  | none, _ => rfl
  | some (n + 1), _ => rfl

theorem compare_cons (hlimit : limit ≠ some 0) {c : Byte} : cmp.compare limit (b :: x) (c :: s) =
    if cmp.fold b ≠ cmp.fold c then some ((cmp.fold b).toNat - (cmp.fold c).toNat : ℤ)
    else if cmp.endsAtNul && b == 0 then some 0
    else cmp.compare (limit.map Nat.pred) x s := by
  match limit, hlimit with
  | none, _ => rfl
  | some (n + 1), _ => rfl

theorem compare_zero : cmp.compare (some 0) x s = some 0 := by
  cases x <;> cases s <;> rfl

theorem Readable.ne_nil (h : cmp.Readable limit s) (hlimit : limit ≠ some 0) : s ≠ [] := by
  rintro rfl
  rcases h with ⟨-, h⟩ | ⟨n, rfl, h⟩
  · exact List.not_mem_nil h
  · exact hlimit (congrArg some (Nat.le_zero.1 h))

/-- Behind a character that does not end the comparison the array is still readable. -/
theorem Readable.tail (h : cmp.Readable limit (b :: s)) (hb : ¬(cmp.endsAtNul && b == 0) = true) :
    cmp.Readable (limit.map Nat.pred) s := by
  rcases h with ⟨hnul, h⟩ | ⟨n, rfl, h⟩
  · refine .inl ⟨hnul, ?_⟩
    rcases List.mem_cons.1 h with h | h
    · exact absurd (by simp [hnul, ← h]) hb
    · exact h
  · refine .inr ⟨n - 1, rfl, ?_⟩
    rw [List.length_cons] at h
    omega

/-- The order of the arguments only changes the sign. -/
theorem compare_swap : cmp.compare limit s x = (cmp.compare limit x s).map (- ·) := by
  induction s generalizing limit x with
  | nil =>
    match limit, x with
    | some 0, _ => rw [compare_zero, compare_zero]; rfl
    | none, [] => rfl
    | none, _ :: _ => rfl
    | some (n + 1), [] => rfl
    | some (n + 1), _ :: _ => rfl
  | cons b s ih =>
    by_cases hlimit : limit = some 0
    · rw [hlimit, compare_zero, compare_zero]
      rfl
    · cases x with
      | nil =>
        match limit, hlimit with
        | none, _ => rfl
        | some (n + 1), _ => rfl
      | cons c x =>
        rw [compare_cons hlimit, compare_cons hlimit]
        by_cases hfold : cmp.fold b = cmp.fold c
        · have hnul : (b == 0) = (c == 0) := by
            rw [Bool.eq_iff_iff, beq_iff_eq, beq_iff_eq]
            constructor
            · intro hb
              exact cmp.fold_zero c (by rw [← hfold, hb])
            · intro hc
              exact cmp.fold_zero b (by rw [hfold, hc])
          rw [if_neg (not_not.2 hfold), if_neg (not_not.2 hfold.symm), hnul]
          split
          · rfl
          · exact ih
        · rw [if_pos hfold, if_pos (Ne.symm hfold), Option.map_some, neg_sub]

/-- A comparison returns the difference of the first characters that differ from the decisive
ones. -/
theorem compare_eq (hs : cmp.Readable limit s) (hx : cmp.Readable limit x) :
    cmp.compare limit x s = some ((firstDifference cmp.fold x (cmp.decisive limit s)).elim 0
      fun d => (d.1.toNat - d.2.toNat : ℤ)) := by
  induction s generalizing limit x with
  | nil =>
    have hlimit : limit = some 0 := by
      by_contra h
      exact hs.ne_nil h rfl
    rw [hlimit, compare_zero, decisive_zero, firstDifference_nil, Option.elim_none]
  | cons b s ih =>
    by_cases hlimit : limit = some 0
    · rw [hlimit, compare_zero, decisive_zero, firstDifference_nil, Option.elim_none]
    · obtain ⟨c, x, rfl⟩ := List.exists_cons_of_ne_nil (hx.ne_nil hlimit)
      rw [compare_cons hlimit, decisive_cons hlimit]
      by_cases hfold : cmp.fold c = cmp.fold b
      · rw [if_neg (not_not.2 hfold)]
        by_cases hnul : (cmp.endsAtNul && b == 0) = true
        · have hc : (cmp.endsAtNul && c == 0) = true := by
            rw [Bool.and_eq_true, beq_iff_eq] at hnul ⊢
            exact ⟨hnul.1, cmp.fold_zero c (by rw [hfold, hnul.2])⟩
          rw [if_pos hc, if_pos hnul, firstDifference, if_pos hfold, firstDifference_nil,
            Option.elim_none]
        · have hc : ¬(cmp.endsAtNul && c == 0) = true := by
            intro hc
            rw [Bool.and_eq_true, beq_iff_eq] at hc hnul
            exact hnul ⟨hc.1, cmp.fold_zero b (by rw [← hfold, hc.2])⟩
          rw [if_neg hc, if_neg hnul, firstDifference, if_pos hfold]
          exact ih (hs.tail hnul) (hx.tail hc)
      · rw [if_pos hfold]
        split <;> rw [firstDifference, if_neg hfold, Option.elim_some]

/-- A comparison never needs a character behind the end of a readable array. -/
theorem decisive_length_le (hx : cmp.Readable limit x)
    (h : x.map cmp.fold <+: (cmp.decisive limit s).map cmp.fold) :
    (cmp.decisive limit s).length ≤ x.length := by
  induction s generalizing limit x with
  | nil => simp [decisive_nil]
  | cons b s ih =>
    by_cases hlimit : limit = some 0
    · simp [hlimit]
    · obtain ⟨c, x, rfl⟩ := List.exists_cons_of_ne_nil (hx.ne_nil hlimit)
      rw [decisive_cons hlimit] at h ⊢
      by_cases hnul : (cmp.endsAtNul && b == 0) = true
      · rw [if_pos hnul]
        simp
      · rw [if_neg hnul] at h ⊢
        rw [List.map_cons, List.map_cons, List.cons_prefix_cons] at h
        have hc : ¬(cmp.endsAtNul && c == 0) = true := by
          intro hc
          rw [Bool.and_eq_true, beq_iff_eq] at hc hnul
          exact hnul ⟨hc.1, cmp.fold_zero b (by rw [← h.1, hc.2])⟩
        rw [List.length_cons, List.length_cons]
        exact Nat.succ_le_succ (ih (hx.tail hc) h.2)

/-- A comparison finds no difference when the other array starts with the decisive characters,
up to what `fold` identifies. -/
theorem compare_spec (hs : cmp.Readable limit s) (hx : cmp.Readable limit x) :
    ∃ r, cmp.compare limit x s = some r ∧
      (r = 0 ↔ (cmp.decisive limit s).map cmp.fold <+: x.map cmp.fold) := by
  refine ⟨_, compare_eq hs hx, ?_⟩
  rw [← firstDifference_eq_none_iff (decisive_length_le hx)]
  cases hd : firstDifference cmp.fold x (cmp.decisive limit s) with
  | none => simp
  | some d =>
    have hne : d.1.toNat ≠ d.2.toNat :=
      fun h => firstDifference_ne hd (BitVec.eq_of_toNat_eq h)
    rw [Option.elim_some]
    exact iff_of_false (by omega) nofun

/-- The decisive characters are those through the first NUL, cut at the limit. -/
theorem decisive_eq : cmp.decisive limit s =
    (fun t => limit.elim t t.take) (if cmp.endsAtNul then s.take (s.idxOf 0 + 1) else s) := by
  induction s generalizing limit with
  | nil => cases limit <;> simp [decisive_nil]
  | cons b s ih =>
    by_cases hlimit : limit = some 0
    · simp [hlimit]
    · rw [decisive_cons hlimit, ih]
      cases limit with
      | none => by_cases hb : b = 0#8 <;> cases cmp.endsAtNul <;> simp [hb]
      | some n =>
        obtain ⟨m, rfl⟩ := Nat.exists_eq_succ_of_ne_zero fun h => hlimit (congrArg some h)
        by_cases hb : b = 0#8 <;> cases cmp.endsAtNul <;> simp [hb]

/-- Characters in front that are no NUL only use up the limit. -/
theorem decisive_append {t : List Byte} (hs : (0 : Byte) ∉ s) : cmp.decisive limit (s ++ t) =
    limit.elim s s.take ++ cmp.decisive (limit.map (· - s.length)) t := by
  induction s generalizing limit with
  | nil => cases limit <;> simp
  | cons b s ih =>
    rw [List.mem_cons, not_or] at hs
    by_cases hlimit : limit = some 0
    · simp [hlimit]
    · have hb : ¬(cmp.endsAtNul && b == 0) = true := by
        rw [Bool.and_eq_true, beq_iff_eq]
        exact fun h => hs.1 h.2.symm
      rw [List.cons_append, decisive_cons hlimit, if_neg hb, ih hs.2]
      cases limit with
      | none => rfl
      | some n =>
        obtain ⟨m, rfl⟩ := Nat.exists_eq_succ_of_ne_zero fun h => hlimit (congrArg some h)
        simp

theorem readable_decisive (hs : cmp.Readable limit s) :
    cmp.Readable limit (cmp.decisive limit s) := by
  induction s generalizing limit with
  | nil =>
    rw [decisive_nil]
    exact hs
  | cons b s ih =>
    by_cases hlimit : limit = some 0
    · rw [hlimit, decisive_zero]
      exact .inr ⟨0, rfl, le_rfl⟩
    · rw [decisive_cons hlimit]
      by_cases hnul : (cmp.endsAtNul && b == 0) = true
      · rw [if_pos hnul]
        rw [Bool.and_eq_true, beq_iff_eq] at hnul
        exact .inl ⟨hnul.1, by simp [hnul.2]⟩
      · rw [if_neg hnul]
        rcases ih (hs.tail hnul) with ⟨hends, hmem⟩ | ⟨n, hn, hlen⟩
        · exact .inl ⟨hends, List.mem_cons_of_mem _ hmem⟩
        · cases limit with
          | none => exact absurd hn (by simp)
          | some m =>
            refine .inr ⟨m, rfl, ?_⟩
            have hpred := Option.some.inj hn
            rw [List.length_cons]
            simp only [Nat.pred_eq_sub_one] at hpred
            omega

/-- Two tests for the first characters of every readable array agree only when they are for the
same characters. -/
theorem prefix_tests_agree_iff {t : List Byte} (hs : cmp.Readable limit s) :
    (∀ x, cmp.Readable limit x → (t.map cmp.fold <+: x.map cmp.fold ↔
        (cmp.decisive limit s).map cmp.fold <+: x.map cmp.fold)) ↔
      t.map cmp.fold = (cmp.decisive limit s).map cmp.fold := by
  constructor
  · intro h
    set q := cmp.decisive limit s with hq
    have hprefix : t.map cmp.fold <+: q.map cmp.fold :=
      (h q (readable_decisive hs)).2 (List.prefix_refl _)
    refine hprefix.eq_of_length ?_
    by_contra hne
    have hlt : t.length < q.length := by
      have hle := hprefix.length_le
      rw [List.length_map, List.length_map] at hle hne
      omega
    -- an array that leaves the decisive characters right behind those of `t`
    obtain ⟨b, hb⟩ : ∃ b : Byte, cmp.fold b ≠ cmp.fold (q.get ⟨t.length, hlt⟩) := by
      by_cases hzero : cmp.fold 0 = cmp.fold (q.get ⟨t.length, hlt⟩)
      · refine ⟨1, fun hone => ?_⟩
        exact absurd (cmp.fold_zero 1 (hone.trans hzero.symm)) (by decide)
      · exact ⟨0, hzero⟩
    have hx : cmp.Readable limit (t ++ b :: List.replicate (limit.getD 0) 0 ++ [0]) := by
      rcases hs with ⟨hends, -⟩ | ⟨n, rfl, -⟩
      · exact .inl ⟨hends, by simp⟩
      · refine .inr ⟨n, rfl, ?_⟩
        simp
        omega
    have hsame := (h _ hx).1 (by simp)
    have hget := hsame.getElem (i := t.length) (by simpa using hlt)
    simp at hget
    exact hb hget.symm
  · intro h x _
    rw [h]

end Comparison

end AflPlusPlus.CStrings
