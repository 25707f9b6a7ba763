import AflPlusPlus.CompareTransformSpec

/-!
# The sign of an unrolled comparison

The unrolled code subtracts two characters in eight bits and extends the sign of the result.
The sign is that of the library function exactly when the difference of the two characters
fits into a signed byte.
-/

namespace AflPlusPlus.CompareTransform
open ByteWords CStrings

/-- The difference of the two characters, that of the first argument first, is the value of a
signed byte. -/
def FitsSignedByte (hasStr1 : Bool) (d : Byte × Byte) : Prop :=
  if hasStr1 then -128 ≤ (d.2.toNat - d.1.toNat : ℤ) ∧ (d.2.toNat - d.1.toNat : ℤ) ≤ 127
  else -128 ≤ (d.1.toNat - d.2.toNat : ℤ) ∧ (d.1.toNat - d.2.toNat : ℤ) ≤ 127

instance (hasStr1 : Bool) (d : Byte × Byte) : Decidable (FitsSignedByte hasStr1 d) :=
  inferInstanceAs (Decidable (ite _ _ _))

theorem toInt_sub_eq (a b : Byte) :
    (a - b).toInt = (a.toNat - b.toNat : ℤ).bmod (2 ^ 8) := by
  rw [BitVec.toInt_sub, BitVec.toInt_eq_toNat_bmod, BitVec.toInt_eq_toNat_bmod,
    Int.sub_bmod_bmod, Int.bmod_sub_bmod]

/-- A difference of eight bits keeps its sign when it fits, and has the other one when not. -/
theorem sign_toInt_sub (a b : Byte) : (a - b).toInt.sign =
    if -128 ≤ (a.toNat - b.toNat : ℤ) ∧ (a.toNat - b.toNat : ℤ) ≤ 127
    then (a.toNat - b.toNat : ℤ).sign else -(a.toNat - b.toNat : ℤ).sign := by
  have ha : a.toNat < 256 := a.isLt
  have hb : b.toNat < 256 := b.isLt
  rw [toInt_sub_eq]
  by_cases hfit : -128 ≤ (a.toNat - b.toNat : ℤ) ∧ (a.toNat - b.toNat : ℤ) ≤ 127
  · have hsame : (a.toNat - b.toNat : ℤ).bmod (2 ^ 8) = a.toNat - b.toNat := by
      simp only [Int.bmod_def]
      omega
    rw [if_pos hfit, hsame]
  · rw [if_neg hfit]
    rcases Int.lt_or_le 127 (a.toNat - b.toNat : ℤ) with hlarge | hsmall
    · have hneg : (a.toNat - b.toNat : ℤ).bmod (2 ^ 8) < 0 := by
        simp only [Int.bmod_def]
        omega
      rw [Int.sign_eq_neg_one_of_neg hneg, Int.sign_eq_one_of_pos (by omega)]
    · have hpos : 0 < (a.toNat - b.toNat : ℤ).bmod (2 ^ 8) := by
        simp only [Int.bmod_def]
        omega
      rw [Int.sign_eq_one_of_pos hpos, Int.sign_eq_neg_one_of_neg (by omega), neg_neg]

theorem sign_sub_eq {a b : Byte} (h : a ≠ b) :
    (a.toNat - b.toNat : ℤ).sign = if a < b then -1 else 1 := by
  have hne : a.toNat ≠ b.toNat := fun heq => h (BitVec.eq_of_toNat_eq heq)
  by_cases hlt : a < b
  · rw [if_pos hlt, Int.sign_eq_neg_one_of_neg]
    rw [BitVec.lt_def] at hlt
    omega
  · rw [if_neg hlt, Int.sign_eq_one_of_pos]
    rw [BitVec.lt_def] at hlt
    omega

/-- A difference of eight bits and another one have the same sign when the first fits and the
second is in the same direction, or neither. -/
theorem sign_toInt_sub_eq_iff {a b x y : Byte} (hab : a ≠ b) (hxy : x ≠ y) :
    (a - b).toInt.sign = (x.toNat - y.toNat : ℤ).sign ↔
      ((-128 ≤ (a.toNat - b.toNat : ℤ) ∧ (a.toNat - b.toNat : ℤ) ≤ 127) ↔ (a < b ↔ x < y)) := by
  rw [sign_toInt_sub, sign_sub_eq hab, sign_sub_eq hxy]
  by_cases hfit : -128 ≤ (a.toNat - b.toNat : ℤ) ∧ (a.toNat - b.toNat : ℤ) ≤ 127 <;>
    by_cases hlt : a < b <;> by_cases hlt' : x < y <;> simp [hfit, hlt, hlt']

section Call
variable {call : CallInst} {f : CmpFunction} {code : UnrolledCode} {size : ℕ} {varStr : List Byte}

/-- The first characters at which the array differs from the string at hand, while the call
looks at them. -/
def CallInst.firstDifference (call : CallInst) (f : CmpFunction) (size : ℕ)
    (varStr str : List Byte) : Option (Byte × Byte) :=
  CStrings.firstDifference f.meaning.fold varStr (f.meaning.decisive (call.limit size) str)

/-- The characters at which the array first differs from the known string, if it does, are no
farther apart than a signed byte can tell. For an initializer into which the argument points,
the array must first differ in the same direction from what stands there, or in the other one
when the characters are farther apart. -/
def CallInst.SignKept (call : CallInst) (f : CmpFunction) (size : ℕ) (varStr : List Byte) : Prop :=
  ∀ d, call.firstDifference f size varStr (terminated f call.known.contents) = some d →
    match call.known with
    | .constantString _ => FitsSignedByte call.hasStr1 d
    | .initializer data offset => ∃ e,
      call.firstDifference f size varStr (data.drop offset) = some e ∧
        (FitsSignedByte call.hasStr1 d ↔ (d.1 < d.2 ↔ e.1 < e.2))

theorem transform_hasStr1 (h : call.transform = some code) : code.hasStr1 = call.hasStr1 := by
  rw [CallInst.transform, Option.bind_eq_bind, Option.bind_eq_some_iff] at h
  obtain ⟨g, -, h⟩ := h
  dsimp only at h
  split at h
  · exact absurd h (by simp)
  · rw [← Option.some.inj h]

theorem libc_eq (hs : f.meaning.Readable (call.limit size) call.known.memory)
    (hx : f.meaning.Readable (call.limit size) varStr) :
    call.libc f size varStr = some ((call.firstDifference f size varStr call.known.memory).elim 0
      fun d => if call.hasStr1 then (d.2.toNat - d.1.toNat : ℤ) else d.1.toNat - d.2.toNat) := by
  have heq := Comparison.compare_eq hs hx
  unfold CallInst.libc CallInst.firstDifference
  by_cases h1 : call.hasStr1 = true
  · rw [if_pos h1, Comparison.compare_swap, heq, Option.map_some]
    cases CStrings.firstDifference f.meaning.fold varStr _ with
    | none => rfl
    | some d => simp [h1]
  · rw [if_neg h1, heq]
    simp [h1]

theorem sign_difference_iff (h1 : code.hasStr1 = call.hasStr1) {d e : Byte × Byte}
    (hd : d.1 ≠ d.2) (he : e.1 ≠ e.2) : (code.difference d).sign =
      (if call.hasStr1 then (e.2.toNat - e.1.toNat : ℤ) else e.1.toNat - e.2.toNat).sign ↔
    (FitsSignedByte call.hasStr1 d ↔ (d.1 < d.2 ↔ e.1 < e.2)) := by
  rw [UnrolledCode.difference, h1, FitsSignedByte]
  by_cases hside : call.hasStr1 = true
  · have hflip : ∀ {a b : Byte}, a ≠ b → (a < b ↔ ¬b < a) := by
      intro a b hne
      have : a.toNat ≠ b.toNat := fun heq => hne (BitVec.eq_of_toNat_eq heq)
      rw [BitVec.lt_def, BitVec.lt_def]
      omega
    rw [if_pos hside, if_pos hside, if_pos hside, hflip hd, hflip he, not_iff_not]
    exact sign_toInt_sub_eq_iff hd.symm he.symm
  · rw [if_neg hside, if_neg hside, if_neg hside]
    exact sign_toInt_sub_eq_iff hd he

/-- The known characters of a constant string are the first ones that the library looks at. -/
theorem decisive_constantString_isPrefix {limit : Option ℕ} {bytes : List Byte}
    (hsized : f.isSizedcmp = limit.isSome) (hs : f.meaning.Readable limit bytes) :
    (f.meaning.decisive limit (terminated f (bytes.takeWhile (· ≠ 0)))).map f.meaning.fold <+:
      (f.meaning.decisive limit bytes).map f.meaning.fold := by
  cases limit with
  | none =>
    rw [(decisive_constantString_iff hsized hs).2 nofun]
  | some n =>
    have hfront := zero_not_mem_takeWhile bytes
    have hterm : terminated f (bytes.takeWhile (· ≠ 0)) = bytes.takeWhile (· ≠ 0) := by
      rw [terminated, hsized]
      simp
    have hbytes : bytes.takeWhile (· ≠ 0) ++ bytes.dropWhile (· ≠ 0) = bytes :=
      List.takeWhile_append_dropWhile
    have hfrontOnly := @Comparison.decisive_append f.meaning (some n) _ [] hfront
    rw [List.append_nil, Comparison.decisive_nil, List.append_nil] at hfrontOnly
    have hall := @Comparison.decisive_append f.meaning (some n) _ (bytes.dropWhile (· ≠ 0)) hfront
    rw [hbytes] at hall
    rw [hterm, hfrontOnly, hall, List.map_append]
    exact List.prefix_append _ _

/-- For a constant string the library finds the difference that the unrolled code finds. -/
theorem firstDifference_constantString {bytes : List Byte} {d : Byte × Byte}
    (hknown : call.known = .constantString bytes) (hf : call.select = some f)
    (hs : f.meaning.Readable (call.limit size) call.known.memory)
    (hd : call.firstDifference f size varStr (terminated f call.known.contents) = some d) :
    call.firstDifference f size varStr call.known.memory = some d := by
  rw [hknown] at hs hd ⊢
  exact firstDifference_of_prefix
    (decisive_constantString_isPrefix (isSizedcmp_of_select hf) hs) hd

end Call

/-- A non-zero result of the unrolled code has the sign of the library function's result
exactly when the first differing characters are no farther apart than a signed byte can
tell. -/
theorem unrolled_sign_iff (call : CallInst) (f : CmpFunction) (code : UnrolledCode) (size : ℕ)
    (hf : call.select = some f) (hcode : call.transform = some code)
    (hconst : f.meaning.Readable (call.limit size) call.known.memory) (varStr : List Byte)
    (hvar : f.meaning.Readable (call.limit size) varStr) :
    (∃ r l, code.run size varStr = some r ∧ call.libc f size varStr = some l ∧
        (r ≠ 0 → r.sign = l.sign)) ↔
      call.SignKept f size varStr := by
  have hrun : code.run size varStr = some ((call.firstDifference f size varStr
      (terminated f call.known.contents)).elim 0 code.difference) := run_eq hcode hf hvar
  have h1 := transform_hasStr1 hcode
  rw [hrun, libc_eq hconst hvar, CallInst.SignKept]
  simp only [Option.some.injEq, existsAndEq, true_and]
  cases hd : call.firstDifference f size varStr (terminated f call.known.contents) with
  | none => simp
  | some d =>
    have hne : d.1 ≠ d.2 := firstDifference_ne hd
    have hzero : code.difference d ≠ 0 := UnrolledCode.difference_ne_zero hne
    simp only [Option.elim_some, Option.some.injEq, forall_eq']
    rw [forall_prop_of_true hzero]
    cases hknown : call.known with
    | constantString bytes =>
      have he := firstDifference_constantString hknown hf hconst hd
      rw [hknown] at he
      rw [he, Option.elim_some, sign_difference_iff h1 hne hne]
      simp
    | initializer data offset =>
      change _ ↔ ∃ e, call.firstDifference f size varStr
        (KnownArg.initializer data offset).memory = some e ∧ _
      cases he : call.firstDifference f size varStr (KnownArg.initializer data offset).memory with
      | none =>
        simp only [Option.elim_none, reduceCtorEq, false_and, exists_false, iff_false]
        exact fun h => hzero (Int.sign_eq_zero_iff_zero.1 h)
      | some e =>
        rw [Option.elim_some, sign_difference_iff h1 hne (firstDifference_ne he)]
        simp

/-- `strcmp(input, "ab")`. -/
def strcmpAb : CallInst where
  callee := "strcmp"
  hasStr1 := false
  known := .constantString [0x61, 0x62, 0]
  operand2 := none

/-- The letter `z` is behind `a` for the unrolled code as well. -/
theorem unrolled_sign_z : ∃ code, strcmpAb.transform = some code ∧
    ∃ r l, code.run 0 [0x7a, 0] = some r ∧ strcmpAb.libc .strcmp 0 [0x7a, 0] = some l ∧
      (r ≠ 0 → r.sign = l.sign) := by
  refine ⟨_, rfl, ?_⟩
  refine (unrolled_sign_iff strcmpAb .strcmp _ 0 (by decide) rfl (.inl ⟨rfl, by decide⟩)
    [0x7a, 0] (.inl ⟨rfl, by decide⟩)).2 ?_
  intro d hd
  obtain rfl : (0x7a, 0x61) = d := Option.some.inj hd
  change FitsSignedByte false (0x7a, 0x61)
  decide

/-- The character `0xff` is behind `a` for `strcmp` and before it for the unrolled code. -/
theorem unrolled_sign_differs_ff : ∃ code, strcmpAb.transform = some code ∧
    strcmpAb.select = some .strcmp ∧
    CmpFunction.strcmp.meaning.Readable (strcmpAb.limit 0) strcmpAb.known.memory ∧
    CmpFunction.strcmp.meaning.Readable (strcmpAb.limit 0) [0xff, 0] ∧
    code.run 0 [0xff, 0] = some (-98) ∧ strcmpAb.libc .strcmp 0 [0xff, 0] = some 158 :=
  ⟨_, rfl, by decide, .inl ⟨rfl, by decide⟩, .inl ⟨rfl, by decide⟩, by decide, by decide⟩

end AflPlusPlus.CompareTransform
