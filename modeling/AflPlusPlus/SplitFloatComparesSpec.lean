import AflPlusPlus.SplitFloatCompares

/-!
# What the networks for floating-point comparisons compute

On numbers the networks compute the comparison they replace. When an operand is NaN they
answer true for `one` and `une` and false for every other predicate.
-/

namespace AflPlusPlus.SplitFloatCompares
open ControlFlow CompareInstructions FloatFormats

/-! ## The values in a network -/

section Values

variable (w a b : ℕ)

def nanFlag : ℕ :=
  orValue 1 (icmpValue w .ugt (shlValue w a 1) (nanLowend w)).toNat
    (icmpValue w .ugt (shlValue w b 1) (nanLowend w)).toNat

/-- The operand with the negative zero made positive. -/
def cleared : ℕ := selectValue (icmpValue w .eq a (minusZero w)).toNat 0 a

def signBit : ℕ := truncValue 1 (lshrValue w (cleared w a) (w - 1))

def exponentBits : ℕ :=
  let t := truncValue (intExponentTy w) (lshrValue w (cleared w a) (shiftRExponent w))
  if maskedExponent w then andValue (intExponentTy w) t (maskExponent w) else t

def fractionBits : ℕ :=
  let t := if maskedFraction w then andValue w (cleared w a) (maskFraction w) else cleared w a
  if needTrunc w then truncValue (intFractionTy w) t else t

/-- Whether the signs, exponents and fractions are equal. -/
def sameFields : Bool :=
  icmpValue 1 .eq (signBit w a) (signBit w b) &&
    (icmpValue (intExponentTy w) .eq (exponentBits w a) (exponentBits w b) &&
      icmpValue (fractionWidth w) .eq (fractionBits w a) (fractionBits w b))

/-- The answer of the network for `>` or `<` on operands that are not NaN. -/
def orderFields (isGt : Bool) : ℕ :=
  if icmpValue 1 .eq (signBit w a) (signBit w b) then
    if icmpValue (intExponentTy w) .eq (exponentBits w a) (exponentBits w b) then
      (icmpValue (fractionWidth w) (if decide (signBit w a ≠ 0) = isGt then .ult else .ugt)
        (fractionBits w a) (fractionBits w b)).toNat
    else xorValue 1 (icmpValue (intExponentTy w) (if isGt then .ugt else .ult)
      (exponentBits w a) (exponentBits w b)).toNat (signBit w a)
  else if isGt then signBit w b else signBit w a

end Values

/-! ## The registers after each block -/

section Registers

variable {σ : Type} (fcmpAs : Format → FloatPredicate → ℕ → ℕ → Bool) {n w a b : ℕ}

/-- The registers after `nonan_bb` for the operands `a` and `b`. -/
structure Cleared (n w a b : ℕ) (ρ : Env) : Prop where
  op0 : ρ (n + 9) = cleared w a
  op1 : ρ (n + 10) = cleared w b
  sign0 : ρ (n + 12) = signBit w a
  sign1 : ρ (n + 14) = signBit w b

theorem Cleared.of_agree {ρ ρ' : Env} (h : Cleared n w a b ρ) (hρ : Agree (n + 16) ρ' ρ) :
    Cleared n w a b ρ' where
  op0 := (hρ _ (by omega)).trans h.op0
  op1 := (hρ _ (by omega)).trans h.op1
  sign0 := (hρ _ (by omega)).trans h.sign0
  sign1 := (hρ _ (by omega)).trans h.sign1

theorem nanCheck_registers {op0 op1 : Operand} (h1 : op1.Below n) (s : Env × σ)
    (ha : truncValue w (op0.value s.1) = a) (hb : truncValue w (op1.value s.1) = b) :
    (execBody (Op.evalWith fcmpAs) s (nanCheck n w op0 op1)).2 = s.2 ∧
    (execBody (Op.evalWith fcmpAs) s (nanCheck n w op0 op1)).1 n = a ∧
    (execBody (Op.evalWith fcmpAs) s (nanCheck n w op0 op1)).1 (n + 1) = b ∧
    (execBody (Op.evalWith fcmpAs) s (nanCheck n w op0 op1)).1 (n + 6) = nanFlag w a b := by
  have hb' := Operand.value_update h1 n (Nat.le_refl n) s.1
  simp [nanCheck, nanFlag, ha, hb, hb']

theorem nonanBody_registers (s : Env × σ) (ha : s.1 n = a) (hb : s.1 (n + 1) = b) :
    (execBody (Op.evalWith fcmpAs) s (nonanBody n w)).2 = s.2 ∧
    Cleared n w a b (execBody (Op.evalWith fcmpAs) s (nonanBody n w)).1 ∧
    (execBody (Op.evalWith fcmpAs) s (nonanBody n w)).1 (n + 15) =
      (icmpValue 1 .eq (signBit w a) (signBit w b)).toNat := by
  refine ⟨?_, ⟨?_, ?_, ?_, ?_⟩, ?_⟩ <;> simp [nonanBody, signBit, cleared, ha, hb]

theorem exponentBody_registers (s : Env × σ) (h : Cleared n w a b s.1) :
    (execBody (Op.evalWith fcmpAs) s (exponentBody n w)).2 = s.2 ∧
    Cleared n w a b (execBody (Op.evalWith fcmpAs) s (exponentBody n w)).1 ∧
    (execBody (Op.evalWith fcmpAs) s (exponentBody n w)).1 (exponents n w).1 =
      exponentBits w a ∧
    (execBody (Op.evalWith fcmpAs) s (exponentBody n w)).1 (exponents n w).2 =
      exponentBits w b := by
  have hframe : Agree (n + 16) (execBody (Op.evalWith fcmpAs) s (exponentBody n w)).1 s.1 := by
    refine Region.execBody_frame _ ?_ s
    unfold exponentBody
    split <;> simp [lshrInst, truncInst]
  refine ⟨?_, h.of_agree hframe, ?_⟩ <;> unfold exponentBody <;>
    cases hm : maskedExponent w <;> simp [exponents, exponentBits, hm, h.op0, h.op1]

theorem fractionBody_registers (s : Env × σ) (h : Cleared n w a b s.1) :
    (execBody (Op.evalWith fcmpAs) s (fractionBody n w)).2 = s.2 ∧
    Cleared n w a b (execBody (Op.evalWith fcmpAs) s (fractionBody n w)).1 ∧
    (execBody (Op.evalWith fcmpAs) s (fractionBody n w)).1 (fractions n w).1 =
      fractionBits w a ∧
    (execBody (Op.evalWith fcmpAs) s (fractionBody n w)).1 (fractions n w).2 =
      fractionBits w b := by
  have hframe : Agree (n + 16) (execBody (Op.evalWith fcmpAs) s (fractionBody n w)).1 s.1 := by
    refine Region.execBody_frame _ ?_ s
    unfold fractionBody
    split <;> split <;> simp [truncInst]
  refine ⟨?_, h.of_agree hframe, ?_⟩ <;> unfold fractionBody <;>
    cases hm : maskedFraction w <;> cases ht : needTrunc w <;>
    simp [fractions, fractionSources, fractionBits, hm, ht, h.op0, h.op1]

theorem compare_registers (s : Env × σ) (h : Cleared n w a b s.1) {i j u v : ℕ} (id width : ℕ)
    (p : IntPredicate) (hid : n + 16 ≤ id) (hi : s.1 i = u) (hj : s.1 j = v) :
    (execInstr (Op.evalWith fcmpAs) s (cmpInst id width p (.reg i) (.reg j))).2 = s.2 ∧
    Cleared n w a b (execInstr (Op.evalWith fcmpAs) s (cmpInst id width p (.reg i) (.reg j))).1 ∧
    (execInstr (Op.evalWith fcmpAs) s (cmpInst id width p (.reg i) (.reg j))).1 id =
      (icmpValue width p u v).toNat := by
  refine ⟨rfl, h.of_agree ?_, by simp [hi, hj]⟩
  have hbody : ∀ I ∈ [(cmpInst id width p (.reg i) (.reg j) : Instr (Op σ))], n + 16 ≤ I.id := by
    simpa [cmpInst] using hid
  exact Region.execBody_frame _ hbody s

/-- The registers after `signequal_bb`. -/
theorem signequal_registers (s : Env × σ) (h : Cleared n w a b s.1) (p : IntPredicate) :
    ∃ s', execBody (Op.evalWith fcmpAs) s (exponentBody n w ++ [cmpInst (n + 22)
        (intExponentTy w) p (.reg (exponents n w).1) (.reg (exponents n w).2)]) = s' ∧
      s'.2 = s.2 ∧ Cleared n w a b s'.1 ∧ s'.1 (exponents n w).1 = exponentBits w a ∧
      s'.1 (exponents n w).2 = exponentBits w b ∧
      s'.1 (n + 22) =
        (icmpValue (intExponentTy w) p (exponentBits w a) (exponentBits w b)).toNat := by
  obtain ⟨hmem, hcleared, he0, he1⟩ := exponentBody_registers fcmpAs s h
  obtain ⟨hmem', hcleared', hcmp⟩ := compare_registers fcmpAs _ hcleared
    (n + 22) (intExponentTy w) p (by omega) he0 he1
  have hne : (exponents n w).1 ≠ n + 22 ∧ (exponents n w).2 ≠ n + 22 := by
    unfold exponents
    split <;> simp
  refine ⟨_, execBody_append _ _ _ _, hmem'.trans hmem, hcleared', ?_, ?_, hcmp⟩
  · simpa [hne.1] using he0
  · simpa [hne.2] using he1

end Registers

/-! ## The results of the networks -/

section Results

variable {σ : Type} (fcmpAs : Format → FloatPredicate → ℕ → ℕ → Bool) {n w a b : ℕ}
  {op0 op1 : Operand} (h1 : op1.Below n) {s : Env × σ}
  (ha : truncValue w (op0.value s.1) = a) (hb : truncValue w (op1.value s.1) = b)

include h1 ha hb

/-- Both networks start with the NaN check and `nonan_bb`. -/
theorem walk_signs {R : Region (Op σ)} (hhead : R.head = nanCheck n w op0 op1)
    (hterm : R.terminator = .condBr (.reg (n + 6)) .exit (.inner 0))
    (hblock : R.blocks[0]? = some (nonanBlock n w)) :
    (nanFlag w a b ≠ 0 ∧ ∃ s', s'.2 = s.2 ∧ ∀ k, R.walk (Op.evalWith fcmpAs) (k + 1) .head
      R.terminator (execBody (Op.evalWith fcmpAs) s R.head) = some (.head, s')) ∨
    (nanFlag w a b = 0 ∧ ∃ s', s'.2 = s.2 ∧ Cleared n w a b s'.1 ∧
      s'.1 (n + 15) = (icmpValue 1 .eq (signBit w a) (signBit w b)).toNat ∧
      ∀ k, R.walk (Op.evalWith fcmpAs) (k + 1) .head R.terminator
          (execBody (Op.evalWith fcmpAs) s R.head) =
        R.walk (Op.evalWith fcmpAs) k (.inner 0) (.condBr (.reg (n + 15)) (.inner 1) .exit)
          s') := by
  obtain ⟨hmem, hn, hn1, hflag⟩ := nanCheck_registers fcmpAs h1 s ha hb
  rw [← hhead] at hmem hn hn1 hflag
  by_cases hnan : nanFlag w a b = 0
  · obtain ⟨hmem', hcleared, hsign⟩ := nonanBody_registers (w := w) fcmpAs _ hn hn1
    refine .inr ⟨hnan, _, hmem'.trans hmem, hcleared, hsign, fun k => ?_⟩
    exact Region.walk_inner (by simp [hterm, Terminator.exec, hflag, hnan]) hblock rfl
  · refine .inl ⟨hnan, _, hmem, fun k => ?_⟩
    exact Region.walk_exit (by simp [hterm, Terminator.exec, hflag, hnan])

theorem splitEqRegion_result (isEq nanResult : Bool) :
    ∃ s', s'.2 = s.2 ∧ (splitEqRegion n w isEq nanResult op0 op1).result
        (Op.evalWith fcmpAs) 4 s =
      some ((if nanFlag w a b ≠ 0 then nanResult else isEq == sameFields w a b).toNat, s') := by
  unfold sameFields
  rcases walk_signs fcmpAs h1 ha hb (R := splitEqRegion n w isEq nanResult op0 op1) rfl rfl rfl with
    ⟨hnan, s₁, hmem, hwalk⟩ | ⟨hnan, s₁, hmem, hcleared, hsign, hwalk⟩
  · rw [if_pos hnan]
    exact ⟨s₁, hmem, Region.result_of_walk (hwalk 3) rfl rfl⟩
  rw [if_neg (not_not.mpr hnan)]
  cases hs : icmpValue 1 .eq (signBit w a) (signBit w b) with
  | false =>
    have hexit := (hwalk 3).trans (Region.walk_exit (n := 2) (by simp [Terminator.exec, hsign, hs]))
    refine ⟨s₁, hmem, Region.result_of_walk hexit rfl ?_⟩
    cases isEq <;> rfl
  | true =>
    obtain ⟨s₂, hs₂, hmem₂, hcleared₂, -, -, hexp⟩ :=
      signequal_registers fcmpAs s₁ hcleared (if isEq then .eq else .ne)
    have hwalk₂ := (hwalk 3).trans
      (Region.walk_body (n := 2) (k := 1) (by simp [Terminator.exec, hsign, hs]) rfl hs₂)
    cases he : icmpValue (intExponentTy w) .eq (exponentBits w a) (exponentBits w b) with
    | false =>
      have hexit := hwalk₂.trans (Region.walk_exit (n := 1) (by
        cases isEq <;> simp [Terminator.exec, hexp, icmpValue_ne, he]))
      refine ⟨s₂, hmem₂.trans hmem, Region.result_of_walk hexit rfl ?_⟩
      cases isEq <;> simp [hexp, icmpValue_ne, he]
    | true =>
      obtain ⟨hmem₃, hcleared₃, hf0, hf1⟩ := fractionBody_registers fcmpAs s₂ hcleared₂
      obtain ⟨hmem₄, -, hfrac⟩ := compare_registers fcmpAs _ hcleared₃ (n + 29)
        (fractionWidth w) (if isEq then .eq else .ne) (by omega) hf0 hf1
      have hexit := (hwalk₂.trans (Region.walk_body (n := 1) (k := 2) (by
        cases isEq <;> simp [Terminator.exec, hexp, icmpValue_ne, he]) rfl
        (execBody_append _ _ _ _))).trans (Region.walk_exit rfl)
      refine ⟨_, hmem₄.trans (hmem₃.trans (hmem₂.trans hmem)),
        Region.result_of_walk hexit rfl (hfrac.trans ?_)⟩
      cases isEq <;> simp [icmpValue_ne]

theorem splitLtRegion_result (isGt nanResult : Bool) :
    ∃ s', s'.2 = s.2 ∧ (splitLtRegion n w isGt nanResult op0 op1).result
        (Op.evalWith fcmpAs) 6 s =
      some (if nanFlag w a b ≠ 0 then nanResult.toNat else orderFields w a b isGt, s') := by
  unfold orderFields
  rcases walk_signs fcmpAs h1 ha hb (R := splitLtRegion n w isGt nanResult op0 op1) rfl rfl rfl with
    ⟨hnan, s₁, hmem, hwalk⟩ | ⟨hnan, s₁, hmem, hcleared, hsign, hwalk⟩
  · rw [if_pos hnan]
    exact ⟨s₁, hmem, Region.result_of_walk (hwalk 5) rfl rfl⟩
  rw [if_neg (not_not.mpr hnan)]
  cases hs : icmpValue 1 .eq (signBit w a) (signBit w b) with
  | false =>
    have hexit := (hwalk 5).trans (Region.walk_exit (n := 4) (by simp [Terminator.exec, hsign, hs]))
    refine ⟨s₁, hmem, Region.result_of_walk hexit rfl ?_⟩
    cases isGt <;> simp [hcleared.sign0, hcleared.sign1]
  | true =>
    obtain ⟨s₂, hs₂, hmem₂, hcleared₂, he0, he1, hexp⟩ :=
      signequal_registers fcmpAs s₁ hcleared .eq
    have hwalk₂ := (hwalk 5).trans
      (Region.walk_body (n := 4) (k := 1) (by simp [Terminator.exec, hsign, hs]) rfl hs₂)
    cases he : icmpValue (intExponentTy w) .eq (exponentBits w a) (exponentBits w b) with
    | false =>
      have hexit := (hwalk₂.trans (Region.walk_body (n := 3) (k := 3)
        (by simp [Terminator.exec, hexp, he]) rfl rfl)).trans (Region.walk_exit rfl)
      refine ⟨_, ?_, Region.result_of_walk hexit rfl ?_⟩
      · exact hmem₂.trans hmem
      · simp [he0, he1, hcleared₂.sign0]
    | true =>
      obtain ⟨hmem₃, hcleared₃, hf0, hf1⟩ := fractionBody_registers fcmpAs s₂ hcleared₂
      have hwalk₃ := hwalk₂.trans (Region.walk_body (n := 3) (k := 2)
        (by simp [Terminator.exec, hexp, he]) rfl rfl)
      by_cases hneg : signBit w a = 0
      · obtain ⟨hmem₄, -, hfrac⟩ := compare_registers fcmpAs _ hcleared₃ (n + 30)
          (fractionWidth w) (if isGt then .ugt else .ult) (by omega) hf0 hf1
        have hwalk₄ := hwalk₃.trans (Region.walk_body (n := 2) (k := 6)
          (by simp [Terminator.exec, hcleared₃.sign0, hneg]) rfl rfl)
        have hexit := (hwalk₄.trans (Region.walk_inner (n := 1) (k := 4) rfl rfl rfl)).trans
          (Region.walk_exit rfl)
        refine ⟨_, ?_, Region.result_of_walk hexit rfl ?_⟩
        · exact hmem₄.trans (hmem₃.trans (hmem₂.trans hmem))
        · refine (Function.update_self _ _ _).trans (hfrac.trans ?_)
          cases isGt <;> simp [hneg]
      · obtain ⟨hmem₄, -, hfrac⟩ := compare_registers fcmpAs _ hcleared₃ (n + 29)
          (fractionWidth w) (if isGt then .ult else .ugt) (by omega) hf0 hf1
        have hwalk₄ := hwalk₃.trans (Region.walk_body (n := 2) (k := 5)
          (by simp [Terminator.exec, hcleared₃.sign0, hneg]) rfl rfl)
        have hexit := (hwalk₄.trans (Region.walk_inner (n := 1) (k := 4) rfl rfl rfl)).trans
          (Region.walk_exit rfl)
        refine ⟨_, ?_, Region.result_of_walk hexit rfl ?_⟩
        · exact hmem₄.trans (hmem₃.trans (hmem₂.trans hmem))
        · refine (Function.update_self _ _ _).trans (hfrac.trans ?_)
          cases isGt <;> simp [hneg]

end Results

/-! ## The fields of the binary formats -/

inductive FloatType
  | half | float | double
  deriving DecidableEq, Repr

def FloatType.format : FloatType → Format
  | half => ⟨5, 10, by decide⟩
  | float => ⟨8, 23, by decide⟩
  | double => ⟨11, 52, by decide⟩

namespace FloatType

variable (t : FloatType)

theorem constants : shiftRExponent t.format.width = t.format.fractionBits ∧
    maskExponent t.format.width = 2 ^ t.format.exponentBits - 1 ∧
    maskFraction t.format.width = 2 ^ t.format.fractionBits - 1 ∧
    nanLowend t.format.width = 2 * t.format.topKey ∧
    minusZero t.format.width = 2 ^ (t.format.exponentBits + t.format.fractionBits) ∧
    maskedFraction t.format.width = true ∧ needTrunc t.format.width = false := by
  cases t <;> decide

theorem exponent_fits : t.format.exponentBits ≤ intExponentTy t.format.width ∧
    (maskedExponent t.format.width = false →
      intExponentTy t.format.width = t.format.exponentBits) := by
  cases t <;> decide

theorem width_eq : t.format.width = t.format.exponentBits + t.format.fractionBits + 1 := by
  rw [Format.width]
  omega

end FloatType

theorem andValue_mask {w k : ℕ} (h : k ≤ w) (a : ℕ) : andValue w a (2 ^ k - 1) = a % 2 ^ k := by
  have hle : 2 ^ k ≤ 2 ^ w := Nat.pow_le_pow_right (by omega) h
  have hpos : 0 < 2 ^ k := Nat.two_pow_pos k
  have hmask : (2 ^ k - 1) % 2 ^ w = 2 ^ k - 1 := Nat.mod_eq_of_lt (by omega)
  rw [andValue, BitVec.toNat_and, BitVec.toNat_ofNat, BitVec.toNat_ofNat, hmask,
    Nat.and_two_pow_sub_one_eq_mod, Nat.mod_mod_of_dvd a (Nat.pow_dvd_pow 2 h)]

theorem shlValue_one (w a : ℕ) : shlValue (w + 1) a 1 = 2 * (a % 2 ^ w) := by
  rw [shlValue, BitVec.toNat_shiftLeft, BitVec.toNat_ofNat, Nat.shiftLeft_eq, Nat.pow_one,
    Nat.mod_mul_mod, pow_succ, Nat.mul_mod_mul_right, Nat.mul_comm]

section Fields

variable (t : FloatType) {a b : ℕ}

theorem nan_check_iff (a : ℕ) : icmpValue t.format.width .ugt (shlValue t.format.width a 1)
    (nanLowend t.format.width) = true ↔ t.format.IsNaN a := by
  have hkey : t.format.key a < 2 ^ (t.format.exponentBits + t.format.fractionBits) :=
    Nat.mod_lt _ (Nat.two_pow_pos _)
  have htop : t.format.topKey < 2 ^ (t.format.exponentBits + t.format.fractionBits) := by
    have hpos : 0 < 2 ^ t.format.exponentBits := Nat.two_pow_pos _
    rw [Format.topKey, pow_add]
    exact Nat.mul_lt_mul_of_pos_right (by unfold Format.maxExponent; omega) (Nat.two_pow_pos _)
  have hnan := t.format.not_isNaN_iff a
  rw [icmpValue_ugt, icmpValue_ult, t.width_eq, shlValue_one, ← t.width_eq, t.constants.2.2.2.1,
    t.width_eq, pow_succ, decide_eq_true_iff, Nat.mod_eq_of_lt (by omega),
    Nat.mod_eq_of_lt (by unfold Format.key at hkey; omega)]
  change 2 * t.format.topKey < 2 * t.format.key a ↔ _
  rw [← not_iff_not, hnan]
  omega

theorem nanFlag_iff : nanFlag t.format.width a b ≠ 0 ↔ t.format.IsNaN a ∨ t.format.IsNaN b := by
  have hor : ∀ p q : Bool, orValue 1 p.toNat q.toNat ≠ 0 ↔ p = true ∨ q = true := by decide
  rw [nanFlag, hor, nan_check_iff, nan_check_iff]

theorem cleared_eq (ha : a < 2 ^ t.format.width) : cleared t.format.width a =
    if a = 2 ^ (t.format.exponentBits + t.format.fractionBits) then 0 else a := by
  have hzero : 2 ^ (t.format.exponentBits + t.format.fractionBits) < 2 ^ t.format.width :=
    Nat.pow_lt_pow_right (by omega) (by rw [t.width_eq]; omega)
  rw [cleared, icmpValue_eq, t.constants.2.2.2.2.1, Nat.mod_eq_of_lt ha, Nat.mod_eq_of_lt hzero]
  split <;> simp [selectValue, *]

theorem cleared_lt (ha : a < 2 ^ t.format.width) :
    cleared t.format.width a < 2 ^ t.format.width := by
  rw [cleared_eq t ha]
  split
  · exact Nat.two_pow_pos _
  · exact ha

theorem notMinusZero_cleared (ha : a < 2 ^ t.format.width) :
    t.format.NotMinusZero (cleared t.format.width a) := by
  rintro ⟨hsign, hkey⟩
  have hpos := Nat.two_pow_pos (t.format.exponentBits + t.format.fractionBits)
  have hc := cleared_lt t ha
  have hwidth : 2 ^ t.format.width = 2 ^ (t.format.exponentBits + t.format.fractionBits) * 2 := by
    rw [t.width_eq, pow_succ]
  rw [hwidth] at hc
  have hdiv := Nat.div_add_mod (cleared t.format.width a)
    (2 ^ (t.format.exponentBits + t.format.fractionBits))
  have hlt := Nat.div_lt_of_lt_mul hc
  rw [Format.key] at hkey
  rw [Format.sign, Nat.mod_eq_of_lt hlt] at hsign
  rw [hsign, hkey, cleared_eq t ha] at hdiv
  split at hdiv <;> omega

theorem decode_cleared (ha : a < 2 ^ t.format.width) :
    t.format.decode (cleared t.format.width a) = t.format.decode a := by
  rw [cleared_eq t ha]
  split
  · next h =>
    rw [h]
    cases t <;> decide
  · rfl

theorem signBit_eq (ha : a < 2 ^ t.format.width) :
    signBit t.format.width a = t.format.sign (cleared t.format.width a) := by
  rw [signBit, truncValue_eq, lshrValue_eq, Nat.mod_eq_of_lt (cleared_lt t ha), Nat.pow_one,
    Format.sign]
  congr 3
  rw [t.width_eq]
  omega

theorem exponentBits_eq (ha : a < 2 ^ t.format.width) :
    exponentBits t.format.width a = t.format.exponent (cleared t.format.width a) := by
  obtain ⟨hle, hunmasked⟩ := t.exponent_fits
  have hdvd := Nat.pow_dvd_pow 2 hle
  unfold exponentBits
  simp only [truncValue_eq, lshrValue_eq, Nat.mod_eq_of_lt (cleared_lt t ha), t.constants.1,
    t.constants.2.1]
  cases hm : maskedExponent t.format.width with
  | true => simp only [if_true, andValue_mask hle, Nat.mod_mod_of_dvd _ hdvd, Format.exponent]
  | false => simp [hunmasked hm, Format.exponent]

theorem fractionBits_eq : fractionBits t.format.width a =
    t.format.fraction (cleared t.format.width a) := by
  obtain ⟨-, -, hmask, -, -, hmasked, htrunc⟩ := t.constants
  have hle : t.format.fractionBits ≤ t.format.width := by
    rw [t.width_eq]
    omega
  simp [fractionBits, hmasked, htrunc, hmask, andValue_mask hle, Format.fraction]

theorem signBit_lt (ha : a < 2 ^ t.format.width) : signBit t.format.width a < 2 ^ 1 := by
  rw [signBit_eq t ha]
  exact t.format.sign_lt _

theorem exponentBits_lt (ha : a < 2 ^ t.format.width) :
    exponentBits t.format.width a < 2 ^ intExponentTy t.format.width := by
  rw [exponentBits_eq t ha]
  exact Nat.lt_of_lt_of_le (Nat.mod_lt _ (Nat.two_pow_pos _))
    (Nat.pow_le_pow_right (by omega) t.exponent_fits.1)

theorem fractionBits_lt : fractionBits t.format.width a < 2 ^ fractionWidth t.format.width := by
  have hle : t.format.fractionBits ≤ fractionWidth t.format.width := by
    rw [fractionWidth, t.constants.2.2.2.2.2.2, if_neg Bool.false_ne_true, t.width_eq]
    omega
  rw [fractionBits_eq]
  exact Nat.lt_of_lt_of_le (Nat.mod_lt _ (Nat.two_pow_pos _)) (Nat.pow_le_pow_right (by omega) hle)

theorem isNaN_cleared (ha : a < 2 ^ t.format.width) :
    t.format.IsNaN (cleared t.format.width a) ↔ t.format.IsNaN a := by
  rw [cleared_eq t ha]
  split
  · next h =>
    rw [h]
    cases t <;> decide
  · rfl

end Fields

/-! ## What the networks compute -/

section Network

variable (t : FloatType) {a b : ℕ} (ha : a < 2 ^ t.format.width) (hb : b < 2 ^ t.format.width)

include ha hb

theorem fields_eq_iff : t.format.key (cleared t.format.width a) =
      t.format.key (cleared t.format.width b) ↔
    exponentBits t.format.width a = exponentBits t.format.width b ∧
      fractionBits t.format.width a = fractionBits t.format.width b := by
  rw [exponentBits_eq t ha, exponentBits_eq t hb, fractionBits_eq, fractionBits_eq]
  constructor
  · intro h
    rw [← t.format.key_div, ← t.format.key_div, ← t.format.key_mod, ← t.format.key_mod, h]
    exact ⟨rfl, rfl⟩
  · rintro ⟨he, hf⟩
    rw [t.format.key_eq, t.format.key_eq, he, hf]

theorem fields_lt_iff : t.format.key (cleared t.format.width a) <
      t.format.key (cleared t.format.width b) ↔
    exponentBits t.format.width a < exponentBits t.format.width b ∨
      exponentBits t.format.width a = exponentBits t.format.width b ∧
        fractionBits t.format.width a < fractionBits t.format.width b := by
  rw [exponentBits_eq t ha, exponentBits_eq t hb, fractionBits_eq, fractionBits_eq,
    t.format.key_eq, t.format.key_eq, Nat.mul_comm, Nat.mul_comm (t.format.exponent _)]
  exact quotRem_lt_iff (Nat.mod_lt _ (Nat.two_pow_pos _)) (Nat.mod_lt _ (Nat.two_pow_pos _))

theorem sameFields_iff : sameFields t.format.width a b = true ↔
    t.format.rank (cleared t.format.width a) = t.format.rank (cleared t.format.width b) := by
  rw [Format.rank_eq_iff (notMinusZero_cleared t ha) (notMinusZero_cleared t hb),
    fields_eq_iff t ha hb, sameFields,
    icmpValue_eq_of_lt (signBit_lt t ha) (signBit_lt t hb),
    icmpValue_eq_of_lt (exponentBits_lt t ha) (exponentBits_lt t hb),
    icmpValue_eq_of_lt (fractionBits_lt t) (fractionBits_lt t), signBit_eq t ha, signBit_eq t hb]
  simp

theorem orderFields_lt : orderFields t.format.width a b false =
    (decide (t.format.rank (cleared t.format.width a) <
      t.format.rank (cleared t.format.width b))).toNat := by
  have hxor : ∀ p : Bool, ∀ n < 2, xorValue 1 p.toNat n = (p ^^ decide (n = 1)).toNat := by decide
  have hbit : ∀ n < 2, n = (decide (n = 1)).toNat := by decide
  have hsa : signBit t.format.width a < 2 := signBit_lt t ha
  simp only [Format.rank_lt_iff (notMinusZero_cleared t ha) (notMinusZero_cleared t hb),
    fields_lt_iff t ha hb, fields_lt_iff t hb ha, ← signBit_eq t ha, ← signBit_eq t hb]
  rw [orderFields, icmpValue_eq_of_lt (signBit_lt t ha) (signBit_lt t hb),
    icmpValue_eq_of_lt (exponentBits_lt t ha) (exponentBits_lt t hb), hxor _ _ hsa]
  by_cases hs : signBit t.format.width a = signBit t.format.width b
  · have hlt := icmpValue_ult_of_lt (exponentBits_lt t ha) (exponentBits_lt t hb)
    have hf := icmpValue_ult_of_lt (fractionBits_lt t (a := a)) (fractionBits_lt t (a := b))
    have hf' := icmpValue_ult_of_lt (fractionBits_lt t (a := b)) (fractionBits_lt t (a := a))
    by_cases he : exponentBits t.format.width a = exponentBits t.format.width b
    · rcases Nat.lt_succ_iff_lt_or_eq.mp hsa with h0 | h1
      · have h0 : signBit t.format.width a = 0 := by omega
        simp [← hs, h0, he, hf]
      · simp [← hs, h1, he, hf', icmpValue_ugt]
    · rcases Nat.lt_succ_iff_lt_or_eq.mp hsa with h0 | h1
      · have h0 : signBit t.format.width a = 0 := by omega
        simp [← hs, h0, he, hlt]
      · have hgt : (!decide (exponentBits t.format.width a < exponentBits t.format.width b)) =
            decide (exponentBits t.format.width b < exponentBits t.format.width a) := by
          rw [← decide_not, decide_eq_decide]
          omega
        simp [← hs, h1, Ne.symm he, he, hlt, hgt]
  · simpa [hs] using hbit _ hsa

omit ha hb in
theorem orderFields_gt (w a b : ℕ) : orderFields w a b true = orderFields w b a false := by
  have hlt : ∀ a, signBit w a < 2 ^ 1 := fun a => by
    rw [signBit, truncValue_eq]
    exact Nat.mod_lt _ (by decide)
  rw [orderFields, orderFields, icmpValue_eq_comm 1 (signBit w b),
    icmpValue_eq_comm (intExponentTy w) (exponentBits w b),
    icmpValue_eq_of_lt (hlt a) (hlt b)]
  by_cases hs : signBit w a = signBit w b
  · by_cases h0 : signBit w b = 0 <;> simp [hs, h0, icmpValue_ugt]
  · simp [hs]

end Network

/-- What the networks compute in place of a comparison. -/
def networkValue (f : Format) (pred : FloatPredicate) (a b : ℕ) : Bool :=
  if isSplit pred ∧ (f.IsNaN (a % 2 ^ f.width) ∨ f.IsNaN (b % 2 ^ f.width)) then
    nanCmpResult pred
  else fcmpValue f pred a b

section Number

variable (t : FloatType) {a b : ℕ} (ha : a < 2 ^ t.format.width) (hb : b < 2 ^ t.format.width)
  (hna : ¬t.format.IsNaN a) (hnb : ¬t.format.IsNaN b)

include ha hb hna hnb

/-- On numbers the fields that the networks compare decide the comparison. -/
theorem eval_number (pred : FloatPredicate) : ∃ u v, pred.eval t.format a b = pred.ordered u v ∧
    (u = v ↔ sameFields t.format.width a b = true) ∧
    (decide (u < v)).toNat = orderFields t.format.width a b false ∧
    (decide (v < u)).toNat = orderFields t.format.width a b true := by
  have hna' := mt (isNaN_cleared t ha).mp hna
  have hnb' := mt (isNaN_cleared t hb).mp hnb
  obtain ⟨u, hu⟩ : ∃ u, t.format.decode a = some u := ⟨_, t.format.decode_number hna⟩
  obtain ⟨v, hv⟩ : ∃ v, t.format.decode b = some v := ⟨_, t.format.decode_number hnb⟩
  have hu' := (decode_cleared t ha).trans hu
  have hv' := (decode_cleared t hb).trans hv
  obtain ⟨hlt, heq⟩ := Format.decode_compare hna' hnb' hu' hv'
  obtain ⟨hgt, -⟩ := Format.decode_compare hnb' hna' hv' hu'
  refine ⟨u, v, by simp [FloatPredicate.eval, hu, hv],
    heq.trans (sameFields_iff t ha hb).symm, ?_, ?_⟩
  · rw [orderFields_lt t ha hb]
    simp only [hlt]
  · rw [orderFields_gt, orderFields_lt t hb ha]
    simp only [hgt]

end Number

section Computes

variable {σ : Type} (t : FloatType) (fcmpAs : Format → FloatPredicate → ℕ → ℕ → Bool) {n i : ℕ}
  {op0 op1 : Operand}

theorem truncValue_lt (w a : ℕ) : truncValue w a < 2 ^ w := by
  rw [truncValue_eq]
  exact Nat.mod_lt _ (Nat.two_pow_pos w)

/-- The value of a comparison by its NaN check and its answer on numbers. -/
theorem networkValue_eq {pred : FloatPredicate} (hp : isSplit pred = true) (a b : ℕ) :
    networkValue t.format pred a b = if nanFlag t.format.width (truncValue t.format.width a)
      (truncValue t.format.width b) ≠ 0 then nanCmpResult pred
      else pred.eval t.format (truncValue t.format.width a) (truncValue t.format.width b) := by
  simp only [networkValue, hp, true_and, nanFlag_iff, truncValue_eq, fcmpValue]

section Answers

variable {t} {pred : FloatPredicate} (hp : isSplit pred = true) (a b : ℕ)

include hp

theorem networkValue_equality {isEq : Bool}
    (hord : ∀ u v, pred.ordered u v = (isEq == decide (u = v))) :
    networkValue t.format pred a b = if nanFlag t.format.width (truncValue t.format.width a)
      (truncValue t.format.width b) ≠ 0 then nanCmpResult pred
      else isEq == sameFields t.format.width (truncValue t.format.width a)
        (truncValue t.format.width b) := by
  rw [networkValue_eq t hp]
  split
  · rfl
  · next hnan =>
    rw [nanFlag_iff, not_or] at hnan
    obtain ⟨u, v, heval, heq, -⟩ :=
      eval_number t (truncValue_lt _ a) (truncValue_lt _ b) hnan.1 hnan.2 pred
    rw [heval, hord]
    congr 1
    rw [Bool.eq_iff_iff, decide_eq_true_iff, heq]

theorem networkValue_order {isGt : Bool}
    (hord : ∀ u v, pred.ordered u v = if isGt then decide (v < u) else decide (u < v)) :
    (networkValue t.format pred a b).toNat = if nanFlag t.format.width
      (truncValue t.format.width a) (truncValue t.format.width b) ≠ 0 then
        (nanCmpResult pred).toNat
      else orderFields t.format.width (truncValue t.format.width a)
        (truncValue t.format.width b) isGt := by
  rw [networkValue_eq t hp]
  split
  · rfl
  · next hnan =>
    rw [nanFlag_iff, not_or] at hnan
    obtain ⟨u, v, heval, -, hlt, hgt⟩ :=
      eval_number t (truncValue_lt _ a) (truncValue_lt _ b) hnan.1 hnan.2 pred
    rw [heval, hord]
    cases isGt
    · exact hlt
    · exact hgt

end Answers

theorem splitEqRegion_computes {pred : FloatPredicate} {isEq : Bool} (h1 : op1.Below n)
    (hp : isSplit pred = true) (hord : ∀ u v, pred.ordered u v = (isEq == decide (u = v)))
    (hfc : fcmpAs t.format pred = networkValue t.format pred) :
    (splitEqRegion n t.format.width isEq (nanCmpResult pred) op0 op1 : Region (Op σ)).Computes
      (Op.evalWith fcmpAs) (fcmpInst i t.format pred op0 op1) := by
  intro s
  obtain ⟨s', hmem, hres⟩ := splitEqRegion_result fcmpAs h1 (s := s)
    (a := truncValue t.format.width (op0.value s.1)) rfl rfl isEq (nanCmpResult pred)
  rw [← networkValue_equality hp _ _ hord] at hres
  exact ⟨4, _, s', hres, by simp [fcmpInst, Op.evalWith, hmem, hfc]⟩

theorem splitLtRegion_computes {pred : FloatPredicate} {isGt : Bool} (h1 : op1.Below n)
    (hp : isSplit pred = true)
    (hord : ∀ u v, pred.ordered u v = if isGt then decide (v < u) else decide (u < v))
    (hfc : fcmpAs t.format pred = networkValue t.format pred) :
    (splitLtRegion n t.format.width isGt (nanCmpResult pred) op0 op1 : Region (Op σ)).Computes
      (Op.evalWith fcmpAs) (fcmpInst i t.format pred op0 op1) := by
  intro s
  obtain ⟨s', hmem, hres⟩ := splitLtRegion_result fcmpAs h1 (s := s)
    (a := truncValue t.format.width (op0.value s.1)) rfl rfl isGt (nanCmpResult pred)
  rw [← networkValue_order hp _ _ hord] at hres
  exact ⟨6, _, s', hres, by simp [fcmpInst, Op.evalWith, hmem, hfc]⟩

/-- The network for a comparison computes `networkValue`. -/
theorem splitRegion_computes {pred : FloatPredicate} {R : Region (Op σ)} (h1 : op1.Below n)
    (hR : splitRegion n t.format.width pred op0 op1 = some R)
    (hfc : fcmpAs t.format pred = networkValue t.format pred) :
    R.Computes (Op.evalWith fcmpAs) (fcmpInst i t.format pred op0 op1) := by
  cases pred <;> simp only [splitRegion, Option.some.injEq, reduceCtorEq] at hR <;> subst hR
  case oeq | ueq =>
    exact splitEqRegion_computes t fcmpAs h1 rfl (fun u v => by simp [FloatPredicate.ordered]) hfc
  case one | une =>
    exact splitEqRegion_computes t fcmpAs h1 rfl (fun u v => by simp [FloatPredicate.ordered]) hfc
  case ogt | ugt | olt | ult =>
    exact splitLtRegion_computes t fcmpAs h1 rfl (fun u v => by simp [FloatPredicate.ordered]) hfc

end Computes

end AflPlusPlus.SplitFloatCompares
