import AflPlusPlus.SplitCompares

/-!
# Splitting integer comparisons preserves their value

Each network computes the comparison it replaces. The worklist holds comparisons of the
four predicates that `splitCompare` can halve, with widths that are the target width times
a power of two, so the loop ends and no step of it fails.
-/

namespace AflPlusPlus.SplitCompares
open ControlFlow CompareInstructions

/-! ## Comparing by parts -/

section Halves

variable {h : ℕ} (a b : ℕ)

/-- The high half of a value of width `2 * h`, as the networks compute it. -/
def highHalf (h a : ℕ) : ℕ := truncValue h (lshrValue (2 * h) a h)

theorem highHalf_eq : highHalf h a = a % 2 ^ (2 * h) / 2 ^ h := by
  have hlt : a % 2 ^ (2 * h) < 2 ^ h * 2 ^ h := by
    rw [← pow_add, ← Nat.two_mul]
    exact Nat.mod_lt _ (Nat.two_pow_pos _)
  rw [highHalf, truncValue_eq, lshrValue_eq, Nat.mod_eq_of_lt (Nat.div_lt_of_lt_mul hlt)]

theorem mod_eq_halves : a % 2 ^ (2 * h) = 2 ^ h * (highHalf h a % 2 ^ h) + a % 2 ^ h := by
  have hdvd : 2 ^ h ∣ 2 ^ (2 * h) := Nat.pow_dvd_pow 2 (by omega)
  have hmod : highHalf h a % 2 ^ h = highHalf h a := by
    rw [highHalf, truncValue_eq, Nat.mod_mod]
  rw [hmod, highHalf_eq, ← Nat.mod_mod_of_dvd a hdvd]
  exact (Nat.div_add_mod _ _).symm

theorem lt_halves_iff : a % 2 ^ (2 * h) < b % 2 ^ (2 * h) ↔
    highHalf h a % 2 ^ h < highHalf h b % 2 ^ h ∨
      highHalf h a % 2 ^ h = highHalf h b % 2 ^ h ∧ a % 2 ^ h < b % 2 ^ h := by
  rw [mod_eq_halves a, mod_eq_halves b]
  exact quotRem_lt_iff (Nat.mod_lt _ (Nat.two_pow_pos _)) (Nat.mod_lt _ (Nat.two_pow_pos _))

theorem ult_halves : icmpValue (2 * h) .ult a b =
    (icmpValue h .ult (highHalf h a) (highHalf h b) ||
      !icmpValue h .ult (highHalf h b) (highHalf h a) &&
        icmpValue h .ult (truncValue h a) (truncValue h b)) := by
  have hlt := lt_halves_iff (h := h) a b
  rw [Bool.eq_iff_iff]
  simp only [icmpValue_ult, truncValue_eq, Nat.mod_mod, decide_eq_true_eq, Bool.or_eq_true,
    Bool.and_eq_true, Bool.not_eq_true', decide_eq_false_iff_not]
  omega

theorem eq_halves : icmpValue (2 * h) .eq a b =
    (icmpValue h .eq (highHalf h a) (highHalf h b) &&
      icmpValue h .eq (truncValue h a) (truncValue h b)) := by
  have hlt := lt_halves_iff (h := h) a b
  have hgt := lt_halves_iff (h := h) b a
  rw [Bool.eq_iff_iff]
  simp only [icmpValue_eq, truncValue_eq, Nat.mod_mod, decide_eq_true_eq, Bool.and_eq_true]
  omega

end Halves

section Sign

variable {w : ℕ} (a b : ℕ)

/-- The sign bit of a value of width `w`, as the networks compute it. -/
def signBit (w a : ℕ) : ℕ := truncValue 1 (lshrValue w a (w - 1))

theorem signBit_eq (hw : 0 < w) :
    signBit w a = if 2 ^ (w - 1) ≤ a % 2 ^ w then 1 else 0 := by
  have hlt : a % 2 ^ w < 2 ^ (w - 1) * 2 := by
    rw [← Nat.pow_succ, Nat.succ_eq_add_one, Nat.sub_add_cancel hw]
    exact Nat.mod_lt _ (Nat.two_pow_pos _)
  have hdiv : a % 2 ^ w / 2 ^ (w - 1) < 2 := Nat.div_lt_of_lt_mul hlt
  have hone : 1 ≤ a % 2 ^ w / 2 ^ (w - 1) ↔ 2 ^ (w - 1) ≤ a % 2 ^ w := by
    rw [Nat.le_div_iff_mul_le (Nat.two_pow_pos _), Nat.one_mul]
  rw [signBit, truncValue_eq, lshrValue_eq, Nat.pow_one, Nat.mod_eq_of_lt hdiv]
  by_cases h : 2 ^ (w - 1) ≤ a % 2 ^ w
  · rw [if_pos h]
    have := hone.mpr h
    omega
  · rw [if_neg h, Nat.div_eq_of_lt (Nat.not_le.mp h)]

/-- Equal signs leave the unsigned order; of different signs the larger bit is negative. -/
theorem slt_eq_signBit (hw : 0 < w) : icmpValue w .slt a b =
    if icmpValue 1 .eq (signBit w a) (signBit w b) then icmpValue w .ult a b
    else icmpValue 1 .ugt (signBit w a) (signBit w b) := by
  have hslt : icmpValue w .slt a b = ((decide (2 ^ (w - 1) ≤ a % 2 ^ w) !=
      decide (2 ^ (w - 1) ≤ b % 2 ^ w)) ^^ icmpValue w .ult a b) := by
    simp [icmpValue, IntPredicate.eval, BitVec.slt_eq_ult, BitVec.msb_eq_decide]
  rw [hslt, icmpValue_ugt, icmpValue_ult, icmpValue_ult, icmpValue_eq, signBit_eq a hw,
    signBit_eq b hw]
  by_cases ha : 2 ^ (w - 1) ≤ a % 2 ^ w <;> by_cases hb : 2 ^ (w - 1) ≤ b % 2 ^ w
  · simp [ha, hb]
  · simp [ha, hb]
    omega
  · simp [ha, hb]
    omega
  · simp [ha, hb]

end Sign

section Regions

variable {σ : Type} {n i w : ℕ} {op0 op1 : Operand}

theorem strictPredicate_or {pred newPred : IntPredicate} (hp : strictPredicate pred = some newPred)
    (a b : ℕ) : icmpValue w pred a b = (icmpValue w newPred a b || icmpValue w .eq a b) := by
  have hule : ∀ x y : BitVec w, x.ule y = (x.ult y || x == y) := by
    intro x y
    rw [Bool.eq_iff_iff]
    simp only [BitVec.ule, BitVec.ult, decide_eq_true_eq, Bool.or_eq_true, beq_iff_eq,
      ← BitVec.toNat_inj]
    omega
  have hcomm : ∀ x y : BitVec w, (x == y) = (y == x) := fun x y => Bool.beq_comm
  cases pred <;> simp only [strictPredicate, Option.some.injEq, reduceCtorEq] at hp <;>
    subst hp <;> simp only [icmpValue, IntPredicate.eval, hule, BitVec.sle_eq_slt_or_eq,
      Bool.beq_comm]

theorem orEqualsRegion_computes {pred newPred : IntPredicate} (h0 : op0.Below n)
    (h1 : op1.Below n) (hp : strictPredicate pred = some newPred) :
    (orEqualsRegion (σ := σ) n w newPred op0 op1).Computes Op.eval (cmpInst i w pred op0 op1) := by
  intro s
  refine ⟨2, ?_⟩
  have hv0 := Operand.value_update h0
  have hv1 := Operand.value_update h1
  simp only [cmpInst, Op.evalWith, List.map_cons, List.map_nil, strictPredicate_or hp]
  cases hnew : icmpValue w newPred (op0.value s.1) (op1.value s.1) with
  | true => simp [Region.result, orEqualsRegion, Phi.value, List.lookup, hnew]
  | false =>
    simp [Region.result, Region.walk_br_inner, orEqualsRegion, Phi.value, List.lookup, hv0, hv1,
      hnew]

theorem signedRegion_computes {pred : IntPredicate} (h0 : op0.Below n) (h1 : op1.Below n)
    (hw : 0 < w) (hp : pred = .sgt ∨ pred = .slt) :
    (signedRegion (σ := σ) n w pred op0 op1).Computes Op.eval (cmpInst i w pred op0 op1) := by
  intro s
  refine ⟨2, ?_⟩
  have hv0 := Operand.value_update h0
  have hv1 := Operand.value_update h1
  have hcmp : icmpValue w pred (op0.value s.1) (op1.value s.1) =
      if icmpValue 1 .eq (signBit w (op0.value s.1)) (signBit w (op1.value s.1)) then
        icmpValue w (if pred = .sgt then .ugt else .ult) (op0.value s.1) (op1.value s.1)
      else icmpValue 1 (if pred = .sgt then .ult else .ugt) (signBit w (op0.value s.1))
        (signBit w (op1.value s.1)) := by
    rcases hp with rfl | rfl
    · have h := slt_eq_signBit (op1.value s.1) (op0.value s.1) hw
      rw [icmpValue_eq_comm] at h
      exact h
    · exact slt_eq_signBit (op0.value s.1) (op1.value s.1) hw
  simp only [cmpInst, Op.evalWith, List.map_cons, List.map_nil, hcmp]
  unfold signBit
  split
  · next hsign =>
    simp [Region.result, Region.walk_br_inner, signedRegion, Phi.value, List.lookup, hv0, hv1,
      hsign]
  · next hsign =>
    simp [Region.result, Region.walk_br_inner, signedRegion, Phi.value, List.lookup, hv1, hsign]

theorem splitEqRegion_computes {h : ℕ} {pred : IntPredicate} (h0 : op0.Below n)
    (h1 : op1.Below n) (hp : pred = .eq ∨ pred = .ne) :
    (splitEqRegion (σ := σ) n (2 * h) pred op0 op1).Computes Op.eval
      (cmpInst i (2 * h) pred op0 op1) := by
  intro s
  refine ⟨2, ?_⟩
  have hv0 := Operand.value_update h0
  have hv1 := Operand.value_update h1
  have hhalf : 2 * h / 2 = h := by omega
  simp only [cmpInst, Op.evalWith, List.map_cons, List.map_nil]
  rcases hp with rfl | rfl
  · rw [eq_halves]
    unfold highHalf
    cases hhigh : icmpValue h .eq (truncValue h (lshrValue (2 * h) (op0.value s.1) h))
      (truncValue h (lshrValue (2 * h) (op1.value s.1) h)) <;>
    simp [Region.result, Region.walk_br_inner, splitEqRegion, highHalves, Phi.value, List.lookup,
      hv0, hv1, hhigh, hhalf]
  · rw [icmpValue_ne, eq_halves]
    unfold highHalf
    cases hhigh : icmpValue h .eq (truncValue h (lshrValue (2 * h) (op0.value s.1) h))
      (truncValue h (lshrValue (2 * h) (op1.value s.1) h)) <;>
    simp [Region.result, Region.walk_br_inner, splitEqRegion, highHalves, Phi.value, List.lookup,
      hv0, hv1, hhigh, hhalf, icmpValue_ne]

theorem splitLtRegion_computes {h : ℕ} {pred inv : IntPredicate} (h0 : op0.Below n)
    (h1 : op1.Below n) (hp : pred = .ult ∧ inv = .ugt ∨ pred = .ugt ∧ inv = .ult) :
    (splitLtRegion (σ := σ) n (2 * h) pred inv op0 op1).Computes Op.eval
      (cmpInst i (2 * h) pred op0 op1) := by
  intro s
  refine ⟨3, ?_⟩
  have hv0 := Operand.value_update h0
  have hv1 := Operand.value_update h1
  have hhalf : 2 * h / 2 = h := by omega
  have hcmp : icmpValue (2 * h) pred (op0.value s.1) (op1.value s.1) =
      (icmpValue h pred (highHalf h (op0.value s.1)) (highHalf h (op1.value s.1)) ||
        !icmpValue h inv (highHalf h (op0.value s.1)) (highHalf h (op1.value s.1)) &&
          icmpValue h pred (truncValue h (op0.value s.1)) (truncValue h (op1.value s.1))) := by
    rcases hp with ⟨rfl, rfl⟩ | ⟨rfl, rfl⟩ <;> exact ult_halves _ _
  simp only [cmpInst, Op.evalWith, List.map_cons, List.map_nil, hcmp]
  unfold highHalf
  cases hhigh : icmpValue h pred (truncValue h (lshrValue (2 * h) (op0.value s.1) h))
      (truncValue h (lshrValue (2 * h) (op1.value s.1) h)) with
  | true =>
    simp [Region.result, splitLtRegion, highHalves, Phi.value, List.lookup, hv1, hhigh, hhalf]
  | false =>
    cases hinv : icmpValue h inv (truncValue h (lshrValue (2 * h) (op0.value s.1) h))
      (truncValue h (lshrValue (2 * h) (op1.value s.1) h)) <;>
    simp [Region.result, Region.walk_br_inner, splitLtRegion, highHalves, Phi.value, List.lookup,
      hv0, hv1, hhigh, hinv, hhalf]

end Regions

section RegionsFit

variable {σ : Type} {n w : ℕ} {op0 op1 : Operand} (h0 : op0.Below n) (h1 : op1.Below n)

include h0 h1

theorem orEqualsRegion_wf (pred : IntPredicate) :
    (orEqualsRegion (σ := σ) n w pred op0 op1).Wf n := by
  simp [Region.wf_iff, Block.wf_iff, orEqualsRegion, cmpInst, Terminator.operands,
    Terminator.targets, h0.mono (Nat.le_add_right n 2), h1.mono (Nat.le_add_right n 2)]

theorem signedRegion_wf (pred : IntPredicate) :
    (signedRegion (σ := σ) n w pred op0 op1).Wf n := by
  simp [Region.wf_iff, Block.wf_iff, signedRegion, cmpInst, lshrInst, truncInst,
    Terminator.operands, Terminator.targets, h0.mono (Nat.le_add_right n 7),
    h1.mono (Nat.le_add_right n 7)]

theorem splitEqRegion_wf (pred : IntPredicate) :
    (splitEqRegion (σ := σ) n w pred op0 op1).Wf n := by
  by_cases hp : pred = .eq <;>
  simp [Region.wf_iff, Block.wf_iff, splitEqRegion, highHalves, cmpInst, lshrInst, truncInst,
    Terminator.operands, Terminator.targets, h0.mono (Nat.le_add_right n 8),
    h1.mono (Nat.le_add_right n 8), hp]

theorem splitLtRegion_wf (pred inv : IntPredicate) :
    (splitLtRegion (σ := σ) n w pred inv op0 op1).Wf n := by
  simp [Region.wf_iff, Block.wf_iff, splitLtRegion, highHalves, cmpInst, lshrInst, truncInst,
    Terminator.operands, Terminator.targets, h0.mono (Nat.le_add_right n 9),
    h1.mono (Nat.le_add_right n 9)]

end RegionsFit

/-! ## The worklist -/

/-- The predicates that `splitCompare` can halve. -/
def Splittable (pred : IntPredicate) : Prop :=
  pred = .eq ∨ pred = .ne ∨ pred = .ugt ∨ pred = .ult

section Worklist

variable {σ : Type} {target : ℕ} {F : Func (Op σ)} {i k : ℕ} {R : Region (Op σ)}

/-- The instruction is a comparison that needs `k` rounds of halving. -/
def Halvable (target : ℕ) (I : Option (Instr (Op σ))) (i k : ℕ) : Prop :=
  ∃ pred op0 op1, I = some (cmpInst i (target * 2 ^ k) pred op0 op1) ∧ Splittable pred

/-- A worklist of different comparisons, each with the rounds of halving it needs. -/
def Waiting (target : ℕ) (F : Func (Op σ)) (ps : List (ℕ × ℕ)) : Prop :=
  (ps.map Prod.fst).Nodup ∧ ∀ p ∈ ps, Halvable target (F.find p.1) p.1 p.2

/-- Bounds the number of comparisons that the loop still takes from the worklist. -/
def weight (ps : List (ℕ × ℕ)) : ℕ := (ps.map fun p => 4 ^ p.2).sum

@[simp] theorem weight_cons (p : ℕ × ℕ) (ps : List (ℕ × ℕ)) :
    weight (p :: ps) = 4 ^ p.2 + weight ps := by
  simp [weight]

/-- When a comparison is replaced, the rest of the worklist waits on, and comparisons of the
network may join it. -/
theorem Waiting.replaceInst {ps qs : List (ℕ × ℕ)} {I : Instr (Op σ)} (hF : F.Wf)
    (hI : F.find i = some I) (h : Waiting target F ((i, k) :: ps))
    (hnodup : (qs.map Prod.fst).Nodup) (hqs : ∀ q ∈ qs, F.nextId ≤ q.1)
    (hhalv : ∀ q ∈ qs, Halvable target (R.find q.1) q.1 q.2) :
    Waiting target (F.replaceInst i R) (qs ++ ps) := by
  have hlt : ∀ p ∈ ps, p.1 < F.nextId := by
    intro p hp
    obtain ⟨_, _, _, hfind, -⟩ := h.2 p (List.mem_cons_of_mem _ hp)
    exact (hF.find_below hfind).1
  obtain ⟨hi, hnd⟩ := List.nodup_cons.mp h.1
  refine ⟨?_, fun p hp => ?_⟩
  · rw [List.map_append, List.nodup_append]
    refine ⟨hnodup, hnd, fun a ha b hb => ?_⟩
    obtain ⟨q, hq, rfl⟩ := List.mem_map.mp ha
    obtain ⟨p, hp, rfl⟩ := List.mem_map.mp hb
    have := hqs q hq
    have := hlt p hp
    omega
  · rcases List.mem_append.mp hp with hp | hp
    · rw [replaceInst_find_new hF hI (hqs p hp)]
      exact hhalv p hp
    · have hne : p.1 ≠ i := by
        rintro rfl
        exact hi (List.mem_map.mpr ⟨p, hp, rfl⟩)
      obtain ⟨pred, op0, op1, hfind, hp'⟩ := h.2 p (List.mem_cons_of_mem _ hp)
      exact ⟨pred, op0, op1, replaceInst_find_old hF hI (hlt p hp) hne hfind, hp'⟩

theorem getCompare_eq {w : ℕ} {pred : IntPredicate} {op0 op1 : Operand}
    (h : F.find i = some (cmpInst i w pred op0 op1)) :
    getCompare F i = some (w, pred, op0, op1) := by
  rw [getCompare, h]
  rfl

theorem weight_append (ps qs : List (ℕ × ℕ)) : weight (ps ++ qs) = weight ps + weight qs := by
  simp [weight]

/-- The function, and what waits after it, when a comparison on the worklist is replaced by a
network and some comparisons of the network join the worklist. -/
theorem Waiting.step {ps qs : List (ℕ × ℕ)} {I : Instr (Op σ)} (hF : F.Wf)
    (hI : F.find i = some I) (h : Waiting target F ((i, k) :: ps)) (hwf : R.Wf F.nextId)
    (hR : R.Computes Op.eval I) (hnodup : (qs.map Prod.fst).Nodup)
    (hqs : ∀ q ∈ qs, F.nextId ≤ q.1 ∧ Halvable target (R.find q.1) q.1 q.2)
    (hweight : weight qs < 4 ^ k) :
    (F.replaceInst i R).Wf ∧ Refines Op.eval F (F.replaceInst i R) ∧
      Waiting target (F.replaceInst i R) (qs ++ ps) ∧
      weight (qs ++ ps) < weight ((i, k) :: ps) := by
  refine ⟨replaceInst_wf hF hI hwf, replaceInst_refines Op.eval hF hI hwf hR,
    h.replaceInst hF hI hnodup (fun q hq => (hqs q hq).1) fun q hq => (hqs q hq).2, ?_⟩
  rw [weight_append, weight_cons]
  exact Nat.add_lt_add_right hweight _

/-- The halves that `splitCompare` pushes when they are still wider than the target. -/
def pushedHalves (target half high low m : ℕ) : List (ℕ × ℕ) :=
  if half > target then [(low, m), (high, m)] else []

theorem map_pushedHalves (target half high low m : ℕ) (worklist : List ℕ) :
    (pushedHalves target half high low m).map Prod.fst ++ worklist =
      if half > target then low :: high :: worklist else worklist := by
  unfold pushedHalves
  split <;> rfl

theorem weight_pushedHalves_le (target half high low m : ℕ) :
    weight (pushedHalves target half high low m) ≤ 2 * 4 ^ m := by
  unfold pushedHalves
  split
  · simp [weight]
    omega
  · simp [weight]

theorem splitEq_halvable {n m : ℕ} {pred : IntPredicate} {op0 op1 : Operand}
    (hp : Splittable pred) :
    ∀ q ∈ pushedHalves target (target * 2 ^ m) (n + 4) (n + 7) m, n ≤ q.1 ∧ Halvable target
      ((splitEqRegion (σ := σ) n (2 * (target * 2 ^ m)) pred op0 op1).find q.1) q.1 q.2 := by
  have hhalf : 2 * (target * 2 ^ m) / 2 = target * 2 ^ m := by omega
  unfold pushedHalves
  split <;> simp [Halvable, Region.find, splitEqRegion, highHalves, cmpInst, lshrInst, truncInst,
    hhalf, hp]

theorem splitLt_halvable {n m : ℕ} {pred inv : IntPredicate} {op0 op1 : Operand}
    (hp : Splittable pred) (hinv : Splittable inv) :
    ∀ q ∈ pushedHalves target (target * 2 ^ m) (n + 4) (n + 8) m ++ [(n + 5, m)],
      n ≤ q.1 ∧ Halvable target
        ((splitLtRegion (σ := σ) n (2 * (target * 2 ^ m)) pred inv op0 op1).find q.1) q.1 q.2 := by
  have hhalf : 2 * (target * 2 ^ m) / 2 = target * 2 ^ m := by omega
  unfold pushedHalves
  split <;> simp [Halvable, Region.find, splitLtRegion, highHalves, cmpInst, lshrInst, truncInst,
    hhalf, hp, hinv]

/-- One iteration of the loop: the step succeeds, keeps the meaning of the function, and
what waits afterwards weighs less. -/
theorem splitCompare_step (ht : 0 < target) (hF : F.Wf) {ps : List (ℕ × ℕ)}
    (h : Waiting target F ((i, k) :: ps)) :
    ∃ F' ps', splitCompare target i (F, ps.map Prod.fst) = some (F', ps'.map Prod.fst) ∧ F'.Wf ∧
      Refines Op.eval F F' ∧ Waiting target F' ps' ∧ weight ps' < weight ((i, k) :: ps) := by
  obtain ⟨pred, op0, op1, hfind, hpred⟩ := h.2 (i, k) List.mem_cons_self
  have hget := getCompare_eq hfind
  obtain ⟨-, hbelow⟩ := hF.find_below hfind
  have h0 : op0.Below F.nextId := hbelow op0 (by simp [cmpInst])
  have h1 : op1.Below F.nextId := hbelow op1 (by simp [cmpInst])
  cases k with
  | zero =>
    refine ⟨F, ps, ?_, hF, fun _ _ hr => hr, ⟨(List.nodup_cons.mp h.1).2, fun p hp =>
      h.2 p (List.mem_cons_of_mem _ hp)⟩, by simp⟩
    simp [splitCompare, hget]
  | succ m =>
    have hw : target * 2 ^ (m + 1) = 2 * (target * 2 ^ m) := by
      rw [pow_succ]
      ac_rfl
    have hle : target ≤ target * 2 ^ m := Nat.le_mul_of_pos_right _ (Nat.two_pow_pos m)
    have hhalf : 2 * (target * 2 ^ m) / 2 = target * 2 ^ m := by omega
    have hne : 2 * (target * 2 ^ m) ≠ target := by omega
    have hpow : 4 ^ (m + 1) = 4 * 4 ^ m := by rw [pow_succ, Nat.mul_comm]
    have hpos : 0 < 4 ^ m := Nat.pow_pos (by omega)
    rw [hw] at hfind hget
    by_cases heq : pred = .eq ∨ pred = .ne
    · have hweight :=
        weight_pushedHalves_le target (target * 2 ^ m) (F.nextId + 4) (F.nextId + 7) m
      refine ⟨_, _, ?_, h.step hF hfind (splitEqRegion_wf h0 h1 pred)
        (splitEqRegion_computes h0 h1 heq) ?_ (splitEq_halvable hpred) (by omega)⟩
      · rw [List.map_append, map_pushedHalves]
        rcases heq with rfl | rfl <;> simp [splitCompare, hget, hne, hhalf]
      · unfold pushedHalves
        split <;> simp
    · obtain ⟨inv, hsinv, hinv⟩ : ∃ inv : IntPredicate, Splittable inv ∧
          (pred = .ult ∧ inv = .ugt ∨ pred = .ugt ∧ inv = .ult) := by
        rcases hpred with rfl | rfl | rfl | rfl <;> simp [Splittable] at heq ⊢
      have hweight :=
        weight_pushedHalves_le target (target * 2 ^ m) (F.nextId + 4) (F.nextId + 8) m
      refine ⟨_, _, ?_, h.step hF hfind (splitLtRegion_wf h0 h1 pred inv)
        (splitLtRegion_computes h0 h1 hinv) ?_ (splitLt_halvable hpred hsinv) ?_⟩
      · rw [List.append_assoc, List.map_append, map_pushedHalves]
        rcases hinv with ⟨rfl, rfl⟩ | ⟨rfl, rfl⟩ <;> simp [splitCompare, hget, hne, hhalf]
      · unfold pushedHalves
        split <;> simp
      · rw [weight_append, weight_cons, hpow]
        simp only [weight, List.map_nil, List.sum_nil] at hweight ⊢
        omega

theorem one_le_weight (p : ℕ × ℕ) (ps : List (ℕ × ℕ)) : 1 ≤ weight (p :: ps) := by
  have hpos : 0 < 4 ^ p.2 := Nat.pow_pos (by omega)
  rw [weight_cons]
  omega

/-- The loop ends and keeps the meaning of the function. -/
theorem splitWorklist_refines {bitw fuel : ℕ} (ht : 0 < target) (hgt : bitw > target)
    (hF : F.Wf) {ps : List (ℕ × ℕ)} (h : Waiting target F ps) (hfuel : weight ps ≤ fuel) :
    ∃ F', splitWorklist target bitw fuel (F, ps.map Prod.fst) = some F' ∧ Refines Op.eval F F' := by
  induction fuel generalizing F ps with
  | zero =>
    cases ps with
    | nil => exact ⟨F, by simp [splitWorklist], fun _ _ hr => hr⟩
    | cons p ps =>
      have := one_le_weight p ps
      omega
  | succ fuel ih =>
    cases ps with
    | nil => exact ⟨F, by simp [splitWorklist], fun _ _ hr => hr⟩
    | cons p ps =>
      obtain ⟨i, k⟩ := p
      obtain ⟨F', ps', hstep, hF', href, hwait, hlt⟩ := splitCompare_step ht hF h
      obtain ⟨F'', hrun, href'⟩ := ih hF' hwait (by omega)
      refine ⟨F'', ?_, href.trans Op.eval href'⟩
      rw [List.map_cons, splitWorklist, if_pos hgt, hstep]
      exact hrun

theorem splitWorklist_skip {bitw fuel : ℕ} (hle : ¬bitw > target) {worklist : List ℕ}
    (hfuel : worklist.length ≤ fuel) : splitWorklist target bitw fuel (F, worklist) = some F := by
  induction fuel generalizing worklist with
  | zero =>
    obtain rfl : worklist = [] := List.length_eq_zero_iff.mp (by omega)
    simp [splitWorklist]
  | succ fuel ih =>
    cases worklist with
    | nil => simp [splitWorklist]
    | cons i worklist =>
      rw [splitWorklist, if_neg hle]
      exact ih (by simpa using hfuel)

end Worklist

/-! ## The simplifications -/

section Simplify

variable {σ : Type} {F : Func (Op σ)} {i w : ℕ} {pred : IntPredicate} {op0 op1 : Operand}

/-- The outcome of a simplification of a comparison of width `w`: the worklist names
comparisons of that width that can be halved. -/
structure Simplified (F : Func (Op σ)) (w : ℕ) (s : PassState σ) : Prop where
  wf : s.1.Wf
  refines : Refines Op.eval F s.1
  nodup : s.2.Nodup
  length_le : s.2.length ≤ 2
  compares : ∀ j ∈ s.2, ∃ pred op0 op1,
    s.1.find j = some (cmpInst j w pred op0 op1) ∧ Splittable pred

theorem simplifySignedCompare_spec (hF : F.Wf) (hfind : F.find i = some (cmpInst i w pred op0 op1))
    (hw : 0 < w) (hp : pred = .sgt ∨ pred = .slt) (worklist : List ℕ) :
    ∃ F', simplifySignedCompare i (F, worklist) = some (F', (F.nextId + 6) :: worklist) ∧
      F'.Wf ∧ Refines Op.eval F F' ∧ (∃ newPred, F'.find (F.nextId + 6) =
        some (cmpInst (F.nextId + 6) w newPred op0 op1) ∧ Splittable newPred) ∧
      ∀ j J, j ≠ i → F.find j = some J → F'.find j = some J := by
  obtain ⟨-, hbelow⟩ := hF.find_below hfind
  have h0 : op0.Below F.nextId := hbelow op0 (by simp [cmpInst])
  have h1 : op1.Below F.nextId := hbelow op1 (by simp [cmpInst])
  have hwf := signedRegion_wf (σ := σ) (w := w) h0 h1 pred
  refine ⟨F.replaceInst i (signedRegion F.nextId w pred op0 op1), ?_, replaceInst_wf hF hfind hwf,
    replaceInst_refines Op.eval hF hfind hwf (signedRegion_computes h0 h1 hw hp),
    ⟨if pred = .sgt then .ugt else .ult, ?_, ?_⟩, fun j J hne hJ =>
      replaceInst_find_old hF hfind (hF.find_below hJ).1 hne hJ⟩
  · simp [simplifySignedCompare, getCompare_eq hfind]
  · rw [replaceInst_find_new hF hfind (by omega)]
    simp [Region.find, signedRegion, cmpInst, lshrInst, truncInst]
  · rcases hp with rfl | rfl <;> simp [Splittable]

theorem simplifyOrEqualsCompare_spec (hF : F.Wf)
    (hfind : F.find i = some (cmpInst i w pred op0 op1)) (hw : 0 < w) {newPred : IntPredicate}
    (hp : strictPredicate pred = some newPred) :
    ∃ s, simplifyOrEqualsCompare i (F, []) = some s ∧ s.2 ≠ [] ∧ Simplified F w s := by
  obtain ⟨-, hbelow⟩ := hF.find_below hfind
  have h0 : op0.Below F.nextId := hbelow op0 (by simp [cmpInst])
  have h1 : op1.Below F.nextId := hbelow op1 (by simp [cmpInst])
  have hwf := orEqualsRegion_wf (σ := σ) (w := w) h0 h1 newPred
  have hF' := replaceInst_wf hF hfind hwf
  have href := replaceInst_refines Op.eval hF hfind hwf (orEqualsRegion_computes h0 h1 hp)
  have hnp : (F.replaceInst i (orEqualsRegion F.nextId w newPred op0 op1)).find F.nextId =
      some (cmpInst F.nextId w newPred op0 op1) := by
    rw [replaceInst_find_new hF hfind (Nat.le_refl _)]
    simp [Region.find, orEqualsRegion, cmpInst]
  have heq : (F.replaceInst i (orEqualsRegion F.nextId w newPred op0 op1)).find (F.nextId + 1) =
      some (cmpInst (F.nextId + 1) w .eq op0 op1) := by
    rw [replaceInst_find_new hF hfind (by omega)]
    simp [Region.find, orEqualsRegion, cmpInst]
  by_cases hsigned : newPred = .sgt ∨ newPred = .slt
  · obtain ⟨F'', hrun, hwf'', href'', ⟨p, hp', hsplit⟩, hold⟩ :=
      simplifySignedCompare_spec hF' hnp hw hsigned []
    have heq'' := hold _ _ (by omega) heq
    rw [replaceInst_nextId] at hrun hp'
    refine ⟨(F'', [F.nextId + 1, F.nextId + 2 + 6]), ?_, by simp,
      ⟨hwf'', href.trans Op.eval href'', by simp, by simp, ?_⟩⟩
    · simp only [simplifyOrEqualsCompare, getCompare_eq hfind, hp, hsigned, if_true,
        Option.bind_eq_bind, Option.bind_some]
      exact congrArg (Option.bind · _) hrun
    · intro j hj
      rcases List.mem_pair.mp hj with rfl | rfl
      · exact ⟨_, _, _, heq'', .inl rfl⟩
      · exact ⟨_, _, _, hp', hsplit⟩
  · refine ⟨(F.replaceInst i (orEqualsRegion F.nextId w newPred op0 op1), [F.nextId + 1]), ?_,
      by simp, ⟨hF', href, by simp, by simp, ?_⟩⟩
    · simp only [simplifyOrEqualsCompare, getCompare_eq hfind, hp, hsigned, if_false,
        Option.bind_eq_bind, Option.bind_some]
    · intro j hj
      obtain rfl := List.mem_singleton.mp hj
      exact ⟨_, _, _, heq, .inl rfl⟩

/-- What the worklist is filled with before the loop. -/
theorem simplified (hF : F.Wf) (hfind : F.find i = some (cmpInst i w pred op0 op1)) (hw : 0 < w) :
    ∃ s, Simplified F w s ∧ ∀ fuel target,
      simplifyAndSplit fuel target i F = splitWorklist target w fuel s := by
  have hget := getCompare_eq hfind
  have hone : Splittable pred → Simplified F w (F, [i]) := fun hp =>
    ⟨hF, fun _ _ hr => hr, by simp, by simp, fun j hj => by
      obtain rfl := List.mem_singleton.mp hj
      exact ⟨_, _, _, hfind, hp⟩⟩
  have hstrict : ∀ newPred, strictPredicate pred = some newPred →
      ∃ s, (simplifyOrEqualsCompare i (F, [])).getD (F, []) = s ∧ s.2 ≠ [] ∧ Simplified F w s := by
    intro newPred hp
    obtain ⟨s, hs, hne, hspec⟩ := simplifyOrEqualsCompare_spec hF hfind hw hp
    exact ⟨s, by rw [hs]; rfl, hne, hspec⟩
  have hsigned : pred = .sgt ∨ pred = .slt →
      ∃ s, (simplifySignedCompare i (F, [])).getD (F, []) = s ∧ s.2 ≠ [] ∧ Simplified F w s := by
    intro hp
    obtain ⟨F', hs, hwf, href, ⟨p, hp', hsplit⟩, -⟩ :=
      simplifySignedCompare_spec hF hfind hw hp []
    refine ⟨(F', [F.nextId + 6]), by rw [hs]; rfl, by simp, ⟨hwf, href, by simp, by simp, ?_⟩⟩
    intro j hj
    obtain rfl := List.mem_singleton.mp hj
    exact ⟨_, _, _, hp', hsplit⟩
  cases pred with
  | eq => exact ⟨_, hone (.inl rfl), fun _ _ => by simp [simplifyAndSplit, hget]⟩
  | ne => exact ⟨_, hone (.inr (.inl rfl)), fun _ _ => by simp [simplifyAndSplit, hget]⟩
  | ugt => exact ⟨_, hone (.inr (.inr (.inl rfl))), fun _ _ => by simp [simplifyAndSplit, hget]⟩
  | ult => exact ⟨_, hone (.inr (.inr (.inr rfl))), fun _ _ => by simp [simplifyAndSplit, hget]⟩
  | uge | ule | sge | sle =>
    obtain ⟨s, hs, hne, hspec⟩ := hstrict _ rfl
    exact ⟨s, hspec, fun _ _ => by simp [simplifyAndSplit, hget, hs, hne]⟩
  | sgt | slt =>
    obtain ⟨s, hs, hne, hspec⟩ := hsigned (by simp)
    exact ⟨s, hspec, fun _ _ => by simp [simplifyAndSplit, hget, hs, hne]⟩

/-- In every function, replacing a comparison by the network that `simplifyAndSplit` builds
for it keeps every result of the function. -/
theorem simplifyAndSplit_refines {a : ℕ} (b : ℕ) (hF : F.Wf)
    (hfind : F.find i = some (cmpInst i (2 ^ a) pred op0 op1)) {fuel : ℕ}
    (hfuel : 2 * 4 ^ a ≤ fuel) :
    ∃ F', simplifyAndSplit fuel (2 ^ b) i F = some F' ∧ Refines Op.eval F F' := by
  obtain ⟨s, hs, hrun⟩ := simplified hF hfind (Nat.two_pow_pos a)
  have hone : 1 ≤ 4 ^ a := Nat.one_le_pow _ _ (by omega)
  have hlen := hs.length_le
  rw [hrun]
  by_cases hgt : 2 ^ a > 2 ^ b
  · have hab : b < a := (Nat.pow_lt_pow_iff_right (by omega)).mp hgt
    have hwait : Waiting (2 ^ b) s.1 (s.2.map fun j => (j, a - b)) := by
      refine ⟨by simpa [Function.comp_def] using hs.nodup, fun p hp => ?_⟩
      obtain ⟨j, hj, rfl⟩ := List.mem_map.mp hp
      have hwidth : 2 ^ b * 2 ^ (a - b) = 2 ^ a := by
        rw [← pow_add, Nat.add_sub_cancel' hab.le]
      simpa only [Halvable, hwidth] using hs.compares j hj
    have hweight : weight (s.2.map fun j => (j, a - b)) ≤ fuel := by
      have hle : 4 ^ (a - b) ≤ 4 ^ a := Nat.pow_le_pow_right (by omega) (by omega)
      calc weight (s.2.map fun j => (j, a - b))
          = s.2.length * 4 ^ (a - b) := by simp [weight, Function.comp_def]
        _ ≤ 2 * 4 ^ a := Nat.mul_le_mul hlen hle
        _ ≤ fuel := hfuel
    obtain ⟨F', hsplit, href⟩ :=
      splitWorklist_refines (Nat.two_pow_pos b) hgt hs.wf hwait hweight
    have hmap : (s.2.map fun j => (j, a - b)).map Prod.fst = s.2 := by simp [Function.comp_def]
    rw [hmap] at hsplit
    exact ⟨F', hsplit, hs.refines.trans Op.eval href⟩
  · exact ⟨s.1, splitWorklist_skip hgt (by omega), hs.refines⟩

end Simplify

/-- The network for a comparison of two values of a width that is a power of two, such as
`i8` to `i256`, for every predicate and every target width that is a power of two, computes
the comparison. -/
theorem simplifyAndSplit_evaluates (a b : ℕ) (pred : IntPredicate) (x y : BitVec (2 ^ a)) :
    ∃ F, simplifyAndSplit (2 * 4 ^ a) (2 ^ b) 2
        (singleFunction (.icmp (2 ^ a) pred) [.reg 0, .reg 1]) = some F ∧
      Returns Op.eval F (arguments x.toNat y.toNat) ((pred.eval x y).toNat, ()) := by
  have hF : (singleFunction (σ := Unit) (.icmp (2 ^ a) pred) [.reg 0, .reg 1]).Wf :=
    singleFunction_wf _ (by simp)
  have hfind : (singleFunction (σ := Unit) (.icmp (2 ^ a) pred) [.reg 0, .reg 1]).find 2 =
      some (cmpInst 2 (2 ^ a) pred (.reg 0) (.reg 1)) := rfl
  obtain ⟨F, hrun, href⟩ := simplifyAndSplit_refines b hF hfind (Nat.le_refl _)
  refine ⟨F, hrun, href _ _ ⟨1, ?_⟩⟩
  simp [run, singleFunction, execInstr, Op.evalWith, icmpValue, arguments, Terminator.exec]

end AflPlusPlus.SplitCompares
