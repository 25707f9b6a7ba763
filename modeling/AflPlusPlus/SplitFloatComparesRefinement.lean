import AflPlusPlus.SplitFloatComparesSpec

/-!
# The functions that the floating-point passes make

The networks fit into any function. The loop of `splitFPCompares` replaces every comparison
of a function that it selects, and what remains gives the results of the function with its
comparisons answered by the networks. For a single comparison this decides exactly when
both passes together keep its value.
-/

namespace AflPlusPlus.SplitFloatCompares
open ControlFlow CompareInstructions FloatFormats

/-! ## The networks fit into the function -/

section Fits

variable {σ : Type} {n w : ℕ} {op0 op1 : Operand}

/-- Integer instructions that define different registers between `n + lo` and `n + hi`. -/
structure Emitted (n lo hi : ℕ) (body : List (Instr (Op σ))) : Prop where
  id : ∀ I ∈ body, n + lo ≤ I.id ∧ I.id < n + hi
  nodup : (body.map Instr.id).Nodup
  args : ∀ I ∈ body, ∀ a ∈ I.args, a.Below (n + 32)
  integer : ∀ I ∈ body, ∀ f p, I.op ≠ .fcmp f p

theorem Emitted.append {l u a b c d : ℕ} {xs ys : List (Instr (Op σ))} (hx : Emitted n a b xs)
    (hy : Emitted n c d ys) (hdisj : b ≤ c ∨ d ≤ a) (hl : l ≤ a ∧ l ≤ c) (hu : b ≤ u ∧ d ≤ u) :
    Emitted n l u (xs ++ ys) where
  id I hI := by
    rcases List.mem_append.mp hI with h | h
    · have := hx.id I h
      omega
    · have := hy.id I h
      omega
  nodup := by
    rw [List.map_append, List.nodup_append]
    refine ⟨hx.nodup, hy.nodup, fun i hi j hj => ?_⟩
    obtain ⟨I, hI, rfl⟩ := List.mem_map.mp hi
    obtain ⟨J, hJ, rfl⟩ := List.mem_map.mp hj
    have := hx.id I hI
    have := hy.id J hJ
    omega
  args I hI := (List.mem_append.mp hI).elim (hx.args I) (hy.args I)
  integer I hI := (List.mem_append.mp hI).elim (hx.integer I) (hy.integer I)

theorem nanCheck_emitted (h0 : op0.Below n) (h1 : op1.Below n) :
    Emitted (σ := σ) n 0 7 (nanCheck n w op0 op1) := by
  constructor <;> simp [nanCheck, cmpInst, h0.mono (Nat.le_add_right n 32),
    h1.mono (Nat.le_add_right n 32)]

theorem nonanBody_emitted : Emitted (σ := σ) n 7 16 (nonanBody n w) := by
  constructor <;> simp [nonanBody, cmpInst, lshrInst, truncInst]

theorem exponentBody_emitted : Emitted (σ := σ) n 16 22 (exponentBody n w) := by
  unfold exponentBody
  split <;> constructor <;> simp [lshrInst, truncInst]

theorem fractionSources_below : (Operand.reg (fractionSources n w).1).Below (n + 32) ∧
    (Operand.reg (fractionSources n w).2).Below (n + 32) := by
  unfold fractionSources
  split <;> simp

theorem fractionBody_emitted : Emitted (σ := σ) n 25 29 (fractionBody n w) := by
  obtain ⟨h0, h1⟩ := fractionSources_below (n := n) (w := w)
  unfold fractionBody
  split <;> split <;> constructor <;> simp_all [truncInst]

theorem exponents_below : (Operand.reg (exponents n w).1).Below (n + 32) ∧
    (Operand.reg (exponents n w).2).Below (n + 32) := by
  unfold exponents
  split <;> simp

theorem fractions_below : (Operand.reg (fractions n w).1).Below (n + 32) ∧
    (Operand.reg (fractions n w).2).Below (n + 32) := by
  unfold fractions
  split
  · simp
  · exact fractionSources_below

theorem cmpInst_emitted {k width : ℕ} {pred : IntPredicate} {a b : Operand}
    (ha : a.Below (n + 32)) (hb : b.Below (n + 32)) :
    Emitted (σ := σ) n k (k + 1) [cmpInst (n + k) width pred a b] := by
  constructor <;> simp [cmpInst, ha, hb]

/-- A network fits when its blocks are emitted and its edges stay inside. -/
theorem wf_of_emitted {R : Region (Op σ)} (hsize : R.size = 32)
    (h : Emitted n 0 32 (R.head ++ R.blocks.flatMap Block.body))
    (hphi : ∀ B ∈ R.blocks, ∀ φ ∈ B.phis, n ≤ φ.id ∧ ∀ e ∈ φ.incoming,
      e.1.Within R.blocks.length ∧ e.2.Below (n + 32))
    (hterm : ∀ t ∈ R.terminator :: R.blocks.map Block.terminator,
      (∀ o ∈ t.operands, o.Below (n + 32)) ∧ ∀ l ∈ t.targets, l.Within R.blocks.length)
    (hinc : ∀ e ∈ R.incoming, e.1.Within R.blocks.length ∧ e.2.Below (n + 32)) : R.Wf n := by
  have hhead : ∀ I ∈ R.head, I ∈ R.head ++ R.blocks.flatMap Block.body :=
    fun I hI => List.mem_append_left _ hI
  have hblock : ∀ B ∈ R.blocks, ∀ I ∈ B.body, I ∈ R.head ++ R.blocks.flatMap Block.body :=
    fun B hB I hI => List.mem_append_right _ (List.mem_flatMap.mpr ⟨B, hB, hI⟩)
  constructor
  · exact fun I hI => Nat.le_of_add_right_le (h.id I (hhead I hI)).1
  · exact fun B hB => ⟨fun φ hφ => (hphi B hB φ hφ).1, fun I hI => (h.id I (hblock B hB I hI)).1⟩
  · rw [hsize]
    exact ⟨by simp, fun I hI => (h.id I (hhead I hI)).2, fun I hI => h.args I (hhead I hI),
      (hterm _ List.mem_cons_self).1, (hterm _ List.mem_cons_self).2⟩
  · intro B hB
    have hB' := hterm _ (List.mem_cons_of_mem _ (List.mem_map_of_mem hB))
    rw [hsize]
    exact ⟨fun φ hφ => (hphi B hB φ hφ).2, fun I hI => (h.id I (hblock B hB I hI)).2,
      fun I hI => h.args I (hblock B hB I hI), hB'.1, hB'.2⟩
  · exact h.nodup
  · rw [hsize]
    exact hinc

section

variable (h0 : op0.Below n) (h1 : op1.Below n)

include h0 h1

theorem splitEqRegion_emitted (isEq nanResult : Bool) :
    Emitted n 0 32 ((splitEqRegion (σ := σ) n w isEq nanResult op0 op1).head ++
      (splitEqRegion (σ := σ) n w isEq nanResult op0 op1).blocks.flatMap Block.body) := by
  have hexp (pred : IntPredicate) : Emitted (σ := σ) n 16 23 (exponentBody n w ++
      [cmpInst (n + 22) (intExponentTy w) pred (.reg (exponents n w).1)
        (.reg (exponents n w).2)]) :=
    exponentBody_emitted.append (cmpInst_emitted exponents_below.1 exponents_below.2)
      (by omega) (by omega) (by omega)
  have hfrac (pred : IntPredicate) : Emitted (σ := σ) n 25 30 (fractionBody n w ++
      [cmpInst (n + 29) (fractionWidth w) pred (.reg (fractions n w).1)
        (.reg (fractions n w).2)]) :=
    fractionBody_emitted.append (cmpInst_emitted fractions_below.1 fractions_below.2)
      (by omega) (by omega) (by omega)
  have hinner (pred : IntPredicate) := (hexp pred).append (l := 16) (u := 30) (hfrac pred)
    (by omega) (by omega) (by omega)
  have hblocks (pred : IntPredicate) := (nonanBody_emitted (w := w)).append (l := 7) (u := 30)
    (hinner pred) (by omega) (by omega) (by omega)
  have hall (pred : IntPredicate) := (nanCheck_emitted (w := w) h0 h1).append (l := 0) (u := 32)
    (hblocks pred) (by omega) (by omega) (by omega)
  simpa [splitEqRegion, nonanBlock] using hall (if isEq then .eq else .ne)

theorem splitLtRegion_emitted (isGt nanResult : Bool) :
    Emitted n 0 32 ((splitLtRegion (σ := σ) n w isGt nanResult op0 op1).head ++
      (splitLtRegion (σ := σ) n w isGt nanResult op0 op1).blocks.flatMap Block.body) := by
  have hexp : Emitted (σ := σ) n 16 23 (exponentBody n w ++
      [cmpInst (n + 22) (intExponentTy w) .eq (.reg (exponents n w).1) (.reg (exponents n w).2)]) :=
    exponentBody_emitted.append (cmpInst_emitted exponents_below.1 exponents_below.2)
      (by omega) (by omega) (by omega)
  have hxor : Emitted (σ := σ) n 24 25 [⟨n + 24, .xor 1, [.reg (n + 23), .reg (n + 12)]⟩] := by
    constructor <;> simp
  have hsign (pred : IntPredicate) : Emitted (σ := σ) n 23 25 ([cmpInst (n + 23) (intExponentTy w)
      pred (.reg (exponents n w).1) (.reg (exponents n w).2)] ++
      [⟨n + 24, .xor 1, [.reg (n + 23), .reg (n + 12)]⟩]) :=
    (cmpInst_emitted exponents_below.1 exponents_below.2).append hxor
      (by omega) (by omega) (by omega)
  have hcmp (k : ℕ) (pred : IntPredicate) : Emitted (σ := σ) n k (k + 1) [cmpInst (n + k)
      (fractionWidth w) pred (.reg (fractions n w).1) (.reg (fractions n w).2)] :=
    cmpInst_emitted fractions_below.1 fractions_below.2
  have hfrac (p q : IntPredicate) := (hcmp 29 p).append (l := 29) (u := 31) (hcmp 30 q)
    (by omega) (by omega) (by omega)
  have hmiddle (p : IntPredicate) := (fractionBody_emitted (w := w)).append (l := 23) (u := 29)
    (hsign p) (by omega) (by omega) (by omega)
  have hinner (p q r : IntPredicate) := hexp.append (l := 16) (u := 31)
    ((hmiddle p).append (l := 23) (u := 31) (hfrac q r) (by omega) (by omega) (by omega))
    (by omega) (by omega) (by omega)
  have hblocks (p q r : IntPredicate) := (nonanBody_emitted (w := w)).append (l := 7) (u := 31)
    (hinner p q r) (by omega) (by omega) (by omega)
  have hall (p q r : IntPredicate) := (nanCheck_emitted (w := w) h0 h1).append (l := 0) (u := 32)
    (hblocks p q r) (by omega) (by omega) (by omega)
  simpa [splitLtRegion, nonanBlock] using hall (if isGt then .ugt else .ult)
    (if isGt then .ult else .ugt) (if isGt then .ugt else .ult)

theorem splitEqRegion_wf (isEq nanResult : Bool) :
    (splitEqRegion (σ := σ) n w isEq nanResult op0 op1).Wf n := by
  refine wf_of_emitted rfl (splitEqRegion_emitted h0 h1 isEq nanResult) ?_ ?_ ?_
  · simp [splitEqRegion, nonanBlock]
  · cases isEq <;> simp [splitEqRegion, nonanBlock, Terminator.operands, Terminator.targets]
  · cases isEq <;> simp [splitEqRegion]

theorem splitLtRegion_wf (isGt nanResult : Bool) :
    (splitLtRegion (σ := σ) n w isGt nanResult op0 op1).Wf n := by
  refine wf_of_emitted rfl (splitLtRegion_emitted h0 h1 isGt nanResult) ?_ ?_ ?_
  · simp only [splitLtRegion, nonanBlock, List.mem_cons, List.not_mem_nil]
    rintro B (rfl | rfl | rfl | rfl | rfl | rfl | rfl | hB) <;> simp_all [or_imp, forall_and]
  · simp [splitLtRegion, nonanBlock, Terminator.operands, Terminator.targets]
  · cases isGt <;> simp [splitLtRegion]

theorem orEqualsRegion_wf (f : Format) (pred : FloatPredicate) :
    (orEqualsRegion (σ := σ) n f pred op0 op1).Wf n := by
  simp [Region.wf_iff, Block.wf_iff, orEqualsRegion, fcmpInst, Terminator.operands,
    Terminator.targets, h0.mono (Nat.le_add_right n 2), h1.mono (Nat.le_add_right n 2)]

theorem splitRegion_fits {pred : FloatPredicate} {R : Region (Op σ)}
    (hR : splitRegion n w pred op0 op1 = some R) :
    R.Wf n ∧ ∀ I ∈ R.head ++ R.blocks.flatMap Block.body, ∀ f p, I.op ≠ .fcmp f p := by
  cases pred <;> simp only [splitRegion, Option.some.injEq, reduceCtorEq] at hR <;> subst hR
  case oeq | ueq | one | une =>
    exact ⟨splitEqRegion_wf h0 h1 _ _, (splitEqRegion_emitted h0 h1 _ _).integer⟩
  case ogt | ugt | olt | ult =>
    exact ⟨splitLtRegion_wf h0 h1 _ _, (splitLtRegion_emitted h0 h1 _ _).integer⟩

end

end Fits

section Loop

variable {σ : Type} {F : Func (Op σ)} {i : ℕ}

/-- A function whose floating-point comparisons are of the three types. -/
structure Comparing (F : Func (Op σ)) : Prop where
  wf : F.Wf
  compare : ∀ l < F.nextLabel, ∀ I ∈ (F.blocks l).body, ∀ f p, I.op = .fcmp f p →
    ∃ (t : FloatType) (op0 op1 : Operand), f = t.format ∧ I.args = [op0, op1]

/-- The comparisons that wait for the loop of `splitFPCompares` are among `ids`. -/
structure Pending (F : Func (Op σ)) (ids : List ℕ) : Prop extends Comparing F where
  waiting : ∀ l < F.nextLabel, ∀ I ∈ (F.blocks l).body, ∀ f p, I.op = .fcmp f p →
    isSplit p = true → I.id ∈ ids

theorem FloatType.width_le (t : FloatType) : ¬t.format.width > 64 := by
  cases t <;> decide

theorem splitRegion_isSome (n w : ℕ) (pred : FloatPredicate) (op0 op1 : Operand) :
    (splitRegion (σ := σ) n w pred op0 op1).isSome = isSplit pred := by
  cases pred <;> rfl

theorem Pending.step {ids : List ℕ} (h : Pending F (i :: ids)) :
    Pending (splitFPCompare F i) ids ∧
      Refines (Op.evalWith networkValue) F (splitFPCompare F i) := by
  by_cases hsplit : ∃ (t : FloatType) (pred : FloatPredicate) (op0 op1 : Operand),
      F.find i = some (fcmpInst i t.format pred op0 op1) ∧ isSplit pred = true
  · obtain ⟨t, pred, op0, op1, hfind, hpred⟩ := hsplit
    obtain ⟨-, hbelow⟩ := h.wf.find_below hfind
    have h0 : op0.Below F.nextId := hbelow op0 (by simp [fcmpInst])
    have h1 : op1.Below F.nextId := hbelow op1 (by simp [fcmpInst])
    obtain ⟨R, hR⟩ := Option.isSome_iff_exists.mp
      ((splitRegion_isSome (σ := σ) F.nextId t.format.width pred op0 op1).trans hpred)
    have heq : splitFPCompare F i = F.replaceInst i R := by
      simp [splitFPCompare, hfind, fcmpInst, Nat.le_of_not_gt t.width_le, hR]
    obtain ⟨hwf, hint⟩ := splitRegion_fits h0 h1 hR
    rw [heq]
    have hold : ∀ l < (F.replaceInst i R).nextLabel, ∀ I ∈ ((F.replaceInst i R).blocks l).body,
        ∀ f p, I.op = .fcmp f p → ∃ l < F.nextLabel, I ∈ (F.blocks l).body ∧ I.id ≠ i := by
      intro l hl I hI f p hop
      rcases mem_replaceInst_cases h.wf hfind hl hI with hI' | hI' | ⟨B, hB, hI'⟩
      · exact hI'
      · exact absurd hop (hint I (List.mem_append_left _ hI') f p)
      · exact absurd hop
          (hint I (List.mem_append_right _ (List.mem_flatMap.mpr ⟨B, hB, hI'⟩)) f p)
    refine ⟨⟨⟨replaceInst_wf h.wf hfind hwf, fun l hl I hI f p hop => ?_⟩,
      fun l hl I hI f p hop hp => ?_⟩,
      replaceInst_refines _ h.wf hfind hwf (splitRegion_computes t networkValue h1 hR rfl)⟩
    · obtain ⟨l', hl', hI', -⟩ := hold l hl I hI f p hop
      exact h.compare l' hl' I hI' f p hop
    · obtain ⟨l', hl', hI', hne⟩ := hold l hl I hI f p hop
      exact (List.mem_cons.mp (h.waiting l' hl' I hI' f p hop hp)).resolve_left hne
  · have heq : splitFPCompare F i = F := by
      unfold splitFPCompare
      split
      · next id f pred op0 op1 hfind =>
        have hmem : ⟨id, .fcmp f pred, [op0, op1]⟩ ∈ (F.blocks (F.parent i)).body := by
          simp [(Func.find_eq_some hfind).2]
        obtain ⟨t, -, -, rfl, -⟩ := h.compare _ (h.wf.parent_lt hfind) _ hmem _ _ rfl
        obtain rfl : id = i := (Func.find_eq_some hfind).1
        have hnone : splitRegion (σ := σ) F.nextId t.format.width pred op0 op1 = none := by
          rw [← Option.not_isSome_iff_eq_none, splitRegion_isSome]
          exact fun hp => hsplit ⟨t, pred, op0, op1, hfind, hp⟩
        simp [hnone]
      · rfl
    rw [heq]
    refine ⟨⟨h.toComparing, fun l hl I hI f p hop hp => ?_⟩, fun _ _ hr => hr⟩
    obtain ⟨t, op0, op1, rfl, hargs⟩ := h.compare l hl I hI f p hop
    refine (List.mem_cons.mp (h.waiting l hl I hI _ p hop hp)).resolve_left fun hid =>
      hsplit ⟨t, p, op0, op1, ?_, hp⟩
    rw [← hid, h.wf.find_of_mem hl hI]
    obtain ⟨id, op, args⟩ := I
    obtain rfl := hop
    obtain rfl := hargs
    rfl

theorem Pending.foldl {ids : List ℕ} (h : Pending F ids) :
    Pending (ids.foldl splitFPCompare F) [] ∧
      Refines (Op.evalWith networkValue) F (ids.foldl splitFPCompare F) := by
  induction ids generalizing F with
  | nil => exact ⟨h, fun _ _ hr => hr⟩
  | cons i ids ih =>
    obtain ⟨hstep, href⟩ := h.step
    obtain ⟨hrest, href'⟩ := ih hstep
    exact ⟨hrest, href.trans _ href'⟩

theorem mem_selectCompares {select : Format → FloatPredicate → Operand → Operand → Bool}
    {l id : ℕ} (hl : l < F.nextLabel) {f : Format} {p : FloatPredicate} {op0 op1 : Operand}
    (hI : fcmpInst id f p op0 op1 ∈ (F.blocks l).body) (hs : select f p op0 op1 = true) :
    id ∈ selectCompares F select := by
  refine List.mem_flatMap.mpr ⟨l, List.mem_range.mpr hl, List.mem_filterMap.mpr ⟨_, hI, ?_⟩⟩
  simp [fcmpInst, hs]

/-- After `splitFPCompares` the function gives the results it had when its comparisons were
answered by `networkValue`. -/
theorem splitFPCompares_returns (h : Comparing F) {s : Env × σ} {r : ℕ × σ}
    (hr : Returns (Op.evalWith networkValue) F s r) : Returns Op.eval (splitFPCompares F) s r := by
  have hpending : Pending F (selectCompares F fun _ pred _ _ => isSplit pred) := by
    refine ⟨h, fun l hl I hI f p hop hp => ?_⟩
    obtain ⟨t, op0, op1, rfl, hargs⟩ := h.compare l hl I hI f p hop
    obtain ⟨id, op, args⟩ := I
    obtain rfl := hop
    obtain rfl := hargs
    exact mem_selectCompares hl hI hp
  obtain ⟨hdone, href⟩ := hpending.foldl
  obtain ⟨n, hn⟩ := href s r hr
  refine ⟨n,
    (run_congr (fun l hl => (hdone.wf.block l hl).targets) ?_ hdone.wf.entry).symm.trans hn⟩
  intro l hl I hI
  refine Op.evalWith_congr fun f p hop => ?_
  have hp : isSplit p = false := by
    rw [Bool.eq_false_iff]
    exact fun hp => List.not_mem_nil (hdone.waiting l hl I hI f p hop hp)
  funext a b
  simp [networkValue, hp]

end Loop

/-! ## Single comparisons -/

section Single

/-- What the two passes together compute in place of a comparison that `simplifyFPCompares`
selects. -/
def simplifiedValue (f : Format) (pred : FloatPredicate) (a b : ℕ) : Bool :=
  match strictPredicate pred with
  | some newPred => networkValue f newPred a b || networkValue f .oeq a b
  | none => networkValue f pred a b

theorem orEqualsRegion_computes {σ : Type} {n i : ℕ} {op0 op1 : Operand} {f : Format}
    {pred newPred : FloatPredicate} (h0 : op0.Below n) (h1 : op1.Below n)
    (hp : strictPredicate pred = some newPred) :
    (orEqualsRegion (σ := σ) n f newPred op0 op1).Computes (Op.evalWith simplifiedValue)
      (fcmpInst i f pred op0 op1) := by
  intro s
  refine ⟨2, ?_⟩
  have hv0 := Operand.value_update h0
  have hv1 := Operand.value_update h1
  have hnew : simplifiedValue f newPred = networkValue f newPred := by
    cases pred <;> simp only [strictPredicate, Option.some.injEq, reduceCtorEq] at hp <;>
      subst hp <;> rfl
  have heq : simplifiedValue f .oeq = networkValue f .oeq := rfl
  have hor : simplifiedValue f pred (op0.value s.1) (op1.value s.1) =
      (networkValue f newPred (op0.value s.1) (op1.value s.1) ||
        networkValue f .oeq (op0.value s.1) (op1.value s.1)) := by
    rw [simplifiedValue, hp]
  simp only [fcmpInst, Op.evalWith, List.map_cons, List.map_nil, hor]
  cases hcase : networkValue f newPred (op0.value s.1) (op1.value s.1) with
  | true => simp [Region.result, orEqualsRegion, Phi.value, List.lookup, fcmpInst, execInstr,
      Op.evalWith, hnew, hcase]
  | false =>
    simp [Region.result, Region.walk_br_inner, orEqualsRegion, Phi.value, List.lookup, hv0, hv1,
      fcmpInst, execInstr, Op.evalWith, hnew, heq, hcase]

variable {t : FloatType} {pred : FloatPredicate} {op0 op1 : Operand}

theorem singleFunction_comparing (t : FloatType) (pred : FloatPredicate) (h0 : op0.Below 2)
    (h1 : op1.Below 2) :
    Comparing (singleFunction (σ := Unit) (.fcmp t.format pred) [op0, op1]) where
  wf := singleFunction_wf _ (by simp [h0, h1])
  compare := by
    intro l hl I hI f p hop
    obtain rfl : l = 0 := by simpa [singleFunction] using hl
    obtain rfl : I = ⟨2, .fcmp t.format pred, [op0, op1]⟩ := by simpa [singleFunction] using hI
    obtain ⟨rfl, rfl⟩ := Op.fcmp.inj hop
    exact ⟨t, op0, op1, rfl, rfl⟩

theorem singleFunction_returns (fcmpAs : Format → FloatPredicate → ℕ → ℕ → Bool) (f : Format)
    (pred : FloatPredicate) (s : Env × Unit) :
    Returns (Op.evalWith fcmpAs) (singleFunction (.fcmp f pred) [op0, op1]) s
      ((fcmpAs f pred (op0.value s.1) (op1.value s.1)).toNat, ()) :=
  ⟨1, by
    simp [run, singleFunction, execInstr, Op.evalWith, Terminator.exec, enter, phiValues, assign]⟩

section OrEquals

variable {newPred : FloatPredicate} (h0 : op0.Below 2) (h1 : op1.Below 2)
  (hp : strictPredicate pred = some newPred)

/-- The function that `simplifyFPCompares` makes of a single comparison. -/
def orEqualsFunction (f : Format) (pred newPred : FloatPredicate) (op0 op1 : Operand) :
    Func (Op Unit) :=
  (singleFunction (.fcmp f pred) [op0, op1]).replaceInst 2 (orEqualsRegion 3 f newPred op0 op1)

theorem singleFunction_find (f : Format) (pred : FloatPredicate) (op0 op1 : Operand) :
    (singleFunction (σ := Unit) (.fcmp f pred) [op0, op1]).find 2 =
      some (fcmpInst 2 f pred op0 op1) := by
  simp [Func.find, singleFunction, fcmpInst]

include h0 h1

theorem orEqualsFunction_wf : (orEqualsFunction t.format pred newPred op0 op1).Wf :=
  replaceInst_wf (singleFunction_comparing t pred h0 h1).wf (singleFunction_find _ _ _ _)
    (orEqualsRegion_wf (h0.mono (by decide : 2 ≤ 3)) (h1.mono (by decide : 2 ≤ 3)) _ _)

theorem mem_orEqualsFunction {l : ℕ}
    (hl : l < (orEqualsFunction t.format pred newPred op0 op1).nextLabel) {I : Instr (Op Unit)}
    (hI : I ∈ ((orEqualsFunction t.format pred newPred op0 op1).blocks l).body) :
    I.args = [op0, op1] ∧ (I.op = .fcmp t.format newPred ∨ I.op = .fcmp t.format .oeq) := by
  rcases mem_replaceInst_cases (singleFunction_comparing t pred h0 h1).wf
    (singleFunction_find _ _ _ _) hl hI with ⟨l', hl', hI', hne⟩ | hI' | ⟨B, hB, hI'⟩
  · obtain rfl : l' = 0 := by simpa [singleFunction] using hl'
    obtain rfl : I = ⟨2, .fcmp t.format pred, [op0, op1]⟩ := by simpa [singleFunction] using hI'
    exact absurd rfl hne
  · obtain rfl : I = fcmpInst 3 t.format newPred op0 op1 := by simpa [orEqualsRegion] using hI'
    exact ⟨rfl, .inl rfl⟩
  · obtain rfl : B = ⟨[], [fcmpInst (3 + 1) t.format .oeq op0 op1], .br .exit⟩ := by
      simpa [orEqualsRegion] using hB
    obtain rfl : I = fcmpInst (3 + 1) t.format .oeq op0 op1 := by simpa using hI'
    exact ⟨rfl, .inr rfl⟩

theorem orEqualsFunction_comparing :
    Comparing (orEqualsFunction t.format pred newPred op0 op1) where
  wf := orEqualsFunction_wf h0 h1
  compare := by
    intro l hl I hI f p hop
    obtain ⟨hargs, hop' | hop'⟩ := mem_orEqualsFunction h0 h1 hl hI
    · exact ⟨t, op0, op1, (Op.fcmp.inj (hop.symm.trans hop')).1, hargs⟩
    · exact ⟨t, op0, op1, (Op.fcmp.inj (hop.symm.trans hop')).1, hargs⟩

include hp in
theorem orEqualsFunction_returns (s : Env × Unit) :
    Returns (Op.evalWith networkValue) (orEqualsFunction t.format pred newPred op0 op1) s
      ((simplifiedValue t.format pred (op0.value s.1) (op1.value s.1)).toNat, ()) := by
  have hwf : (orEqualsFunction t.format pred newPred op0 op1).Wf := orEqualsFunction_wf h0 h1
  have hnew : strictPredicate newPred = none := by
    cases pred <;> simp only [strictPredicate, Option.some.injEq, reduceCtorEq] at hp <;>
      subst hp <;> rfl
  obtain ⟨n, hn⟩ := replaceInst_refines _ (singleFunction_comparing t pred h0 h1).wf
    (singleFunction_find _ _ _ _)
    (orEqualsRegion_wf (h0.mono (by decide : 2 ≤ 3)) (h1.mono (by decide : 2 ≤ 3)) _ _)
    (orEqualsRegion_computes (h0.mono (by decide : 2 ≤ 3)) (h1.mono (by decide : 2 ≤ 3)) hp) s _
    (singleFunction_returns simplifiedValue t.format pred s)
  refine ⟨n, (run_congr (fun l hl => (hwf.block l hl).targets) ?_ hwf.entry).trans hn⟩
  intro l hl I hI
  refine Op.evalWith_congr fun f p hop => ?_
  obtain ⟨-, hop' | hop'⟩ := mem_orEqualsFunction h0 h1 hl hI
  · obtain ⟨rfl, rfl⟩ := Op.fcmp.inj (hop.symm.trans hop')
    funext a b
    simp [simplifiedValue, hnew]
  · obtain ⟨rfl, rfl⟩ := Op.fcmp.inj (hop.symm.trans hop')
    rfl

end OrEquals

/-- What both passes make of a function with a single comparison computes. -/
theorem splitFPCompares_single (t : FloatType) (pred : FloatPredicate) (h0 : op0.Below 2)
    (h1 : op1.Below 2) (s : Env × Unit) :
    Returns Op.eval (splitFPCompares (simplifyFPCompares
        (singleFunction (.fcmp t.format pred) [op0, op1]))) s
      ((if isConstant op0 != isConstant op1 then
          simplifiedValue t.format pred (op0.value s.1) (op1.value s.1)
        else networkValue t.format pred (op0.value s.1) (op1.value s.1)).toNat, ()) := by
  have hsingle := singleFunction_comparing t pred h0 h1
  have hids : selectCompares (singleFunction (σ := Unit) (.fcmp t.format pred) [op0, op1])
      (fun _ pred op0 op1 => (strictPredicate pred).isSome && (isConstant op0 != isConstant op1)) =
      if (strictPredicate pred).isSome && (isConstant op0 != isConstant op1) then [2] else [] := by
    simp only [selectCompares, singleFunction, List.range_one, List.flatMap_singleton, if_true,
      List.filterMap_cons, List.filterMap_nil]
    split <;> split at * <;> simp_all
  rw [simplifyFPCompares, hids]
  cases hp : strictPredicate pred with
  | none =>
    have hvalue : simplifiedValue t.format pred = networkValue t.format pred := by
      funext a b
      simp [simplifiedValue, hp]
    rw [hvalue, ite_self]
    exact splitFPCompares_returns hsingle (singleFunction_returns _ _ _ _)
  | some newPred =>
    cases hc : isConstant op0 != isConstant op1 with
    | false => exact splitFPCompares_returns hsingle (singleFunction_returns _ _ _ _)
    | true =>
      have hfold : [2].foldl simplifyFPCompare
          (singleFunction (σ := Unit) (.fcmp t.format pred) [op0, op1]) =
          orEqualsFunction t.format pred newPred op0 op1 := by
        simp [simplifyFPCompare, singleFunction_find, fcmpInst, hp, orEqualsFunction]
        rfl
      simp only [Option.isSome_some, Bool.and_self, if_true, hfold]
      exact splitFPCompares_returns (orEqualsFunction_comparing h0 h1)
        (orEqualsFunction_returns h0 h1 hp s)

/-- Away from NaN the passes keep the comparison. -/
theorem simplifiedValue_number (t : FloatType) (pred : FloatPredicate) {a b : ℕ}
    (ha : ¬t.format.IsNaN (a % 2 ^ t.format.width))
    (hb : ¬t.format.IsNaN (b % 2 ^ t.format.width)) :
    networkValue t.format pred a b = fcmpValue t.format pred a b ∧
      simplifiedValue t.format pred a b = fcmpValue t.format pred a b := by
  have hnetwork : ∀ p, networkValue t.format p a b = fcmpValue t.format p a b := by
    intro p
    simp [networkValue, ha, hb]
  refine ⟨hnetwork pred, ?_⟩
  simp only [simplifiedValue, hnetwork, fcmpValue, FloatPredicate.eval, t.format.decode_number ha,
    t.format.decode_number hb]
  cases pred <;>
    simp [strictPredicate, FloatPredicate.ordered, Bool.decide_or, le_iff_lt_or_eq, eq_comm]

theorem simplifiedValue_nan (t : FloatType) (pred : FloatPredicate) {a b : ℕ}
    (h : t.format.IsNaN (a % 2 ^ t.format.width) ∨
      t.format.IsNaN (b % 2 ^ t.format.width)) :
    (networkValue t.format pred a b = fcmpValue t.format pred a b ↔
      pred ∉ [.one, .ueq, .ugt, .ult]) ∧
    (simplifiedValue t.format pred a b = fcmpValue t.format pred a b ↔
      pred ∉ [.one, .ueq, .ugt, .ult, .uge, .ule]) := by
  have hvalue : ∀ p, fcmpValue t.format p a b = p.unordered := by
    intro p
    rw [fcmpValue, FloatPredicate.eval]
    rcases h with h | h
    · rw [t.format.decode_nan h]
    · rw [t.format.decode_nan h]
      cases t.format.decode (a % 2 ^ t.format.width) <;> rfl
  have hnetwork : ∀ p, networkValue t.format p a b =
      if isSplit p then nanCmpResult p else p.unordered := by
    intro p
    simp [networkValue, h, hvalue]
  simp only [simplifiedValue, hnetwork, hvalue]
  cases pred <;> decide

/-- An operand of the comparison: a constant, or the argument of the function. -/
def operandOf (constant : Bool) (arg value : ℕ) : Operand :=
  if constant then .const value else .reg arg

theorem operandOf_below (constant : Bool) {arg : ℕ} (harg : arg < 2) (value : ℕ) :
    (operandOf constant arg value).Below 2 := by
  cases constant
  · exact harg
  · exact trivial

theorem isConstant_operandOf (constant : Bool) (arg value : ℕ) :
    isConstant (operandOf constant arg value) = constant := by
  cases constant <;> rfl

/-- The function made of a single comparison of `x` and `y` by both passes. -/
def splitFunction (t : FloatType) (pred : FloatPredicate) (c0 c1 : Bool)
    (x y : BitVec t.format.width) : Func (Op Unit) :=
  splitFPCompares (simplifyFPCompares (singleFunction (.fcmp t.format pred)
    [operandOf c0 0 x.toNat, operandOf c1 1 y.toNat]))

/-- The comparison of `x` and `y` keeps its value exactly when no operand is NaN or the
predicate is answered on NaN the way the networks answer it. The predicates `uge` and `ule`
are rewritten when exactly one operand is a constant. -/
theorem splitFunction_evaluates_iff (t : FloatType) (pred : FloatPredicate) (c0 c1 : Bool)
    (x y : BitVec t.format.width) :
    Returns Op.eval (splitFunction t pred c0 c1 x y) (arguments x.toNat y.toNat)
        ((pred.eval t.format x.toNat y.toNat).toNat, ()) ↔
      (¬t.format.IsNaN x.toNat ∧ ¬t.format.IsNaN y.toNat) ∨
        (pred ∉ [.one, .ueq, .ugt, .ult] ∧ (c0 ≠ c1 → pred ∉ [.uge, .ule])) := by
  have hx : x.toNat % 2 ^ t.format.width = x.toNat := Nat.mod_eq_of_lt x.isLt
  have hy : y.toNat % 2 ^ t.format.width = y.toNat := Nat.mod_eq_of_lt y.isLt
  have hv0 : (operandOf c0 0 x.toNat).value (arguments x.toNat y.toNat).1 = x.toNat := by
    cases c0 <;> rfl
  have hv1 : (operandOf c1 1 y.toNat).value (arguments x.toNat y.toNat).1 = y.toNat := by
    cases c1 <;> rfl
  have hret := splitFPCompares_single t pred (operandOf_below c0 Nat.zero_lt_two x.toNat)
    (operandOf_below c1 Nat.one_lt_two y.toNat) (arguments x.toNat y.toNat)
  rw [hv0, hv1, isConstant_operandOf, isConstant_operandOf] at hret
  have hfcmp : pred.eval t.format x.toNat y.toNat = fcmpValue t.format pred x.toNat y.toNat := by
    rw [fcmpValue, hx, hy]
  have hvalue : Returns Op.eval (splitFunction t pred c0 c1 x y) (arguments x.toNat y.toNat)
        ((pred.eval t.format x.toNat y.toNat).toNat, ()) ↔
      (if c0 != c1 then simplifiedValue t.format pred x.toNat y.toNat
        else networkValue t.format pred x.toNat y.toNat) =
          fcmpValue t.format pred x.toNat y.toNat := by
    rw [hfcmp]
    constructor
    · intro h
      have hinj : ∀ p q : Bool, p.toNat = q.toNat → p = q := by decide
      exact hinj _ _ (Prod.mk.inj (hret.unique Op.eval h)).1
    · intro h
      rw [← h]
      exact hret
  rw [hvalue]
  by_cases hnan : t.format.IsNaN x.toNat ∨ t.format.IsNaN y.toNat
  · obtain ⟨hnetwork, hsimplified⟩ := simplifiedValue_nan t pred (a := x.toNat)
      (b := y.toNat) (by rwa [hx, hy])
    rw [← not_or, or_iff_right (not_not_intro hnan)]
    by_cases hc : c0 = c1
    · simp [hc, hnetwork]
    · simp only [bne_iff_ne, ne_eq, hc, not_false_eq_true, if_true, hsimplified, true_implies]
      simp only [List.mem_cons, List.not_mem_nil, or_false, not_or]
      tauto
  · rw [not_or] at hnan
    obtain ⟨hnetwork, hsimplified⟩ := simplifiedValue_number t pred (a := x.toNat)
      (b := y.toNat) (by rw [hx]; exact hnan.1) (by rw [hy]; exact hnan.2)
    simp [hnetwork, hsimplified, hnan]

theorem one_nan_split : ¬Returns Op.eval (splitFunction .half .one false true 0x7c01#16 0x3c00#16)
    (arguments 0x7c01 0x3c00)
      ((FloatPredicate.one.eval FloatType.half.format 0x7c01 0x3c00).toNat, ()) := by
  intro h
  have hrun : run Op.eval (splitFunction .half .one false true 0x7c01#16 0x3c00#16) 2 none 0
      (arguments 0x7c01 0x3c00) = some (1, ()) := by
    rfl
  have := Returns.unique Op.eval h ⟨2, hrun⟩
  revert this
  decide

end Single

end AflPlusPlus.SplitFloatCompares
