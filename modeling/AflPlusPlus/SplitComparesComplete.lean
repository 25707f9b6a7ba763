import AflPlusPlus.SplitComparesSpec

/-!
# Which comparisons are left wider than the target width

A comparison that a step of the pass emits is narrow enough or waits on the worklist, with
one exception: the strict comparison that `simplifyOrEqualsCompare` emits for an unsigned
predicate.
-/

namespace AflPlusPlus.SplitCompares
open ControlFlow CompareInstructions

section Emitted

variable {σ : Type} {target : ℕ} {F : Func (Op σ)} {i n w : ℕ}

/-- The instruction is no comparison wider than the target, unless it waits. -/
def NarrowOrWaits (target : ℕ) (worklist : List ℕ) (J : Instr (Op σ)) : Prop :=
  ∀ w p, J.op = .icmp w p → w ≤ target ∨ J.id ∈ worklist

/-- After the pass ran for the instruction `i` of `F`, what it emitted has at most the
target width, and so has the instruction `i` itself if it is still there. -/
def Narrow (F : Func (Op σ)) (i target : ℕ) (F' : Func (Op σ)) : Prop :=
  ∀ l < F'.nextLabel, ∀ J ∈ (F'.blocks l).body, F.nextId ≤ J.id ∨ J.id = i →
    NarrowOrWaits target [] J

/-- Since the function had `n` instructions, the pass emitted nothing wide that does not
wait, and the instruction `i` waits while it is there. -/
structure Tracked (n i target : ℕ) (s : PassState σ) : Prop where
  wf : s.1.Wf
  nextId_ge : n ≤ s.1.nextId
  emitted : ∀ l < s.1.nextLabel, ∀ J ∈ (s.1.blocks l).body, n ≤ J.id ∨ J.id = i →
    NarrowOrWaits target s.2 J

/-- The instructions of a network. -/
def Emits (R : Region (Op σ)) (J : Instr (Op σ)) : Prop :=
  J ∈ R.head ∨ ∃ B ∈ R.blocks, J ∈ B.body

theorem NarrowOrWaits.mono {worklist worklist' : List ℕ} {J : Instr (Op σ)}
    (h : NarrowOrWaits target worklist J) (hsub : worklist ⊆ worklist') :
    NarrowOrWaits target worklist' J :=
  fun w p hop => (h w p hop).imp_right fun hmem => hsub hmem

theorem Tracked.init (hF : F.Wf) : Tracked F.nextId i target (F, [i]) where
  wf := hF
  nextId_ge := Nat.le_refl _
  emitted := by
    intro l hl J hJ hid
    have hlt := (hF.block l hl).id_lt J hJ
    have hi : J.id = i := hid.resolve_left (by omega)
    exact fun w p _ => .inr (List.mem_singleton.mpr hi)

/-- An instruction that waits is replaced by a network whose wide comparisons join the
worklist. -/
theorem Tracked.replaceInst {j : ℕ} {worklist pushed : List ℕ} {R : Region (Op σ)}
    {I : Instr (Op σ)} (h : Tracked n i target (F, j :: worklist)) (hI : F.find j = some I)
    (hR : R.Wf F.nextId) (hpushed : ∀ J, Emits R J → NarrowOrWaits target pushed J) :
    Tracked n i target (F.replaceInst j R, pushed ++ worklist) where
  wf := replaceInst_wf h.wf hI hR
  nextId_ge := by
    rw [replaceInst_nextId]
    exact h.nextId_ge.trans (Nat.le_add_right _ _)
  emitted := by
    intro l hl J hJ hid
    rcases mem_replaceInst_cases h.wf hI hl hJ with ⟨l', hl', hold, hne⟩ | hnew
    · intro w p hop
      rcases h.emitted l' hl' J hold hid w p hop with hle | hmem
      · exact .inl hle
      · have hmem : J.id ∈ worklist := (List.mem_cons.mp hmem).resolve_left hne
        exact .inr (List.mem_append_right _ hmem)
    · exact (hpushed J hnew).mono (List.subset_append_left _ _)

/-- A comparison of the target width needs not wait. -/
theorem Tracked.drop {j : ℕ} {worklist : List ℕ} {p : IntPredicate} {op0 op1 : Operand}
    (h : Tracked n i target (F, j :: worklist))
    (hI : F.find j = some (cmpInst j target p op0 op1)) : Tracked n i target (F, worklist) where
  wf := h.wf
  nextId_ge := h.nextId_ge
  emitted := by
    intro l hl J hJ hid w q hop
    rcases h.emitted l hl J hJ hid w q hop with hle | hmem
    · exact .inl hle
    rcases List.mem_cons.mp hmem with rfl | hmem
    · have hfind := h.wf.find_of_mem hl hJ
      rw [hI, Option.some.injEq] at hfind
      rw [← hfind, cmpInst, Op.icmp.injEq] at hop
      exact .inl hop.1.ge
    · exact .inr hmem

theorem getCompare_spec {j : ℕ} {p : IntPredicate} {op0 op1 : Operand}
    (h : getCompare F j = some (w, p, op0, op1)) :
    F.find j = some (cmpInst j w p op0 op1) := by
  unfold getCompare at h
  split at h
  · next id w' p' a b hfind =>
    obtain ⟨hid, -⟩ := Func.find_eq_some hfind
    simp only [Option.some.injEq, Prod.mk.injEq] at h
    obtain ⟨rfl, rfl, rfl, rfl⟩ := h
    rw [hfind, cmpInst, ← hid]
  · simp at h

/-- The halves that `splitCompare` puts on the worklist. -/
def halvesWaiting (target half high low : ℕ) : List ℕ :=
  if half > target then [low, high] else []

theorem halvesWaiting_append (target half high low : ℕ) (worklist : List ℕ) :
    (if half > target then low :: high :: worklist else worklist) =
      halvesWaiting target half high low ++ worklist := by
  unfold halvesWaiting
  split <;> rfl

theorem halvesWaiting_spec {half high low : ℕ} {J : Instr (Op σ)}
    (hop : ∀ v p, J.op = .icmp v p → v = half ∧ (J.id = high ∨ J.id = low)) :
    NarrowOrWaits target (halvesWaiting target half high low) J := by
  intro v p hJ
  obtain ⟨rfl, hid⟩ := hop v p hJ
  by_cases hle : v ≤ target
  · exact .inl hle
  · have hgt : v > target := Nat.lt_of_not_le hle
    rw [halvesWaiting, if_pos hgt]
    rcases hid with hid | hid <;> simp [hid]

theorem splitEqRegion_emits {k : ℕ} {p : IntPredicate} {op0 op1 : Operand} {J : Instr (Op σ)}
    (h : Emits (splitEqRegion k w p op0 op1) J) :
    NarrowOrWaits target (halvesWaiting target (w / 2) (k + 4) (k + 7)) J := by
  apply halvesWaiting_spec
  intro v q hop
  simp only [Emits, splitEqRegion, highHalves, lshrInst, truncInst, cmpInst, List.mem_cons,
    List.not_mem_nil, or_false, exists_eq_left] at h
  rcases h with (rfl | rfl | rfl | rfl | rfl) | rfl | rfl | rfl <;> simp_all

theorem splitLtRegion_emits {k : ℕ} {p inv : IntPredicate} {op0 op1 : Operand}
    {J : Instr (Op σ)} (h : Emits (splitLtRegion k w p inv op0 op1) J) :
    NarrowOrWaits target (halvesWaiting target (w / 2) (k + 4) (k + 8) ++ [k + 5]) J := by
  by_cases hid : J.id = k + 5
  · intro v q _
    exact .inr (List.mem_append_right _ (List.mem_singleton.mpr hid))
  · have hhalves : NarrowOrWaits target (halvesWaiting target (w / 2) (k + 4) (k + 8)) J := by
      apply halvesWaiting_spec
      intro v q hop
      simp only [Emits, splitLtRegion, highHalves, lshrInst, truncInst, cmpInst, List.mem_cons,
        List.not_mem_nil, or_false, exists_eq_or_imp, exists_eq_left] at h
      rcases h with (rfl | rfl | rfl | rfl | rfl) | rfl | rfl | rfl | rfl <;> simp_all
    exact hhalves.mono (List.subset_append_left _ _)

/-- The instruction `j` is replaced by a network, and the comparisons of the network that
are too wide are put before the worklist. -/
def Replaced (target j : ℕ) (F : Func (Op σ)) (worklist : List ℕ) (s : PassState σ) : Prop :=
  ∃ I R pushed, F.find j = some I ∧ R.Wf F.nextId ∧
    (∀ J, Emits R J → NarrowOrWaits target pushed J) ∧ (∀ m ∈ pushed, F.nextId ≤ m) ∧
    s = (F.replaceInst j R, pushed ++ worklist)

theorem halvesWaiting_fresh {half high low m : ℕ} (hhigh : n ≤ high) (hlow : n ≤ low)
    (hm : m ∈ halvesWaiting target half high low) : n ≤ m := by
  unfold halvesWaiting at hm
  split at hm
  · rcases List.mem_pair.mp hm with rfl | rfl <;> assumption
  · simp at hm

section Networks

variable {j : ℕ} {p : IntPredicate} {op0 op1 : Operand} {worklist : List ℕ} (hF : F.Wf)
  (hfind : F.find j = some (cmpInst j w p op0 op1))

include hF hfind

theorem operands_below : op0.Below F.nextId ∧ op1.Below F.nextId := by
  obtain ⟨-, hbelow⟩ := hF.find_below hfind
  exact ⟨hbelow op0 (by simp [cmpInst]), hbelow op1 (by simp [cmpInst])⟩

theorem splitEq_replaced : Replaced target j F worklist
    (F.replaceInst j (splitEqRegion F.nextId w p op0 op1),
      if w / 2 > target then (F.nextId + 7) :: (F.nextId + 4) :: worklist else worklist) := by
  obtain ⟨h0, h1⟩ := operands_below hF hfind
  refine ⟨_, _, halvesWaiting target (w / 2) (F.nextId + 4) (F.nextId + 7), hfind,
    splitEqRegion_wf h0 h1 p, fun J hJ => splitEqRegion_emits hJ, fun m hm => ?_, ?_⟩
  · exact halvesWaiting_fresh (by omega) (by omega) hm
  · rw [halvesWaiting_append]

theorem splitLt_replaced (q inv : IntPredicate) : Replaced target j F worklist
    (F.replaceInst j (splitLtRegion F.nextId w q inv op0 op1),
      if w / 2 > target then (F.nextId + 8) :: (F.nextId + 4) :: (F.nextId + 5) :: worklist
      else (F.nextId + 5) :: worklist) := by
  obtain ⟨h0, h1⟩ := operands_below hF hfind
  refine ⟨_, _, halvesWaiting target (w / 2) (F.nextId + 4) (F.nextId + 8) ++ [F.nextId + 5],
    hfind, splitLtRegion_wf h0 h1 q inv, fun J hJ => splitLtRegion_emits hJ, fun m hm => ?_, ?_⟩
  · rcases List.mem_append.mp hm with hm | hm
    · exact halvesWaiting_fresh (by omega) (by omega) hm
    · obtain rfl := List.mem_singleton.mp hm
      omega
  · rw [halvesWaiting_append, List.append_assoc, List.singleton_append]

theorem signed_replaced (ht : 0 < target) : Replaced target j F worklist
    (F.replaceInst j (signedRegion F.nextId w p op0 op1), (F.nextId + 6) :: worklist) := by
  obtain ⟨h0, h1⟩ := operands_below hF hfind
  refine ⟨_, _, [F.nextId + 6], hfind, signedRegion_wf h0 h1 p, fun J hJ => ?_, by simp, rfl⟩
  intro v q hop
  simp only [Emits, signedRegion, lshrInst, truncInst, cmpInst, List.mem_cons,
    List.not_mem_nil, or_false, exists_eq_or_imp, exists_eq_left] at hJ
  rcases hJ with (rfl | rfl | rfl | rfl | rfl) | rfl | rfl <;>
    simp only [Op.icmp.injEq, reduceCtorEq] at hop <;> grind

/-- Both comparisons of the network would have to wait. -/
theorem orEquals_replaced (newPred : IntPredicate) : Replaced target j F worklist
    (F.replaceInst j (orEqualsRegion F.nextId w newPred op0 op1),
      F.nextId :: (F.nextId + 1) :: worklist) := by
  obtain ⟨h0, h1⟩ := operands_below hF hfind
  refine ⟨_, _, [F.nextId, F.nextId + 1], hfind, orEqualsRegion_wf h0 h1 newPred,
    fun J hJ => ?_, by simp, rfl⟩
  intro v q _
  simp only [Emits, orEqualsRegion, cmpInst, List.mem_cons, List.not_mem_nil, or_false,
    exists_eq_left] at hJ
  rcases hJ with rfl | rfl <;> simp

end Networks

/-- A step of the loop drops a comparison of the target width or replaces a comparison. -/
theorem splitCompare_cases {j : ℕ} {worklist : List ℕ} {s : PassState σ} (hF : F.Wf)
    (h : splitCompare target j (F, worklist) = some s) :
    (∃ p op0 op1, F.find j = some (cmpInst j target p op0 op1) ∧ s = (F, worklist)) ∨
      Replaced target j F worklist s := by
  cases hget : getCompare F j with
  | none => simp [splitCompare, hget] at h
  | some c =>
    obtain ⟨v, p, op0, op1⟩ := c
    have hfind := getCompare_spec hget
    by_cases hv : v = target
    · subst hv
      refine .inl ⟨p, op0, op1, hfind, ?_⟩
      simpa [splitCompare, hget] using h.symm
    · refine .inr ?_
      simp only [splitCompare, hget, Option.bind_eq_bind, Option.bind_some, if_neg hv] at h
      cases p with
      | eq | ne => exact Option.some.inj h ▸ splitEq_replaced hF hfind
      | ugt | ult => exact Option.some.inj h ▸ splitLt_replaced hF hfind _ _
      | uge | ule | sgt | sge | slt | sle => simp at h

theorem Tracked.replaced {j : ℕ} {worklist : List ℕ} {s : PassState σ}
    (h : Tracked n i target (F, j :: worklist)) (hs : Replaced target j F worklist s) :
    Tracked n i target s := by
  obtain ⟨I, R, pushed, hI, hR, hpushed, -, rfl⟩ := hs
  exact h.replaceInst hI hR hpushed

theorem Tracked.mono {worklist worklist' : List ℕ} (h : Tracked n i target (F, worklist))
    (hsub : worklist ⊆ worklist') : Tracked n i target (F, worklist') where
  wf := h.wf
  nextId_ge := h.nextId_ge
  emitted l hl J hJ hid := (h.emitted l hl J hJ hid).mono hsub

/-- While the loop runs, what the pass emitted is narrow or waits; when it ends, nothing
waits. -/
theorem splitWorklist_narrow {bitw fuel : ℕ} {worklist : List ℕ} {F₀ F' : Func (Op σ)}
    (hgt : bitw > target) (h : Tracked F₀.nextId i target (F, worklist))
    (hrun : splitWorklist target bitw fuel (F, worklist) = some F') : Narrow F₀ i target F' := by
  induction fuel generalizing F worklist with
  | zero =>
    cases worklist with
    | nil =>
      obtain rfl := Option.some.inj hrun
      exact h.emitted
    | cons j worklist => simp [splitWorklist] at hrun
  | succ fuel ih =>
    cases worklist with
    | nil =>
      obtain rfl := Option.some.inj hrun
      exact h.emitted
    | cons j worklist =>
      rw [splitWorklist, if_pos hgt] at hrun
      obtain ⟨⟨F₁, worklist₁⟩, hstep, hrun⟩ := Option.bind_eq_some_iff.mp hrun
      rcases splitCompare_cases h.wf hstep with ⟨p, op0, op1, hfind, hs⟩ | hs
      · cases hs
        exact ih (h.drop hfind) hrun
      · exact ih (h.replaced hs) hrun

/-! ## The comparison that is forgotten -/

/-- The instruction `k` is a comparison of width `w` and does not wait. -/
structure Forgotten (k w : ℕ) (s : PassState σ) : Prop where
  wf : s.1.Wf
  find : ∃ p op0 op1, s.1.find k = some (cmpInst k w p op0 op1)
  waits : k ∉ s.2

theorem Forgotten.replaced {j k : ℕ} {worklist : List ℕ} {s : PassState σ}
    (h : Forgotten k w (F, j :: worklist)) (hs : Replaced target j F worklist s) :
    Forgotten k w s := by
  obtain ⟨I, R, pushed, hI, hR, -, hfresh, rfl⟩ := hs
  obtain ⟨p, op0, op1, hfind⟩ := h.find
  have hlt : k < F.nextId := (h.wf.find_below hfind).1
  have hne : k ≠ j := List.ne_of_not_mem_cons h.waits
  have hnot : k ∉ worklist := List.not_mem_of_not_mem_cons h.waits
  refine ⟨replaceInst_wf h.wf hI hR, ⟨p, op0, op1, ?_⟩, fun hmem => ?_⟩
  · exact replaceInst_find_old h.wf hI hlt hne hfind
  · rcases List.mem_append.mp hmem with hmem | hmem
    · have := hfresh k hmem
      omega
    · exact hnot hmem

/-- No later step finds a comparison that does not wait. -/
theorem splitWorklist_forgets {bitw fuel k : ℕ} {worklist : List ℕ} {F' : Func (Op σ)}
    (hgt : bitw > target) (h : Forgotten k w (F, worklist))
    (hrun : splitWorklist target bitw fuel (F, worklist) = some F') : Forgotten k w (F', []) := by
  induction fuel generalizing F worklist with
  | zero =>
    cases worklist with
    | nil =>
      obtain rfl := Option.some.inj hrun
      exact h
    | cons j worklist => simp [splitWorklist] at hrun
  | succ fuel ih =>
    cases worklist with
    | nil =>
      obtain rfl := Option.some.inj hrun
      exact h
    | cons j worklist =>
      rw [splitWorklist, if_pos hgt] at hrun
      obtain ⟨⟨F₁, worklist₁⟩, hstep, hrun⟩ := Option.bind_eq_some_iff.mp hrun
      rcases splitCompare_cases h.wf hstep with ⟨p, op0, op1, hfind, hs⟩ | hs
      · cases hs
        have hwaits : k ∉ worklist := List.not_mem_of_not_mem_cons h.waits
        have hdrop : Forgotten k w (F, worklist) := ⟨h.wf, h.find, hwaits⟩
        exact ih hdrop hrun
      · exact ih (h.replaced hs) hrun

theorem Forgotten.not_narrow {k : ℕ} {F₀ F' : Func (Op σ)} (h : Forgotten k w (F', []))
    (hk : F₀.nextId ≤ k) (hgt : w > target) : ¬Narrow F₀ i target F' := by
  intro hnarrow
  obtain ⟨p, op0, op1, hfind⟩ := h.find
  have hbody := (Func.find_eq_some hfind).2
  have hmem : cmpInst k w p op0 op1 ∈ (F'.blocks (F'.parent k)).body := by
    rw [hbody]
    exact List.mem_append_right _ List.mem_cons_self
  rcases hnarrow _ (h.wf.parent_lt hfind) _ hmem (.inl hk) w p rfl with hle | hnil
  · omega
  · exact List.not_mem_nil hnil

end Emitted

/-! ## The whole pass -/

section Whole

variable {σ : Type} {target : ℕ} {F : Func (Op σ)} {i w : ℕ} {pred : IntPredicate}
  {op0 op1 : Operand} (hF : F.Wf) (hfind : F.find i = some (cmpInst i w pred op0 op1))

include hF hfind

/-- The strict comparison of an unsigned predicate is emitted and not put on the worklist. -/
theorem orEquals_forgotten (newPred : IntPredicate) : Forgotten F.nextId w
    (F.replaceInst i (orEqualsRegion F.nextId w newPred op0 op1), [F.nextId + 1]) := by
  obtain ⟨h0, h1⟩ := operands_below hF hfind
  have hR := orEqualsRegion_wf (σ := σ) (w := w) h0 h1 newPred
  refine ⟨replaceInst_wf hF hfind hR, ⟨newPred, op0, op1, ?_⟩, by simp⟩
  rw [replaceInst_find_new hF hfind (Nat.le_refl _)]
  simp [Region.find, orEqualsRegion, cmpInst]

/-- For a signed predicate the strict comparison is replaced at once. -/
theorem orEquals_signed_tracked (ht : 0 < target) (newPred : IntPredicate) :
    ∃ s, simplifySignedCompare F.nextId
        (F.replaceInst i (orEqualsRegion F.nextId w newPred op0 op1), []) = some s ∧
      Tracked F.nextId i target (s.1, (F.nextId + 1) :: s.2) := by
  have htracked : Tracked F.nextId i target
      (F.replaceInst i (orEqualsRegion F.nextId w newPred op0 op1),
        [F.nextId, F.nextId + 1]) :=
    (Tracked.init hF).replaced (orEquals_replaced hF hfind newPred)
  have hnew : (F.replaceInst i (orEqualsRegion F.nextId w newPred op0 op1)).find F.nextId =
      some (cmpInst F.nextId w newPred op0 op1) := by
    rw [replaceInst_find_new hF hfind (Nat.le_refl _)]
    simp [Region.find, orEqualsRegion, cmpInst]
  refine ⟨_, by simp only [simplifySignedCompare, getCompare_eq hnew]; rfl, ?_⟩
  refine (htracked.replaced (signed_replaced htracked.wf hnew ht)).mono ?_
  exact (List.Perm.swap _ _ _).subset

/-- Before the loop, what was emitted is narrow or waits, for all predicates but two. -/
theorem simplify_tracked (ht : 0 < target) (hp : pred ≠ .uge ∧ pred ≠ .ule) :
    ∃ s, Tracked F.nextId i target s ∧
      ∀ fuel, simplifyAndSplit fuel target i F = splitWorklist target w fuel s := by
  have hget := getCompare_eq hfind
  have hinit : Tracked F.nextId i target (F, [i]) := Tracked.init hF
  cases pred with
  | eq | ne | ugt | ult => exact ⟨_, hinit, fun fuel => by simp [simplifyAndSplit, hget]⟩
  | sgt | slt =>
    refine ⟨_, hinit.replaced (signed_replaced hF hfind ht), fun fuel => ?_⟩
    simp [simplifyAndSplit, hget, simplifySignedCompare]
  | sge =>
    obtain ⟨s, hs, htracked⟩ := orEquals_signed_tracked hF hfind ht .sgt
    refine ⟨_, htracked, fun fuel => ?_⟩
    simp [simplifyAndSplit, hget, simplifyOrEqualsCompare, strictPredicate, hs]
  | sle =>
    obtain ⟨s, hs, htracked⟩ := orEquals_signed_tracked hF hfind ht .slt
    refine ⟨_, htracked, fun fuel => ?_⟩
    simp [simplifyAndSplit, hget, simplifyOrEqualsCompare, strictPredicate, hs]
  | uge => exact absurd rfl hp.1
  | ule => exact absurd rfl hp.2

theorem simplify_forgotten (hp : pred = .uge ∨ pred = .ule) :
    ∃ s, Forgotten F.nextId w s ∧
      ∀ fuel target, simplifyAndSplit fuel target i F = splitWorklist target w fuel s := by
  have hget := getCompare_eq hfind
  rcases hp with rfl | rfl
  · refine ⟨_, orEquals_forgotten hF hfind .ugt, fun fuel target => ?_⟩
    simp [simplifyAndSplit, hget, simplifyOrEqualsCompare, strictPredicate]
  · refine ⟨_, orEquals_forgotten hF hfind .ult, fun fuel target => ?_⟩
    simp [simplifyAndSplit, hget, simplifyOrEqualsCompare, strictPredicate]

/-- The pass ends for widths that are powers of two, such as `i8` to `i256`. Whenever it
ends, every comparison it emitted has at most the target width, except for the two unsigned
predicates that include equality. -/
theorem simplifyAndSplit_narrow_iff (ht : 0 < target) (hgt : target < w) :
    (∀ fuel F', simplifyAndSplit fuel target i F = some F' →
      (Narrow F i target F' ↔ pred ≠ .uge ∧ pred ≠ .ule)) ∧
    ∀ a b, w = 2 ^ a → target = 2 ^ b →
      ∃ F', simplifyAndSplit (2 * 4 ^ a) target i F = some F' := by
  refine ⟨fun fuel F' hrun => ⟨fun hnarrow => ?_, fun hp => ?_⟩, fun a b hw hb => ?_⟩
  · rw [← not_or]
    intro hp
    obtain ⟨s, hs, hloop⟩ := simplify_forgotten hF hfind hp
    rw [hloop] at hrun
    have hleft := splitWorklist_forgets (F := s.1) hgt hs hrun
    exact hleft.not_narrow (Nat.le_refl _) hgt hnarrow
  · obtain ⟨s, hs, hloop⟩ := simplify_tracked hF hfind ht hp
    rw [hloop] at hrun
    exact splitWorklist_narrow (F := s.1) hgt hs hrun
  · subst hw hb
    obtain ⟨F', hrun, -⟩ := simplifyAndSplit_refines b hF hfind (Nat.le_refl _)
    exact ⟨F', hrun⟩

end Whole

section Examples

/-- A function that compares two `i16` arguments. -/
def compare16 (pred : IntPredicate) : Func (Op Unit) :=
  singleFunction (.icmp 16 pred) [.reg 0, .reg 1]

theorem compare16_wf (pred : IntPredicate) : (compare16 pred).Wf :=
  singleFunction_wf _ (by simp)

theorem compare16_find (pred : IntPredicate) :
    (compare16 pred).find 2 = some (cmpInst 2 16 pred (.reg 0) (.reg 1)) := rfl

/-- Signed `<=` is split into comparisons of bytes. -/
theorem simplifyAndSplit_narrow_sle : ∃ F', simplifyAndSplit (2 * 4 ^ 4) 8 2 (compare16 .sle) =
    some F' ∧ Narrow (compare16 .sle) 2 8 F' := by
  obtain ⟨hiff, htotal⟩ := simplifyAndSplit_narrow_iff (compare16_wf .sle) (compare16_find .sle)
    (by decide : 0 < 8) (by decide : 8 < 16)
  obtain ⟨F', hrun⟩ := htotal 4 3 rfl rfl
  exact ⟨F', hrun, (hiff _ F' hrun).mpr (by decide)⟩

/-- Unsigned `<=` keeps a comparison of the whole width. -/
theorem ule_not_narrow : ∃ F', simplifyAndSplit (2 * 4 ^ 4) 8 2 (compare16 .ule) = some F' ∧
    ¬Narrow (compare16 .ule) 2 8 F' := by
  obtain ⟨s, hs, hloop⟩ := simplify_forgotten (compare16_wf .ule) (compare16_find .ule) (.inr rfl)
  obtain ⟨F', hrun, -⟩ := simplifyAndSplit_refines 3 (compare16_wf .ule) (compare16_find .ule)
    (Nat.le_refl (2 * 4 ^ 4))
  refine ⟨F', hrun, ?_⟩
  rw [hloop] at hrun
  have hleft := splitWorklist_forgets (F := s.1) (by decide : 16 > 2 ^ 3) hs hrun
  exact hleft.not_narrow (Nat.le_refl _) (by decide)

end Examples

end AflPlusPlus.SplitCompares
