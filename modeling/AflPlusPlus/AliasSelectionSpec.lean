import AflPlusPlus.AliasSelection

/-!
# The law of the next entry

The pairing loop keeps what each index gets, so that with exact arithmetic the drawn entries
follow the weights. The loop that sorts the entries counts down with an `s32`: it does not begin
when the last index is too large for one.
-/

namespace AflPlusPlus.AliasSelection
open ByteWords AliasTables CheckedBlocks TableState MeasureTheory Set

/-! ## Filling the table -/

/-- The number of indices on the work lists, as the counters say. -/
def TableState.listed (n : ℕ) (s : TableState) : ℕ :=
  s.nSmall + (n + (2 ^ 32 - 1) + 2 ^ 32 - s.nLarge) % 2 ^ 32

section Fill
variable {n j : ℕ} {small large : List ℕ} {s : TableState} {target : ℕ → ℚ}

theorem HasLists.listed_eq (h : HasLists n small large s) (hn : n < 2 ^ 32) :
    s.listed n = small.length + large.length := by
  have hlen := h.length_le
  have hnSmall := h.nSmall_eq
  have hnLarge := h.nLarge_eq
  unfold TableState.listed
  omega

theorem sortEntry_spec (h : HasLists n small large s) (hn : n < 2 ^ 32) (hj : j < n)
    (hnew : j ∉ small ++ large) :
    ∃ t small' large', sortEntry s j = some t ∧ HasLists n small' large' t ∧ SameTable s t ∧
      (small' ++ large').Perm (j :: (small ++ large)) := by
  have hload : s.P.load j = some (s.P.cell j) := Block.load_eq (h.size_P ▸ hj)
  unfold sortEntry
  rw [hload]
  by_cases hmass : s.P.cell j < 1
  · obtain ⟨t, ht, hlists, hsame⟩ := h.pushSmall hn hj hnew hmass
    exact ⟨t, _, _, (if_pos hmass).trans ht, hlists, hsame, List.Perm.refl _⟩
  · obtain ⟨t, ht, hlists, hsame⟩ := h.pushLarge hn hj hnew (not_lt.mp hmass)
    exact ⟨t, _, _, (if_neg hmass).trans ht, hlists, hsame, List.perm_middle⟩

theorem SameTable.trans {t u : TableState} (h : SameTable s t) (h' : SameTable t u) :
    SameTable s u :=
  ⟨h'.P_eq.trans h.P_eq, h'.probability_eq.trans h.probability_eq, h'.table_eq.trans h.table_eq⟩

theorem sortEntries_spec (js : List ℕ) (h : HasLists n small large s) (hn : n < 2 ^ 32)
    (hjs : ∀ j ∈ js, j < n) (hnodup : (js ++ (small ++ large)).Nodup) :
    ∃ t small' large', js.foldlM sortEntry s = some t ∧ HasLists n small' large' t ∧
      SameTable s t ∧ (small' ++ large').Perm (js ++ (small ++ large)) := by
  induction js generalizing s small large with
  | nil => exact ⟨s, small, large, rfl, h, ⟨rfl, rfl, rfl⟩, List.Perm.refl _⟩
  | cons j js ih =>
    obtain ⟨hj, hjs⟩ := List.forall_mem_cons.mp hjs
    rw [List.cons_append, List.nodup_cons] at hnodup
    obtain ⟨u, small', large', hu, hlists, hsame, hperm⟩ := sortEntry_spec h hn hj
      fun hmem => hnodup.1 (List.mem_append_right _ hmem)
    have hmiddle : (js ++ (small' ++ large')).Perm (j :: (js ++ (small ++ large))) :=
      (hperm.append_left js).trans List.perm_middle
    obtain ⟨t, small'', large'', ht, hlists, hsame', hperm'⟩ := ih hlists hjs
      (hmiddle.nodup_iff.mpr (List.nodup_cons.mpr hnodup))
    refine ⟨t, small'', large'', ?_, hlists, hsame.trans hsame', hperm'.trans hmiddle⟩
    rw [List.foldlM_cons, hu]
    exact ht

/-- The invariant of the loops. -/
structure Fills (n : ℕ) (target : ℕ → ℚ) (small large : List ℕ) (s : TableState) : Prop extends
    HasLists n small large s where
  balanced : Balanced (Finset.range n) target (s.filling small large)

theorem SameTable.filling_eq {t : TableState} (h : SameTable s t) (small large : List ℕ) :
    t.filling small large = s.filling small large := by
  rw [filling, filling, h.P_eq, h.probability_eq, h.table_eq]

/-- The entry of `a` is written and the mass of `b` lowered. -/
def TableState.settled (a b : ℕ) (s : TableState) : TableState :=
  { s with
    P := { s.P with cell := Function.update s.P.cell b (s.P.cell b - (1 - s.P.cell a)) }
    aliasProbability := { s.aliasProbability with
      cell := Function.update s.aliasProbability.cell a (s.P.cell a) }
    aliasTable := { s.aliasTable with cell := Function.update s.aliasTable.cell a b } }

section Settled
variable {a b : ℕ}

theorem HasLists.settled (h : HasLists n small large s) (hb : b ∉ small ++ large) :
    HasLists n small large (s.settled a b) :=
  { h with
    mass_small := fun i hi => by
      have hib : i ≠ b := fun heq => hb (heq ▸ List.mem_append_left _ hi)
      exact (Function.update_of_ne hib _ s.P.cell).trans_lt (h.mass_small i hi)
    mass_large := fun i hi => by
      have hib : i ≠ b := fun heq => hb (heq ▸ List.mem_append_right _ hi)
      exact (h.mass_large i hi).trans_eq (Function.update_of_ne hib _ s.P.cell).symm }

theorem filling_settled {small' large' : List ℕ} (ha : a ∉ b :: (small ++ large))
    (hperm : (small' ++ large').Perm (b :: (small ++ large))) :
    (s.settled a b).filling small' large' = (s.filling (a :: small) (b :: large)).settle a b := by
  have hpending : (small' ++ large').toFinset = (a :: small ++ b :: large).toFinset.erase a := by
    have hmiddle : (a :: small ++ b :: large).Perm (a :: b :: (small ++ large)) :=
      List.Perm.cons a List.perm_middle
    rw [List.toFinset_eq_of_perm _ _ hperm, List.toFinset_eq_of_perm _ _ hmiddle,
      List.toFinset_cons (a := a),
      Finset.erase_insert fun hmem => ha (List.mem_toFinset.mp hmem)]
  rw [filling, hpending]
  rfl

theorem pairEntries_eq {u v : TableState} (hu : s.popSmall = some (a, u))
    (hv : u.popLarge = some (b, v)) (h : HasLists n small large v) (ha : a < n) (hb : b < n) :
    pairEntries s = if (v.settled a b).P.cell b < 1 then (v.settled a b).pushSmall b
      else (v.settled a b).pushLarge b := by
  have hP := h.size_P
  have hprobability := h.size_probability
  have htable := h.size_table
  have hcell : (v.settled a b).P.cell b = v.P.cell b - (1 - v.P.cell a) :=
    Function.update_self _ _ _
  rw [hcell, pairEntries, hu]
  simp only [hv, Block.load_eq (b := v.P) (i := a) (by omega),
    Block.load_eq (b := v.P) (i := b) (by omega),
    Block.store_eq (b := v.aliasProbability) (i := a) (by omega),
    Block.store_eq (b := v.aliasTable) (i := a) (by omega),
    Block.store_eq (b := v.P) (i := b) (by omega), Option.bind_eq_bind, Option.bind_some]
  rfl

theorem pairEntries_spec (h : Fills n target (a :: small) (b :: large) s)
    (hn : n < 2 ^ 32) : ∃ t small' large', pairEntries s = some t ∧
      Fills n target small' large' t ∧ (small' ++ large').Perm (b :: (small ++ large)) := by
  obtain ⟨u, hu, hlists, hsame⟩ := h.toHasLists.popSmall hn
  obtain ⟨v, hv, hlists, hsame'⟩ := hlists.popLarge hn
  have hsame := hsame.trans hsame'
  have hperm : (a :: small ++ b :: large).Perm (a :: b :: (small ++ large)) :=
    List.Perm.cons a List.perm_middle
  obtain ⟨ha, hnodup⟩ := List.nodup_cons.mp (hperm.nodup_iff.mp h.nodup)
  have hb := (List.nodup_cons.mp hnodup).1
  have hne : a ≠ b := fun heq => ha (heq ▸ List.mem_cons_self)
  have hamem : a ∈ a :: small ++ b :: large := hperm.mem_iff.mpr List.mem_cons_self
  have hbmem : b ∈ a :: small ++ b :: large :=
    hperm.mem_iff.mpr (List.mem_cons_of_mem _ List.mem_cons_self)
  have hltb := h.lt b hbmem
  have hbalanced := h.balanced.settle hne (List.mem_toFinset.mpr hamem)
    (List.mem_toFinset.mpr hbmem) (h.mass_small a List.mem_cons_self).le
    (h.mass_large b List.mem_cons_self)
  rw [← hsame.filling_eq] at hbalanced
  rw [pairEntries_eq hu hv hlists (h.lt a hamem) hltb]
  by_cases hmass : (v.settled a b).P.cell b < 1
  · obtain ⟨t, ht, htlists, htsame⟩ := (hlists.settled hb).pushSmall hn hltb hb hmass
    refine ⟨t, b :: small, large, (if_pos hmass).trans ht, ⟨htlists, ?_⟩, List.Perm.refl _⟩
    rw [htsame.filling_eq, filling_settled ha (List.Perm.refl _)]
    exact hbalanced
  · obtain ⟨t, ht, htlists, htsame⟩ :=
      (hlists.settled hb).pushLarge hn hltb hb (not_lt.mp hmass)
    refine ⟨t, small, b :: large, (if_neg hmass).trans ht, ⟨htlists, ?_⟩, List.perm_middle⟩
    rw [htsame.filling_eq, filling_settled ha List.perm_middle]
    exact hbalanced

end Settled

theorem keepLarge_spec (h : Fills n target [] (j :: large) s) (hn : n < 2 ^ 32) :
    ∃ t, keepLarge s = some t ∧ Fills n target [] large t := by
  obtain ⟨u, hu, hlists, hsame⟩ := h.toHasLists.popLarge hn
  have hj := h.lt j List.mem_cons_self
  have hmem : j ∈ (j :: large).toFinset := List.mem_toFinset.mpr List.mem_cons_self
  have hmass : s.P.cell j = 1 := h.balanced.mass_eq_one
    (fun i hi => h.mass_large i (List.mem_toFinset.mp hi)) j hmem
  have hsize := hlists.size_probability
  have hstore := Block.store_eq (b := u.aliasProbability) (i := j) (by omega) 1
  refine ⟨_, by rw [keepLarge, hu]; exact congrArg (Option.bind · _) hstore,
    hlists.setProbability j 1, ?_⟩
  have hbalanced := h.balanced.keep hmem hmass
  have hpending : large.toFinset = (j :: large).toFinset.erase j := by
    rw [List.toFinset_cons, Finset.erase_insert]
    exact fun hmem => (List.nodup_cons.mp h.nodup).1 (List.mem_toFinset.mp hmem)
  rw [filling, List.nil_append, hpending, hsame.P_eq, hsame.probability_eq, hsame.table_eq]
  exact hbalanced

/-- The lists of `s` are known only to the proof. -/
def Filled (n : ℕ) (target : ℕ → ℚ) (s : TableState) : Prop :=
  ∃ small large, Fills n target small large s

theorem pairLoop_spec (h : Fills n target small large s) (hn : n < 2 ^ 32) :
    ∃ t small' large', Fills n target small' large' t ∧ (small' = [] ∨ large' = []) ∧
      t.listed n ≤ s.listed n ∧ ∀ fuel, s.listed n ≤ fuel →
        whileLoop (fun s => s.nSmall != 0 && s.nLarge != decU32 n) pairEntries fuel s = some t := by
  have hbody : ∀ u, Filled n target u → (u.nSmall != 0 && u.nLarge != decU32 n) = true →
      ∃ v, pairEntries u = some v ∧ Filled n target v ∧ v.listed n < u.listed n := by
    rintro u ⟨small, large, h⟩ hcond
    rw [Bool.and_eq_true, bne_iff_ne, bne_iff_ne, ne_eq, ne_eq, h.nSmall_eq_zero,
      h.nLarge_eq_last hn] at hcond
    obtain ⟨a, small, rfl⟩ := List.exists_cons_of_ne_nil hcond.1
    obtain ⟨b, large, rfl⟩ := List.exists_cons_of_ne_nil hcond.2
    obtain ⟨v, small', large', hv, hfills, hperm⟩ := pairEntries_spec h hn
    refine ⟨v, hv, ⟨small', large', hfills⟩, ?_⟩
    have hlen := hperm.length_eq
    rw [hfills.listed_eq hn, h.listed_eq hn]
    simp only [List.length_append, List.length_cons] at hlen ⊢
    omega
  obtain ⟨t, ⟨small', large', hfills⟩, hcond, hle, hrun⟩ :=
    whileLoop_spec (TableState.listed n) hbody ⟨small, large, h⟩
  refine ⟨t, small', large', hfills, ?_, hle, hrun⟩
  rw [← hfills.nSmall_eq_zero, ← hfills.nLarge_eq_last hn]
  rw [Bool.and_eq_false_iff, bne_eq_false_iff_eq, bne_eq_false_iff_eq] at hcond
  exact hcond

/-- With exact arithmetic nothing is left on the list `Small`. -/
theorem small_eq_nil (h : Fills n target small large s) (hend : small = [] ∨ large = []) :
    small = [] := by
  rcases hend with hnil | rfl
  · exact hnil
  · have hempty := h.balanced.pending_eq_empty fun i hi => h.mass_small i (by
      rw [← List.append_nil small]
      exact List.mem_toFinset.mp hi)
    rw [filling, List.append_nil, List.toFinset_eq_empty_iff] at hempty
    exact hempty

theorem keepLoop_spec (h : Fills n target [] large s) (hn : n < 2 ^ 32) :
    ∃ t, Fills n target [] [] t ∧ ∀ fuel, s.listed n ≤ fuel →
      whileLoop (fun s => s.nLarge != decU32 n) keepLarge fuel s = some t := by
  have hbody : ∀ u, (∃ large, Fills n target [] large u) → (u.nLarge != decU32 n) = true →
      ∃ v, keepLarge u = some v ∧ (∃ large, Fills n target [] large v) ∧
        v.listed n < u.listed n := by
    rintro u ⟨large, h⟩ hcond
    rw [bne_iff_ne, ne_eq, h.nLarge_eq_last hn] at hcond
    obtain ⟨j, large, rfl⟩ := List.exists_cons_of_ne_nil hcond
    obtain ⟨v, hv, hfills⟩ := keepLarge_spec h hn
    refine ⟨v, hv, ⟨large, hfills⟩, ?_⟩
    rw [hfills.listed_eq hn, h.listed_eq hn, List.length_cons]
    omega
  obtain ⟨t, ⟨large', hfills⟩, hcond, -, hrun⟩ :=
    whileLoop_spec (TableState.listed n) hbody ⟨large, h⟩
  rw [bne_eq_false_iff_eq, hfills.nLarge_eq_last hn] at hcond
  exact ⟨t, hcond ▸ hfills, hrun⟩

/-- With an `s32` that holds every index, the loops end inside their arrays with a table in which
each index gets its target. -/
theorem fillAliasTable_spec {P : ℕ → ℚ} (hn : n ≤ 2 ^ 31) (hnonneg : ∀ i < n, 0 ≤ P i)
    (htotal : ∑ i ∈ Finset.range n, P i = n) :
    ∃ t, Fills n P [] [] t ∧ ∀ fuel, n ≤ fuel → fillAliasTable fuel n P = some t := by
  have hlt : n < 2 ^ 32 := by omega
  have hcount : signedCount n = n := by
    unfold signedCount decU32
    rw [BitVec.toInt_eq_toNat_cond, BitVec.toNat_ofNat]
    split <;> omega
  obtain ⟨s, small, large, hs, hlists, hsame, hperm⟩ := sortEntries_spec
    (List.range n).reverse (HasLists.start n P) hlt
    (fun j hj => List.mem_range.mp (List.mem_reverse.mp hj))
    (by rw [List.append_nil, List.append_nil, List.nodup_reverse]; exact List.nodup_range)
  rw [List.append_nil, List.append_nil] at hperm
  have hpending : (small ++ large).toFinset = Finset.range n := by
    ext i
    rw [List.mem_toFinset, hperm.mem_iff, List.mem_reverse, List.mem_range, Finset.mem_range]
  have hfills : Fills n P small large s := ⟨hlists, Balanced.init hpending
    (fun i _ => congrArg (Block.cell · i) hsame.P_eq)
    (fun i hi => hnonneg i (Finset.mem_range.mp hi)) (by rw [htotal, Finset.card_range])⟩
  have hlisted : s.listed n ≤ n := by
    rw [hlists.listed_eq hlt]
    exact hlists.length_le
  obtain ⟨t, small', large', hfills, hend, hle, hpair⟩ := pairLoop_spec hfills hlt
  obtain rfl := small_eq_nil hfills hend
  obtain ⟨u, hdone, hkeep⟩ := keepLoop_spec hfills hlt
  refine ⟨u, hdone, fun fuel hfuel => ?_⟩
  have hnone : whileLoop (fun s => s.nSmall != 0) keepSmall fuel t = some t :=
    whileLoop_of_done (by rw [bne_eq_false_iff_eq, hfills.nSmall_eq_zero]) fuel
  rw [fillAliasTable, hcount, hs]
  simp only [hpair fuel (by omega), Option.bind_eq_bind, Option.bind_some]
  rw [hnone, Option.bind_some, hkeep fuel (by omega)]

/-- Otherwise the table stays as it was cleared. -/
theorem fillAliasTable_of_long {P : ℕ → ℚ} (hn : 2 ^ 31 < n) (hlt : n < 2 ^ 32) (fuel : ℕ) :
    fillAliasTable fuel n P = some (start n P) := by
  have hcount : signedCount n = 0 := by
    unfold signedCount decU32
    rw [BitVec.toInt_eq_toNat_cond, BitVec.toNat_ofNat]
    split <;> omega
  have hpair : whileLoop (fun s => s.nSmall != 0 && s.nLarge != decU32 n) pairEntries fuel
      (start n P) = some (start n P) := whileLoop_of_done rfl fuel
  have hsmall : whileLoop (fun s => s.nSmall != 0) keepSmall fuel (start n P) =
      some (start n P) := whileLoop_of_done rfl fuel
  have hlarge : whileLoop (fun s => s.nLarge != decU32 n) keepLarge fuel (start n P) =
      some (start n P) := by
    refine whileLoop_of_done ?_ fuel
    exact bne_self_eq_false (decU32 n)
  rw [fillAliasTable, hcount]
  simp only [List.range_zero, List.reverse_nil, List.foldlM_nil, Option.pure_def,
    Option.bind_eq_bind, Option.bind_some, hpair, hsmall, hlarge]

end Fill

/-! ## The law of the draw -/

/-- The probability that `i` is drawn when `s` and `p` are uniform. -/
noncomputable def drawProbability (t : TableState) (n i : ℕ) : ENNReal :=
  (∑ s ∈ Finset.range n,
    (volume.restrict (Ico (0 : ℝ) 1)) {p | selectNextQueueEntry t s p = i}) / n

/-- The table is filled inside the arrays, and the draws follow the weights. -/
def DrawsByWeight (weights : List ℚ) : Prop :=
  ∃ t, (∀ fuel, weights.length ≤ fuel → createAliasTable fuel weights = some t) ∧
    (∀ i < weights.length, drawProbability t weights.length i =
      ENNReal.ofReal ((weights.getD i 0 / weights.sum : ℚ) : ℝ)) ∧
    ∀ i < weights.length, weights.getD i 0 = 0 → ∀ s < weights.length, ∀ p ∈ Ico (0 : ℝ) 1,
      selectNextQueueEntry t s p ≠ i

section Law
variable {n : ℕ} {t : TableState}

theorem cast_portion (probability : ℕ → ℚ) (partner : ℕ → ℕ) (i s : ℕ) :
    ((portion probability partner i s : ℚ) : ℝ) =
      portion (fun s => (probability s : ℝ)) partner i s := by
  unfold portion
  split_ifs <;> push_cast <;> rfl

theorem portion_nonneg {probability : ℕ → ℚ} {partner : ℕ → ℕ} {s : ℕ}
    (h : probability s ∈ Icc 0 1) (i : ℕ) : 0 ≤ portion probability partner i s := by
  unfold portion
  split_ifs <;> linarith [h.1, h.2]

theorem drawProbability_eq (hn : 0 < n)
    (h : ∀ s < n, t.aliasProbability.cell s ∈ Icc 0 1) (i : ℕ) :
    drawProbability t n i = ENNReal.ofReal (((∑ s ∈ Finset.range n,
      portion t.aliasProbability.cell t.aliasTable.cell i s) / n : ℚ) : ℝ) := by
  have hvolume : ∀ s ∈ Finset.range n,
      (volume.restrict (Ico (0 : ℝ) 1)) {p | selectNextQueueEntry t s p = i} =
        ENNReal.ofReal ((portion t.aliasProbability.cell t.aliasTable.cell i s : ℚ) : ℝ) := by
    intro s hs
    obtain ⟨hzero, hone⟩ := h s (Finset.mem_range.mp hs)
    rw [cast_portion]
    exact volume_select (fun s => (t.aliasProbability.cell s : ℝ)) t.aliasTable.cell i s
      ⟨by exact_mod_cast hzero, by exact_mod_cast hone⟩
  have hcast : (0 : ℝ) < n := Nat.cast_pos.mpr hn
  rw [drawProbability, Finset.sum_congr rfl hvolume, ← ENNReal.ofReal_sum_of_nonneg fun s hs =>
    by exact_mod_cast portion_nonneg (h s (Finset.mem_range.mp hs)) i]
  push_cast
  rw [ENNReal.ofReal_div_of_pos hcast, ENNReal.ofReal_natCast]

/-- In a table that was only cleared, each entry has the first one as its partner. -/
theorem drawProbability_start (hn : 0 < n) (P : ℕ → ℚ) (i : ℕ) :
    drawProbability (start n P) n i = if i = 0 then 1 else 0 := by
  have hportion : ∀ s, portion (start n P).aliasProbability.cell (start n P).aliasTable.cell i s =
      if i = 0 then 1 else 0 := by
    intro s
    simp [portion, start, eq_comm]
  have hne : (n : ℚ) ≠ 0 := by exact_mod_cast hn.ne'
  rw [drawProbability_eq hn (fun s _ => ⟨le_rfl, zero_le_one⟩) i,
    Finset.sum_congr rfl fun s _ => hportion s, Finset.sum_const, Finset.card_range, nsmul_eq_mul,
    mul_div_cancel_left₀ _ hne]
  split_ifs <;> simp

end Law

section Weights
variable {weights : List ℚ}

theorem sum_getD (weights : List ℚ) :
    ∑ i ∈ Finset.range weights.length, weights.getD i 0 = weights.sum := by
  rw [Finset.sum_range, ← Fin.sum_univ_getElem]
  exact Finset.sum_congr rfl fun i _ => List.getD_eq_getElem _ _ i.isLt

theorem drawsByWeight_of_le (hlen : weights.length ≤ 2 ^ 31) (hnonneg : ∀ w ∈ weights, 0 ≤ w)
    (hsum : weights.sum ≠ 0) : DrawsByWeight weights := by
  have hpos : 0 < weights.sum := lt_of_le_of_ne (List.sum_nonneg hnonneg) hsum.symm
  have hne : weights ≠ [] := fun hnil => hsum (by rw [hnil, List.sum_nil])
  have hlength : 0 < weights.length := List.length_pos_of_ne_nil hne
  have hcast : (weights.length : ℚ) ≠ 0 := by exact_mod_cast hlength.ne'
  have hweight : ∀ i < weights.length, 0 ≤ weights.getD i 0 := fun i hi => by
    rw [List.getD_eq_getElem _ _ hi]
    exact hnonneg _ (List.getElem_mem hi)
  obtain ⟨t, hfills, hrun⟩ := fillAliasTable_spec
    (P := fun i => weights.getD i 0 * weights.length / weights.sum) hlen
    (fun i hi => div_nonneg (mul_nonneg (hweight i hi) (Nat.cast_nonneg _)) hpos.le)
    (by rw [← Finset.sum_div, ← Finset.sum_mul, sum_getD, mul_div_cancel_left₀ _ hsum])
  have hfull : (t.filling [] []).pending = ∅ := rfl
  have hprobability : ∀ s < weights.length, t.aliasProbability.cell s ∈ Icc 0 1 := fun s hs =>
    hfills.balanced.probability_mem s (Finset.mem_range.mpr hs) (Finset.notMem_empty s)
  refine ⟨t, hrun, fun i hi => ?_, fun i hi hzero s hs p hp => ?_⟩
  · have hshare : ∑ s ∈ Finset.range weights.length,
        portion t.aliasProbability.cell t.aliasTable.cell i s =
          weights.getD i 0 * weights.length / weights.sum :=
      hfills.balanced.sum_portion hfull (Finset.mem_range.mpr hi)
    rw [drawProbability_eq hlength hprobability, hshare, div_right_comm,
      mul_div_cancel_right₀ _ hcast]
  · obtain ⟨hkept, hpartner⟩ : (s = i → t.aliasProbability.cell s = 0) ∧
        (t.aliasTable.cell s = i → t.aliasProbability.cell s = 1) :=
      hfills.balanced.not_drawn hfull (Finset.mem_range.mpr hi)
        (by rw [hzero, zero_mul, zero_div]) (Finset.mem_range.mpr hs)
    unfold selectNextQueueEntry
    split_ifs with hlt
    · intro heq
      rw [hkept heq, Rat.cast_zero] at hlt
      exact absurd hp.1 (not_le.mpr hlt)
    · intro heq
      rw [hpartner heq, Rat.cast_one] at hlt
      exact hlt hp.2

theorem createAliasTable_of_long (hlen : 2 ^ 31 < weights.length)
    (hlt : weights.length < 2 ^ 32) (fuel : ℕ) : createAliasTable fuel weights =
      some (start weights.length fun i => weights.getD i 0 * weights.length / weights.sum) :=
  fillAliasTable_of_long hlen hlt fuel

/-- When the table is not filled, the first entry is always drawn. -/
theorem drawsByWeight_of_long_iff (hlen : 2 ^ 31 < weights.length)
    (hlt : weights.length < 2 ^ 32) (hnonneg : ∀ w ∈ weights, 0 ≤ w) (hsum : weights.sum ≠ 0) :
    DrawsByWeight weights ↔ ∀ i, 0 < i → i < weights.length → weights.getD i 0 = 0 := by
  have hpos : 0 < weights.sum := lt_of_le_of_ne (List.sum_nonneg hnonneg) hsum.symm
  have hlength : 0 < weights.length := by omega
  have hdraw := drawProbability_start hlength
    fun i => weights.getD i 0 * weights.length / weights.sum
  constructor
  · rintro ⟨t, hrun, hlaw, -⟩ i hi hin
    obtain rfl := Option.some.inj
      ((hrun weights.length le_rfl).symm.trans (createAliasTable_of_long hlen hlt _))
    have hzero := (hlaw i hin).symm.trans ((hdraw i).trans (if_neg hi.ne'))
    have hle : (weights.getD i 0 / weights.sum : ℚ) ≤ 0 := by
      exact_mod_cast ENNReal.ofReal_eq_zero.mp hzero
    have hmem : 0 ≤ weights.getD i 0 := by
      rw [List.getD_eq_getElem _ _ hin]
      exact hnonneg _ (List.getElem_mem hin)
    exact le_antisymm (by simpa using (div_le_iff₀ hpos).mp hle) hmem
  · intro hzero
    have hfirst : weights.getD 0 0 = weights.sum := by
      rw [← sum_getD weights, Finset.sum_eq_single_of_mem 0 (Finset.mem_range.mpr hlength)]
      intro i hi hne
      exact hzero i (Nat.pos_of_ne_zero hne) (Finset.mem_range.mp hi)
    refine ⟨_, fun fuel _ => createAliasTable_of_long hlen hlt fuel, fun i hi => ?_,
      fun i hi hweight s hs p hp => ?_⟩
    · rw [hdraw i]
      split_ifs with heq
      · rw [heq, hfirst, div_self hsum, Rat.cast_one, ENNReal.ofReal_one]
      · rw [hzero i (Nat.pos_of_ne_zero heq) hi, zero_div, Rat.cast_zero, ENNReal.ofReal_zero]
    · have hne : i ≠ 0 := by
        rintro rfl
        exact hsum (hfirst.symm.trans hweight)
      have hselect : selectNextQueueEntry (start weights.length
          fun i => weights.getD i 0 * weights.length / weights.sum) s p = 0 :=
        if_neg (by rw [start, Rat.cast_zero]; exact not_lt.mpr hp.1)
      rw [hselect]
      exact hne.symm

/-- The draws follow the weights if and only if the last index fits into the `s32`, or no other
entry than the first has a weight. -/
theorem drawsByWeight_iff (weights : List ℚ) (hlt : weights.length < 2 ^ 32)
    (hnonneg : ∀ w ∈ weights, 0 ≤ w) (hsum : weights.sum ≠ 0) :
    DrawsByWeight weights ↔ weights.length ≤ 2 ^ 31 ∨
      ∀ i, 0 < i → i < weights.length → weights.getD i 0 = 0 := by
  by_cases hlen : weights.length ≤ 2 ^ 31
  · exact iff_of_true (drawsByWeight_of_le hlen hnonneg hsum) (Or.inl hlen)
  · rw [drawsByWeight_of_long_iff (not_le.mp hlen) hlt hnonneg hsum, or_iff_right hlen]

theorem drawsByWeight_disabledSecond : DrawsByWeight [1, 0, 3] :=
  (drawsByWeight_iff [1, 0, 3] (by decide) (by simp) (by norm_num)).mpr (Or.inl (by decide))

/-- One entry too many, all with the same weight. -/
theorem not_drawsByWeight_long : ¬∀ weights : List ℚ, weights.length < 2 ^ 32 →
    (∀ w ∈ weights, 0 ≤ w) → weights.sum ≠ 0 → DrawsByWeight weights := by
  intro h
  have hlength : (List.replicate (2 ^ 31 + 1) (1 : ℚ)).length = 2 ^ 31 + 1 :=
    List.length_replicate
  have hnonneg : ∀ w ∈ List.replicate (2 ^ 31 + 1) (1 : ℚ), 0 ≤ w := fun w hw => by
    rw [List.eq_of_mem_replicate hw]
    exact zero_le_one
  have hsum : (List.replicate (2 ^ 31 + 1) (1 : ℚ)).sum ≠ 0 := by
    rw [List.sum_replicate, nsmul_one]
    exact Nat.cast_ne_zero.mpr (Nat.succ_ne_zero _)
  have hlt : (List.replicate (2 ^ 31 + 1) (1 : ℚ)).length < 2 ^ 32 := by
    rw [hlength]
    norm_num
  have hone := (drawsByWeight_of_long_iff (by rw [hlength]; norm_num) hlt hnonneg hsum).mp
    (h _ hlt hnonneg hsum) 1 one_pos (by rw [hlength]; norm_num)
  rw [List.getD_eq_getElem _ _ (by rw [hlength]; norm_num), List.getElem_replicate] at hone
  exact one_ne_zero hone

end Weights

end AflPlusPlus.AliasSelection
