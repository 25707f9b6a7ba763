import Mathlib

/-!
# Alias tables

An alias table draws an index in two steps: one index is drawn uniformly, and then either kept,
with a probability of its own, or exchanged for its partner. A table is filled one entry at
a time: an index whose mass is at most one gets its entry, and its partner, whose mass is at
least one, gives what is missing. What each index gets in all is the mass that it had before.
-/

namespace AflPlusPlus.AliasTables
open MeasureTheory Set

variable {ι K : Type*}

/-- A table that is being filled. The indices in `pending` have no entry yet. -/
structure Filling (ι K : Type*) where
  pending : Finset ι
  mass : ι → K
  probability : ι → K
  partner : ι → ι

section Shares
variable [DecidableEq ι] [Field K]

/-- What the entry of `s` gives to `i`. -/
def portion (probability : ι → K) (partner : ι → ι) (i s : ι) : K :=
  (if s = i then probability s else 0) + if partner s = i then 1 - probability s else 0

namespace Filling

/-- A pending index gives its mass to itself. -/
def part (t : Filling ι K) (i s : ι) : K :=
  if s ∈ t.pending then if s = i then t.mass s else 0 else portion t.probability t.partner i s

def share (S : Finset ι) (t : Filling ι K) (i : ι) : K := ∑ s ∈ S, t.part i s

/-- The entry of `a` with the partner `b`, which gives what is missing. -/
def settle (t : Filling ι K) (a b : ι) : Filling ι K where
  pending := t.pending.erase a
  mass := Function.update t.mass b (t.mass b - (1 - t.mass a))
  probability := Function.update t.probability a (t.mass a)
  partner := Function.update t.partner a b

/-- The entry of an index that is always kept. -/
def keep (t : Filling ι K) (a : ι) : Filling ι K :=
  { t with pending := t.pending.erase a, probability := Function.update t.probability a 1 }

variable {S : Finset ι} {t : Filling ι K} {a b i s : ι}

@[simp] theorem mass_settle : (t.settle a b).mass =
    Function.update t.mass b (t.mass b - (1 - t.mass a)) := rfl

@[simp] theorem probability_settle : (t.settle a b).probability =
    Function.update t.probability a (t.mass a) := rfl

@[simp] theorem partner_settle : (t.settle a b).partner = Function.update t.partner a b := rfl

@[simp] theorem probability_keep : (t.keep a).probability =
    Function.update t.probability a 1 := rfl

theorem part_of_mem (h : s ∈ t.pending) : t.part i s = if s = i then t.mass s else 0 := if_pos h

theorem part_of_notMem (h : s ∉ t.pending) :
    t.part i s = portion t.probability t.partner i s := if_neg h

theorem part_settle_other (hne : s ≠ a) (hne' : s ≠ b) : (t.settle a b).part i s = t.part i s := by
  unfold part portion settle
  simp only [Finset.mem_erase, Function.update_of_ne hne, Function.update_of_ne hne', ne_eq, hne,
    not_false_eq_true, true_and]

theorem part_settle_self : (t.settle a b).part i a =
    (if a = i then t.mass a else 0) + if b = i then 1 - t.mass a else 0 := by
  rw [part_of_notMem (Finset.notMem_erase a t.pending)]
  simp [portion, settle]

theorem part_settle_partner (hne : a ≠ b) (hb : b ∈ t.pending) : (t.settle a b).part i b =
    if b = i then t.mass b - (1 - t.mass a) else 0 := by
  rw [part_of_mem (Finset.mem_erase.mpr ⟨hne.symm, hb⟩)]
  simp [settle]

/-- What the partner gives is what the entry gives to it. -/
theorem share_settle (hne : a ≠ b) (ha : a ∈ t.pending) (hb : b ∈ t.pending)
    (hsub : t.pending ⊆ S) : (t.settle a b).share S i = t.share S i := by
  have hzero : ∑ s ∈ S, ((t.settle a b).part i s - t.part i s) = 0 := by
    rw [Finset.sum_eq_add a b hne]
    · rw [part_settle_self, part_settle_partner hne hb, part_of_mem ha, part_of_mem hb]
      split_ifs <;> ring
    · intro s _ hs
      rw [part_settle_other hs.1 hs.2, sub_self]
    · exact fun h => absurd (hsub ha) h
    · exact fun h => absurd (hsub hb) h
  rw [Finset.sum_sub_distrib] at hzero
  exact sub_eq_zero.mp hzero

theorem share_keep (ha : a ∈ t.pending) (hmass : t.mass a = 1) :
    (t.keep a).share S i = t.share S i := by
  refine Finset.sum_congr rfl fun s _ => ?_
  by_cases hs : s = a
  · subst hs
    rw [part_of_notMem (Finset.notMem_erase s t.pending), part_of_mem ha, hmass]
    simp [portion, keep]
  · unfold part portion keep
    simp only [Finset.mem_erase, Function.update_of_ne hs, ne_eq, hs, not_false_eq_true, true_and]

end Filling

end Shares

section Balance
variable [DecidableEq ι] [Field K] [LinearOrder K] [IsStrictOrderedRing K]

/-- Each index gets its target, and the mass of the pending indices is just enough for their
entries. -/
structure Balanced (S : Finset ι) (target : ι → K) (t : Filling ι K) : Prop where
  pending_subset : t.pending ⊆ S
  share_eq : ∀ i ∈ S, t.share S i = target i
  total_eq : ∑ s ∈ t.pending, t.mass s = t.pending.card
  mass_nonneg : ∀ s ∈ t.pending, 0 ≤ t.mass s
  probability_mem : ∀ s ∈ S, s ∉ t.pending → t.probability s ∈ Icc 0 1
  partner_mem : ∀ s ∈ S, s ∉ t.pending → t.probability s ≠ 1 → t.partner s ∈ S

namespace Balanced

variable {S : Finset ι} {target : ι → K} {t : Filling ι K} {a b : ι}

omit [IsStrictOrderedRing K] in
theorem init (hpending : t.pending = S) (hmass : ∀ s ∈ S, t.mass s = target s)
    (hnonneg : ∀ s ∈ S, 0 ≤ target s) (htotal : ∑ s ∈ S, target s = S.card) :
    Balanced S target t where
  pending_subset := hpending.subset
  share_eq i hi := by
    have hpart : ∀ s ∈ S, t.part i s = if s = i then t.mass s else 0 :=
      fun s hs => Filling.part_of_mem (hpending ▸ hs)
    rw [Filling.share, Finset.sum_congr rfl hpart, Finset.sum_ite_eq' S i, if_pos hi, hmass i hi]
  total_eq := by rw [hpending, Finset.sum_congr rfl hmass, htotal]
  mass_nonneg s hs := hmass s (hpending ▸ hs) ▸ hnonneg s (hpending ▸ hs)
  probability_mem s hs hs' := absurd (hpending ▸ hs) hs'
  partner_mem s hs hs' := absurd (hpending ▸ hs) hs'

theorem settle (h : Balanced S target t) (hne : a ≠ b) (ha : a ∈ t.pending) (hb : b ∈ t.pending)
    (hmassa : t.mass a ≤ 1) (hmassb : 1 ≤ t.mass b) : Balanced S target (t.settle a b) where
  pending_subset := (Finset.erase_subset a _).trans h.pending_subset
  share_eq i hi := by rw [Filling.share_settle hne ha hb h.pending_subset, h.share_eq i hi]
  total_eq := by
    have hb' : b ∈ t.pending.erase a := Finset.mem_erase.mpr ⟨hne.symm, hb⟩
    have htotal := h.total_eq
    rw [← Finset.add_sum_erase _ _ ha, ← Finset.add_sum_erase _ _ hb',
      ← Finset.card_erase_add_one ha] at htotal
    push_cast at htotal
    dsimp only [Filling.settle]
    rw [← Finset.add_sum_erase _ _ hb', Function.update_self,
      Finset.sum_congr rfl fun s hs => Function.update_of_ne (Finset.ne_of_mem_erase hs) _ _]
    linear_combination htotal
  mass_nonneg s hs := by
    obtain ⟨hsa, hs⟩ := Finset.mem_erase.mp hs
    have hnonneg := h.mass_nonneg a ha
    by_cases hsb : s = b
    · subst hsb
      rw [Filling.mass_settle, Function.update_self]
      linarith
    · rw [Filling.mass_settle, Function.update_of_ne hsb]
      exact h.mass_nonneg s hs
  probability_mem s hs hs' := by
    by_cases hsa : s = a
    · subst hsa
      rw [Filling.probability_settle, Function.update_self]
      exact ⟨h.mass_nonneg s ha, hmassa⟩
    · rw [Filling.probability_settle, Function.update_of_ne hsa]
      exact h.probability_mem s hs fun hmem => hs' (Finset.mem_erase.mpr ⟨hsa, hmem⟩)
  partner_mem s hs hs' := by
    by_cases hsa : s = a
    · subst hsa
      rw [Filling.partner_settle, Function.update_self]
      exact fun _ => h.pending_subset hb
    · rw [Filling.probability_settle, Filling.partner_settle, Function.update_of_ne hsa,
        Function.update_of_ne hsa]
      exact h.partner_mem s hs fun hmem => hs' (Finset.mem_erase.mpr ⟨hsa, hmem⟩)

theorem keep (h : Balanced S target t) (ha : a ∈ t.pending) (hmass : t.mass a = 1) :
    Balanced S target (t.keep a) where
  pending_subset := (Finset.erase_subset a _).trans h.pending_subset
  share_eq i hi := by rw [Filling.share_keep ha hmass, h.share_eq i hi]
  total_eq := by
    have htotal := h.total_eq
    rw [← Finset.add_sum_erase _ _ ha, ← Finset.card_erase_add_one ha, hmass] at htotal
    push_cast at htotal
    dsimp only [Filling.keep]
    linear_combination htotal
  mass_nonneg s hs := h.mass_nonneg s (Finset.mem_of_mem_erase hs)
  probability_mem s hs hs' := by
    by_cases hsa : s = a
    · subst hsa
      rw [Filling.probability_keep, Function.update_self]
      exact ⟨zero_le_one, le_rfl⟩
    · rw [Filling.probability_keep, Function.update_of_ne hsa]
      exact h.probability_mem s hs fun hmem => hs' (Finset.mem_erase.mpr ⟨hsa, hmem⟩)
  partner_mem s hs hs' := by
    by_cases hsa : s = a
    · subst hsa
      rw [Filling.probability_keep, Function.update_self]
      exact fun hone => absurd rfl hone
    · rw [Filling.probability_keep, Function.update_of_ne hsa]
      exact h.partner_mem s hs fun hmem => hs' (Finset.mem_erase.mpr ⟨hsa, hmem⟩)

/-- When none of the pending indices has too little mass, none has too much. -/
theorem mass_eq_one (h : Balanced S target t) (hle : ∀ s ∈ t.pending, 1 ≤ t.mass s) :
    ∀ s ∈ t.pending, t.mass s = 1 := by
  have hone : ∑ s ∈ t.pending, (1 : K) = ∑ s ∈ t.pending, t.mass s := by
    rw [h.total_eq, Finset.sum_const, nsmul_one]
  exact fun s hs => ((Finset.sum_eq_sum_iff_of_le hle).mp hone s hs).symm

/-- Not all of the pending indices have too little mass. -/
theorem pending_eq_empty (h : Balanced S target t) (hlt : ∀ s ∈ t.pending, t.mass s < 1) :
    t.pending = ∅ := by
  by_contra hne
  have hsum := Finset.sum_lt_sum_of_nonempty (Finset.nonempty_iff_ne_empty.mpr hne) hlt
  rw [h.total_eq, Finset.sum_const, nsmul_one] at hsum
  exact lt_irrefl _ hsum

omit [IsStrictOrderedRing K] in
/-- In a table that is full, each index gets its target. -/
theorem sum_portion (h : Balanced S target t) (hfull : t.pending = ∅) {i : ι} (hi : i ∈ S) :
    ∑ s ∈ S, portion t.probability t.partner i s = target i := by
  rw [← h.share_eq i hi]
  exact Finset.sum_congr rfl fun s _ =>
    (Filling.part_of_notMem (hfull ▸ Finset.notMem_empty s)).symm

theorem portion_nonneg (h : Balanced S target t) (hfull : t.pending = ∅) (i : ι) {s : ι}
    (hs : s ∈ S) : 0 ≤ portion t.probability t.partner i s := by
  obtain ⟨hzero, hone⟩ := h.probability_mem s hs (hfull ▸ Finset.notMem_empty s)
  refine add_nonneg ?_ ?_
  · split_ifs
    exacts [hzero, le_rfl]
  · split_ifs
    exacts [sub_nonneg.mpr hone, le_rfl]

/-- An index whose target is zero is never kept and never a partner that is taken. -/
theorem not_drawn (h : Balanced S target t) (hfull : t.pending = ∅) {i s : ι} (hi : i ∈ S)
    (htarget : target i = 0) (hs : s ∈ S) :
    (s = i → t.probability s = 0) ∧ (t.partner s = i → t.probability s = 1) := by
  have hzero : portion t.probability t.partner i s = 0 :=
    (Finset.sum_eq_zero_iff_of_nonneg fun s hs => h.portion_nonneg hfull i hs).mp
      ((h.sum_portion hfull hi).trans htarget) s hs
  unfold portion at hzero
  refine ⟨fun hkept => ?_, fun hpartner => ?_⟩
  · rw [if_pos hkept] at hzero
    split_ifs at hzero <;> linarith
  · rw [if_pos hpartner] at hzero
    split_ifs at hzero <;> linarith

end Balanced

end Balance

/-! ## The law of a drawn index -/

theorem volume_keep {q : ℝ} (hq : q ∈ Icc 0 1) :
    (volume.restrict (Ico (0 : ℝ) 1)) {p | p < q} = ENNReal.ofReal q := by
  have heq : {p | p < q} ∩ Ico (0 : ℝ) 1 = Ico 0 q := by
    ext p
    simp only [mem_inter_iff, mem_ofPred_eq, mem_Ico]
    exact ⟨fun h => ⟨h.2.1, h.1⟩, fun h => ⟨h.2, h.1, h.2.trans_le hq.2⟩⟩
  rw [Measure.restrict_apply' measurableSet_Ico, heq, Real.volume_Ico, sub_zero]

theorem volume_exchange {q : ℝ} (hq : q ∈ Icc 0 1) :
    (volume.restrict (Ico (0 : ℝ) 1)) {p | ¬p < q} = ENNReal.ofReal (1 - q) := by
  have heq : {p | ¬p < q} ∩ Ico (0 : ℝ) 1 = Ico q 1 := by
    ext p
    simp only [mem_inter_iff, mem_ofPred_eq, mem_Ico, not_lt]
    exact ⟨fun h => ⟨h.1, h.2.2⟩, fun h => ⟨h.1, hq.1.trans h.1, h.2⟩⟩
  rw [Measure.restrict_apply' measurableSet_Ico, heq, Real.volume_Ico]

/-- With a number that is uniform in `[0,1)`, the entry of `s` draws `i` with the probability of
its portion. -/
theorem volume_select [DecidableEq ι] (probability : ι → ℝ) (partner : ι → ι) (i s : ι)
    (hs : probability s ∈ Icc 0 1) :
    (volume.restrict (Ico (0 : ℝ) 1)) {p | (if p < probability s then s else partner s) = i} =
      ENNReal.ofReal (portion probability partner i s) := by
  unfold portion
  by_cases hkept : s = i
  · subst hkept
    by_cases hpartner : partner s = s
    · have heq : {p : ℝ | (if p < probability s then s else partner s) = s} = univ := by
        ext p
        simp [hpartner]
      rw [heq, Measure.restrict_apply_univ, Real.volume_Ico, if_pos rfl, if_pos hpartner]
      congr 1
      ring
    · have heq : {p : ℝ | (if p < probability s then s else partner s) = s} =
          {p | p < probability s} := by
        ext p
        simp [ite_eq_left_iff, hpartner]
      rw [heq, volume_keep hs, if_pos rfl, if_neg hpartner, add_zero]
  · by_cases hpartner : partner s = i
    · have heq : {p : ℝ | (if p < probability s then s else partner s) = i} =
          {p | ¬p < probability s} := by
        ext p
        simp [hkept, hpartner]
      rw [heq, volume_exchange hs, if_neg hkept, if_pos hpartner, zero_add]
    · have heq : {p : ℝ | (if p < probability s then s else partner s) = i} = ∅ := by
        ext p
        simp [ite_eq_iff, hkept, hpartner]
      rw [heq, measure_empty, if_neg hkept, if_neg hpartner, add_zero, ENNReal.ofReal_zero]

end AflPlusPlus.AliasTables
