import AflPlusPlus.CheckedBlocks
import Mathlib

/-!
# Looking up an address in the filter

`locate_in_pcs` searches the sorted table of address ranges. The bounds of the search are unsigned,
so the upper one of an empty table is the greatest number, and the search must stop before it steps
below index 0.
-/

namespace AflPlusPlus.LocateInPcs
open CheckedBlocks

structure FilterPCEntry where
  start : BitVec 64
  len : BitVec 32
deriving DecidableEq

/-- The loop, which may be run `fuel` times. The index is reported as a `u32`. -/
def locateFrom (pcs : Block FilterPCEntry) (needle : BitVec 64) :
    ℕ → ℕ → ℕ → Option (Option ℕ)
  | 0, _, _ => none
  | fuel + 1, lowerBound, upperBound =>
    if lowerBound < pcs.size ∧ lowerBound ≤ upperBound then
      let currentIndex := lowerBound + (upperBound - lowerBound) / 2
      (pcs.load currentIndex).bind fun entry =>
        if entry.start ≤ needle then
          if entry.start + entry.len.setWidth 64 > needle then some (some (currentIndex % 2 ^ 32))
          else locateFrom pcs needle fuel (currentIndex + 1) upperBound
        else if currentIndex = 0 then some none
        else locateFrom pcs needle fuel lowerBound (currentIndex - 1)
    else some none

/-- The reported index, if the address is found. There is no result where the loop reads outside of
the table, or runs too often. -/
def locateInPcs (pcs : Block FilterPCEntry) (needle : BitVec 64) : Option (Option ℕ) :=
  locateFrom pcs needle (pcs.size + 1) 0 ((pcs.size + (2 ^ 32 - 1)) % 2 ^ 32)

/-! ## Tables -/

/-- The address is in the range of the entry. -/
def FilterPCEntry.Covers (entry : FilterPCEntry) (needle : BitVec 64) : Prop :=
  entry.start.toNat ≤ needle.toNat ∧ needle.toNat < entry.start.toNat + entry.len.toNat

/-- A sorted table of disjoint ranges, none of which is empty or wraps around. -/
structure Table where
  pcs : Block FilterPCEntry
  size_lt : pcs.size < 2 ^ 32
  nonempty : ∀ i < pcs.size, 0 < (pcs.cell i).len.toNat
  noWrap : ∀ i < pcs.size, (pcs.cell i).start.toNat + (pcs.cell i).len.toNat < 2 ^ 64
  sorted : ∀ i j, i < j → j < pcs.size → (pcs.cell i).start.toNat ≤ (pcs.cell j).start.toNat
  disjoint : ∀ i j, i < j → j < pcs.size → ∀ a, (pcs.cell i).Covers a → ¬ (pcs.cell j).Covers a

namespace Table
variable {table : Table} {needle : BitVec 64} {i j : ℕ}

/-- A range ends where the later ones start, or before. -/
theorem ends_before (hij : i < j) (hj : j < table.pcs.size) :
    (table.pcs.cell i).start.toNat + (table.pcs.cell i).len.toNat ≤
      (table.pcs.cell j).start.toNat := by
  by_contra hlt
  apply table.disjoint i j hij hj (table.pcs.cell j).start
  · exact ⟨table.sorted i j hij hj, Nat.not_le.mp hlt⟩
  · exact ⟨le_rfl, Nat.lt_add_of_pos_right (table.nonempty j hj)⟩

/-- At most one range covers an address. -/
theorem index_unique (hi : i < table.pcs.size) (hj : j < table.pcs.size)
    (hcovers : (table.pcs.cell i).Covers needle) (hcovers' : (table.pcs.cell j).Covers needle) :
    i = j := by
  rcases Nat.lt_trichotomy i j with hlt | heq | hgt
  · exact absurd hcovers' (table.disjoint i j hlt hj needle hcovers)
  · exact heq
  · exact absurd hcovers (table.disjoint j i hgt hi needle hcovers')

/-- The code compares with the end of the range, which does not wrap. -/
theorem covers_iff (hi : i < table.pcs.size) (hstart : (table.pcs.cell i).start ≤ needle) :
    (table.pcs.cell i).start + (table.pcs.cell i).len.setWidth 64 > needle ↔
      (table.pcs.cell i).Covers needle := by
  have hlen : (table.pcs.cell i).len.toNat < 2 ^ 32 := (table.pcs.cell i).len.isLt
  have hwide : ((table.pcs.cell i).len.setWidth 64).toNat = (table.pcs.cell i).len.toNat := by
    rw [BitVec.toNat_setWidth, Nat.mod_eq_of_lt (by omega)]
  have hend : ((table.pcs.cell i).start + (table.pcs.cell i).len.setWidth 64).toNat =
      (table.pcs.cell i).start.toNat + (table.pcs.cell i).len.toNat := by
    rw [BitVec.toNat_add, hwide, Nat.mod_eq_of_lt (table.noWrap i hi)]
  rw [gt_iff_lt, BitVec.lt_def, hend]
  exact (and_iff_right hstart).symm

end Table

/-! ## The search -/

/-- What is known between two steps: the ranges below the lower bound end before the address, and
the ones above the upper bound start behind it. -/
structure Searching (table : Table) (needle : BitVec 64) (lowerBound upperBound : ℕ) : Prop where
  below : ∀ i < lowerBound, ¬ (table.pcs.cell i).Covers needle
  above : ∀ i, upperBound < i → i < table.pcs.size → ¬ (table.pcs.cell i).Covers needle
  upper_lt : upperBound < table.pcs.size

variable {table : Table} {needle : BitVec 64} {lowerBound upperBound fuel : ℕ}

/-- The result is an entry that covers the address, or nothing where no entry does. -/
def Located (table : Table) (needle : BitVec 64) (r : Option ℕ) : Prop :=
  match r with
  | some index => index < table.pcs.size ∧ (table.pcs.cell index).Covers needle
  | none => ∀ i < table.pcs.size, ¬ (table.pcs.cell i).Covers needle

theorem locateFrom_located (h : Searching table needle lowerBound upperBound)
    (hfuel : upperBound + 1 - lowerBound < fuel) :
    ∃ r, locateFrom table.pcs needle fuel lowerBound upperBound = some r ∧
      Located table needle r := by
  induction fuel generalizing lowerBound upperBound with
  | zero => exact absurd hfuel (Nat.not_lt_zero _)
  | succ fuel ih =>
    rw [locateFrom]
    have hupper := h.upper_lt
    split
    · next hcond =>
      obtain ⟨hlower, hle⟩ := hcond
      dsimp only
      set current := lowerBound + (upperBound - lowerBound) / 2 with hcurrent
      have hmin : lowerBound ≤ current := Nat.le_add_right _ _
      have hmax : current ≤ upperBound := by omega
      have hin : current < table.pcs.size := hmax.trans_lt hupper
      rw [Block.load_eq hin, Option.bind_some]
      split
      · next hstart =>
        split
        · next hhit =>
          rw [Table.covers_iff hin hstart] at hhit
          have hword := table.size_lt
          rw [Nat.mod_eq_of_lt (by omega)]
          exact ⟨_, rfl, hin, hhit⟩
        · next hmiss =>
          -- the ranges up to this one end before the address
          rw [Table.covers_iff hin hstart] at hmiss
          apply ih
          · refine ⟨?_, h.above, hupper⟩
            intro i hi hcovers
            rcases Nat.lt_or_eq_of_le (Nat.le_of_lt_succ hi) with hlt | rfl
            · have hend := Table.ends_before hlt hin
              have hneedle := hcovers.2
              have hstart' : (table.pcs.cell current).start.toNat ≤ needle.toNat := hstart
              omega
            · exact hmiss hcovers
          · omega
      · next hstart =>
        have hbehind : ∀ i, current ≤ i → i < table.pcs.size →
            ¬ (table.pcs.cell i).Covers needle := by
          intro i hi hsize hcovers
          apply hstart
          rcases Nat.lt_or_eq_of_le hi with hlt | rfl
          · exact (table.sorted current i hlt hsize).trans hcovers.1
          · exact hcovers.1
        split
        · next hzero => exact ⟨none, rfl, fun i hi => hbehind i (hzero ▸ Nat.zero_le i) hi⟩
        · next hpos =>
          apply ih
          · refine ⟨h.below, ?_, by omega⟩
            intro i hi hsize
            exact hbehind i (by omega) hsize
          · omega
    · next hcond =>
      refine ⟨none, rfl, ?_⟩
      intro i hi
      by_cases hlow : i < lowerBound
      · exact h.below i hlow
      · exact h.above i (by omega) hi

theorem locateInPcs_located (table : Table) (needle : BitVec 64) :
    ∃ r, locateInPcs table.pcs needle = some r ∧ Located table needle r := by
  have hsize := table.size_lt
  rw [locateInPcs]
  rcases Nat.eq_zero_or_pos table.pcs.size with hempty | hpos
  · refine ⟨none, ?_, ?_⟩
    · rw [locateFrom, if_neg (by omega)]
    · intro i hi
      omega
  · have hupper : (table.pcs.size + (2 ^ 32 - 1)) % 2 ^ 32 = table.pcs.size - 1 := by omega
    rw [hupper]
    apply locateFrom_located
    · refine ⟨?_, ?_, by omega⟩
      · intro i hi
        exact absurd hi (Nat.not_lt_zero i)
      · intro i hi hlt
        omega
    · omega

/-- The search ends and reads only entries of the table. It finds the address exactly when it is in
one of the ranges, and reports the index of that range. -/
theorem locateInPcs_iff (table : Table) (needle : BitVec 64) :
    ∃ r, locateInPcs table.pcs needle = some r ∧
      (r.isSome ↔ ∃ i < table.pcs.size, (table.pcs.cell i).Covers needle) ∧
      ∀ index, r = some index →
        index < table.pcs.size ∧
          ∀ i < table.pcs.size, (table.pcs.cell i).Covers needle ↔ i = index := by
  obtain ⟨r, hr, hlocated⟩ := locateInPcs_located table needle
  refine ⟨r, hr, ?_⟩
  cases r with
  | none =>
    refine ⟨iff_of_false Bool.false_ne_true ?_, nofun⟩
    rintro ⟨i, hi, hcovers⟩
    exact hlocated i hi hcovers
  | some index =>
    obtain ⟨hindex, hcovers⟩ := hlocated
    refine ⟨iff_of_true rfl ⟨index, hindex, hcovers⟩, ?_⟩
    intro index' heq
    obtain rfl : index = index' := Option.some.inj heq
    refine ⟨hindex, fun i hi => ?_⟩
    constructor
    · intro hcovers'
      exact Table.index_unique hi hindex hcovers' hcovers
    · rintro rfl
      exact hcovers

/-- From 16 to 19, and from 32 to 39. -/
def twoRanges : Table where
  pcs := ⟨2, fun i => if i = 0 then ⟨16, 4⟩ else ⟨32, 8⟩⟩
  size_lt := by decide
  nonempty := by decide
  noWrap := by decide
  sorted i j hij hj := by
    obtain ⟨rfl, rfl⟩ : i = 0 ∧ j = 1 := by
      dsimp only at hj
      omega
    decide
  disjoint i j hij hj a := by
    obtain ⟨rfl, rfl⟩ : i = 0 ∧ j = 1 := by
      dsimp only at hj
      omega
    rintro ⟨-, hlt⟩ ⟨hle, -⟩
    have hend : a.toNat < 20 := hlt
    have hstart : 32 ≤ a.toNat := hle
    omega

/-- The last address of the second range is found, and the one after it is not. -/
theorem locateInPcs_iff_twoRanges :
    locateInPcs twoRanges.pcs 39 = some (some 1) ∧ (twoRanges.pcs.cell 1).Covers 39 ∧
      ∀ i < 2, ¬(twoRanges.pcs.cell i).Covers 40 := by
  obtain ⟨r, hr, -, hindex⟩ := locateInPcs_iff twoRanges 39
  obtain ⟨r', hr', hsome, -⟩ := locateInPcs_iff twoRanges 40
  have hfound : locateInPcs twoRanges.pcs 39 = some (some 1) := by decide
  have hmissed : locateInPcs twoRanges.pcs 40 = some none := by decide
  obtain rfl := Option.some.inj (hr.symm.trans hfound)
  obtain rfl := Option.some.inj (hr'.symm.trans hmissed)
  refine ⟨hfound, ((hindex 1 rfl).2 1 (by decide)).mpr rfl, fun i hi hcovers => ?_⟩
  exact Bool.false_ne_true (hsome.mpr ⟨i, hi, hcovers⟩)

end AflPlusPlus.LocateInPcs
