import AflPlusPlus.AliasTables
import AflPlusPlus.ByteWords
import AflPlusPlus.CheckedBlocks

/-!
# The alias table of the queue

The second half of `create_alias_table` fills the table from the probabilities `P` of the
entries, each multiplied by their number, and `select_next_queue_entry` draws from it. Arithmetic
is exact.
-/

namespace AflPlusPlus.AliasSelection
open ByteWords AliasTables CheckedBlocks

/-- The arrays and the counters of `create_alias_table`. The list `Small` grows upwards from its
first cell, `Large` downwards from its last one. -/
structure TableState where
  P : Block ℚ
  small : Block ℕ
  large : Block ℕ
  nSmall : ℕ
  nLarge : ℕ
  aliasProbability : Block ℚ
  aliasTable : Block ℕ

namespace TableState

def start (n : ℕ) (P : ℕ → ℚ) : TableState where
  P := ⟨n, P⟩
  small := ⟨n, fun _ => 0⟩
  large := ⟨n, fun _ => 0⟩
  nSmall := 0
  nLarge := decU32 n
  aliasProbability := ⟨n, fun _ => 0⟩
  aliasTable := ⟨n, fun _ => 0⟩

/-- `Small[nSmall++] = j` -/
def pushSmall (j : ℕ) (s : TableState) : Option TableState := do
  let small ← s.small.store s.nSmall j
  some { s with small := small, nSmall := incU32 s.nSmall }

/-- `Large[nLarge--] = j` -/
def pushLarge (j : ℕ) (s : TableState) : Option TableState := do
  let large ← s.large.store s.nLarge j
  some { s with large := large, nLarge := decU32 s.nLarge }

/-- `Small[--nSmall]` -/
def popSmall (s : TableState) : Option (ℕ × TableState) := do
  let j ← s.small.load (decU32 s.nSmall)
  some (j, { s with nSmall := decU32 s.nSmall })

/-- `Large[++nLarge]` -/
def popLarge (s : TableState) : Option (ℕ × TableState) := do
  let j ← s.large.load (incU32 s.nLarge)
  some (j, { s with nLarge := incU32 s.nLarge })

def sortEntry (s : TableState) (j : ℕ) : Option TableState := do
  let p ← s.P.load j
  if p < 1 then s.pushSmall j else s.pushLarge j

def pairEntries (s : TableState) : Option TableState := do
  let (small, s) ← s.popSmall
  let (large, s) ← s.popLarge
  let p ← s.P.load small
  let aliasProbability ← s.aliasProbability.store small p
  let aliasTable ← s.aliasTable.store small large
  let q ← s.P.load large
  let q := q - (1 - p)
  let P ← s.P.store large q
  let s := { s with P := P, aliasProbability := aliasProbability, aliasTable := aliasTable }
  if q < 1 then s.pushSmall large else s.pushLarge large

/-- `alias_probability[Small[--nSmall]] = 1` -/
def keepSmall (s : TableState) : Option TableState := do
  let (small, s) ← s.popSmall
  let aliasProbability ← s.aliasProbability.store small 1
  some { s with aliasProbability := aliasProbability }

/-- `alias_probability[Large[++nLarge]] = 1` -/
def keepLarge (s : TableState) : Option TableState := do
  let (large, s) ← s.popLarge
  let aliasProbability ← s.aliasProbability.store large 1
  some { s with aliasProbability := aliasProbability }

end TableState

open TableState

/-- The number of iterations of `for (s32 j = (s32)(n - 1); j >= 0; j--)`. -/
def signedCount (n : ℕ) : ℕ := ((BitVec.ofNat 32 (decU32 n)).toInt + 1).toNat

def fillAliasTable (fuel n : ℕ) (P : ℕ → ℚ) : Option TableState := do
  let s ← (List.range (signedCount n)).reverse.foldlM sortEntry (start n P)
  let s ← whileLoop (fun s => s.nSmall != 0 && s.nLarge != decU32 n) pairEntries fuel s
  let s ← whileLoop (fun s => s.nSmall != 0) keepSmall fuel s
  whileLoop (fun s => s.nLarge != decU32 n) keepLarge fuel s

/-- The table for given weights, `P[i] = (weight * n) / sum`. -/
def createAliasTable (fuel : ℕ) (weights : List ℚ) : Option TableState :=
  fillAliasTable fuel weights.length fun i => weights.getD i 0 * weights.length / weights.sum

/-- The draws `s` and `p` are `rand_below(queued_items)` and `rand_next_percent()`. -/
def selectNextQueueEntry {R : Type*} [RatCast R] [LT R] [DecidableLT R] (t : TableState) (s : ℕ)
    (p : R) : ℕ :=
  if p < (t.aliasProbability.cell s : R) then s else t.aliasTable.cell s

/-! ## The work lists -/

/-- The two work lists in their arrays, the last element that was pushed first. -/
structure HasLists (n : ℕ) (small large : List ℕ) (s : TableState) : Prop where
  size_P : s.P.size = n
  size_small : s.small.size = n
  size_large : s.large.size = n
  size_probability : s.aliasProbability.size = n
  size_table : s.aliasTable.size = n
  nSmall_eq : s.nSmall = small.length
  nLarge_eq : s.nLarge = (n + (2 ^ 32 - 1) - large.length) % 2 ^ 32
  stacked_small : Stacked id s.small.cell small
  stacked_large : Stacked (fun k => n - 1 - k) s.large.cell large
  nodup : (small ++ large).Nodup
  lt : ∀ i ∈ small ++ large, i < n
  mass_small : ∀ i ∈ small, s.P.cell i < 1
  mass_large : ∀ i ∈ large, 1 ≤ s.P.cell i

/-- The table as it is filled, without the arrays of the work lists. -/
def TableState.filling (small large : List ℕ) (s : TableState) : Filling ℕ ℚ where
  pending := (small ++ large).toFinset
  mass := s.P.cell
  probability := s.aliasProbability.cell
  partner := s.aliasTable.cell

/-- A step on the work lists only. -/
structure SameTable (s t : TableState) : Prop where
  P_eq : t.P = s.P
  probability_eq : t.aliasProbability = s.aliasProbability
  table_eq : t.aliasTable = s.aliasTable

namespace HasLists

variable {n j : ℕ} {small large : List ℕ} {s : TableState}

theorem start (n : ℕ) (P : ℕ → ℚ) : HasLists n [] [] (start n P) where
  size_P := rfl
  size_small := rfl
  size_large := rfl
  size_probability := rfl
  size_table := rfl
  nSmall_eq := rfl
  nLarge_eq := rfl
  stacked_small := trivial
  stacked_large := trivial
  nodup := List.nodup_nil
  lt _ h := absurd h List.not_mem_nil
  mass_small _ h := absurd h List.not_mem_nil
  mass_large _ h := absurd h List.not_mem_nil

theorem length_le (h : HasLists n small large s) : small.length + large.length ≤ n := by
  have hsub : (small ++ large).toFinset ⊆ Finset.range n := fun i hi =>
    Finset.mem_range.mpr (h.lt i (List.mem_toFinset.mp hi))
  have hcard := Finset.card_le_card hsub
  rwa [List.toFinset_card_of_nodup h.nodup, List.length_append, Finset.card_range] at hcard

/-- A new element leaves room for itself. -/
theorem length_lt (h : HasLists n small large s) (hj : j < n) (hnew : j ∉ small ++ large) :
    small.length + large.length < n := by
  have hsub : (j :: (small ++ large)).toFinset ⊆ Finset.range n := fun i hi => by
    rcases List.mem_cons.mp (List.mem_toFinset.mp hi) with rfl | hi
    exacts [Finset.mem_range.mpr hj, Finset.mem_range.mpr (h.lt i hi)]
  have hcard := Finset.card_le_card hsub
  rwa [List.toFinset_card_of_nodup (List.nodup_cons.mpr ⟨hnew, h.nodup⟩), List.length_cons,
    List.length_append, Finset.card_range] at hcard

theorem pushSmall (h : HasLists n small large s) (hn : n < 2 ^ 32) (hj : j < n)
    (hnew : j ∉ small ++ large) (hmass : s.P.cell j < 1) :
    ∃ t, s.pushSmall j = some t ∧ HasLists n (j :: small) large t ∧ SameTable s t := by
  have hlen := h.length_lt hj hnew
  have hnSmall := h.nSmall_eq
  have hstore := s.small.store_eq (i := s.nSmall) (by rw [h.size_small]; omega) j
  refine ⟨{ s with
    small := { s.small with cell := Function.update s.small.cell s.nSmall j }
    nSmall := incU32 s.nSmall }, by rw [TableState.pushSmall, hstore]; rfl, ?_, rfl, rfl, rfl⟩
  exact { h with
    nSmall_eq := by
      dsimp only
      rw [incU32_eq (by omega), hnSmall, List.length_cons]
    stacked_small := by
      dsimp only
      rw [hnSmall]
      exact h.stacked_small.push fun k hk => hk.ne
    nodup := List.nodup_cons.mpr ⟨hnew, h.nodup⟩
    lt := List.forall_mem_cons.mpr ⟨hj, h.lt⟩
    mass_small := List.forall_mem_cons.mpr ⟨hmass, h.mass_small⟩ }

theorem pushLarge (h : HasLists n small large s) (hn : n < 2 ^ 32) (hj : j < n)
    (hnew : j ∉ small ++ large) (hmass : 1 ≤ s.P.cell j) :
    ∃ t, s.pushLarge j = some t ∧ HasLists n small (j :: large) t ∧ SameTable s t := by
  have hlen := h.length_lt hj hnew
  have hnLarge := h.nLarge_eq
  have htop : s.nLarge = n - 1 - large.length := by omega
  have hstore := s.large.store_eq (i := s.nLarge) (by rw [h.size_large]; omega) j
  have hperm : (small ++ j :: large).Perm (j :: (small ++ large)) := List.perm_middle
  refine ⟨{ s with
    large := { s.large with cell := Function.update s.large.cell s.nLarge j }
    nLarge := decU32 s.nLarge }, by rw [TableState.pushLarge, hstore]; rfl, ?_, rfl, rfl, rfl⟩
  exact { h with
    nLarge_eq := by
      dsimp only
      rw [List.length_cons]
      unfold decU32
      omega
    stacked_large := by
      have hstacked : Stacked (fun k => n - 1 - k) s.large.cell large := h.stacked_large
      dsimp only
      rw [htop]
      exact hstacked.push fun k hk => by omega
    nodup := hperm.nodup_iff.mpr (List.nodup_cons.mpr ⟨hnew, h.nodup⟩)
    lt := fun i hi => (List.forall_mem_cons (p := fun i => i < n)).mpr ⟨hj, h.lt⟩ i
      (hperm.mem_iff.mp hi)
    mass_large := List.forall_mem_cons.mpr ⟨hmass, h.mass_large⟩ }

theorem popSmall (h : HasLists n (j :: small) large s) (hn : n < 2 ^ 32) :
    ∃ t, s.popSmall = some (j, t) ∧ HasLists n small large t ∧ SameTable s t := by
  have hlen := h.length_le
  have hnSmall := h.nSmall_eq
  rw [List.length_cons] at hlen hnSmall
  have htop : decU32 s.nSmall = small.length := by
    rw [decU32_eq (by omega) (by omega)]
    omega
  have hload : s.small.load (decU32 s.nSmall) = some j := by
    rw [Block.load_eq (by rw [h.size_small]; omega), htop]
    exact congrArg some h.stacked_small.1
  refine ⟨{ s with nSmall := decU32 s.nSmall }, by rw [TableState.popSmall, hload]; rfl, ?_,
    rfl, rfl, rfl⟩
  exact { h with
    nSmall_eq := htop
    stacked_small := h.stacked_small.2
    nodup := (List.nodup_cons.mp h.nodup).2
    lt := (List.forall_mem_cons.mp h.lt).2
    mass_small := (List.forall_mem_cons.mp h.mass_small).2 }

theorem popLarge (h : HasLists n small (j :: large) s) (hn : n < 2 ^ 32) :
    ∃ t, s.popLarge = some (j, t) ∧ HasLists n small large t ∧ SameTable s t := by
  have hlen := h.length_le
  have hnLarge := h.nLarge_eq
  rw [List.length_cons] at hlen hnLarge
  have htop : incU32 s.nLarge = n - 1 - large.length := by
    unfold incU32
    omega
  have hload : s.large.load (incU32 s.nLarge) = some j := by
    rw [Block.load_eq (by rw [h.size_large]; omega), htop]
    exact congrArg some h.stacked_large.1
  have hperm : (small ++ j :: large).Perm (j :: (small ++ large)) := List.perm_middle
  refine ⟨{ s with nLarge := incU32 s.nLarge }, by rw [TableState.popLarge, hload]; rfl, ?_,
    rfl, rfl, rfl⟩
  exact { h with
    nLarge_eq := by
      dsimp only
      omega
    stacked_large := h.stacked_large.2
    nodup := (List.nodup_cons.mp (hperm.nodup_iff.mp h.nodup)).2
    lt := fun i hi => h.lt i (hperm.mem_iff.mpr (List.mem_cons_of_mem _ hi))
    mass_large := (List.forall_mem_cons.mp h.mass_large).2 }

/-- A work list is empty when its counter says so. -/
theorem nSmall_eq_zero (h : HasLists n small large s) : s.nSmall = 0 ↔ small = [] := by
  rw [h.nSmall_eq, List.length_eq_zero_iff]

theorem nLarge_eq_last (h : HasLists n small large s) (hn : n < 2 ^ 32) :
    s.nLarge = decU32 n ↔ large = [] := by
  have hlen := h.length_le
  rw [h.nLarge_eq, ← List.length_eq_zero_iff]
  unfold decU32
  omega

/-- The probability of an index that is on none of the lists is written. -/
theorem setProbability (h : HasLists n small large s) (j : ℕ) (p : ℚ) :
    HasLists n small large { s with aliasProbability :=
      { s.aliasProbability with cell := Function.update s.aliasProbability.cell j p } } :=
  { h with }

end HasLists

end AflPlusPlus.AliasSelection
