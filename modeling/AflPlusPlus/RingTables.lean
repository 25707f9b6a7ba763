import Mathlib

/-!
# Tables that are written cyclically

A table of `size` cells is written one cell after the other, and from the first cell again after
the last. It holds the entries that have been written last, one in each cell.
-/

namespace AflPlusPlus.RingTables

variable {α β : Type*} {R : α → β → Prop} {size start : ℕ} {cells : ℕ → β} {entries : List α}

/-- Each of the last `size` entries is in its cell: the entry at position `p` in the cell `p`
steps after `start`. `R` tells what it means for an entry to be in a cell. -/
def Holds (R : α → β → Prop) (size start : ℕ) (cells : ℕ → β) (entries : List α) : Prop :=
  ∀ p, (h : p < entries.length) → entries.length ≤ p + size →
    R entries[p] (cells ((start + p) % size))

theorem holds_nil : Holds R size start cells [] := fun _ h => (Nat.not_lt_zero _ h).elim

/-- Two different entries of the last `size` have different cells. -/
theorem mod_ne_mod {i j : ℕ} (hlt : i < j) (hsize : j < i + size) : i % size ≠ j % size := by
  intro h
  have hdvd : size ∣ j - i := (Nat.modEq_iff_dvd' hlt.le).mp h
  exact absurd (Nat.le_of_dvd (by omega) hdvd) (by omega)

/-- The next index, as it is computed without a division. -/
theorem next_eq_mod {i : ℕ} (h : i < size) :
    (if size ≤ i + 1 then 0 else i + 1) = (i + 1) % size := by
  split_ifs with hle
  · rw [show i + 1 = size by omega, Nat.mod_self]
  · exact (Nat.mod_eq_of_lt (by omega)).symm

/-- The index before a next index. -/
theorem last_eq_mod {n : ℕ} (hsize : 0 < size) :
    (if (n + 1) % size = 0 then size - 1 else (n + 1) % size - 1) = n % size := by
  have hlt := Nat.mod_lt n hsize
  rw [← Nat.mod_add_mod n size 1, ← next_eq_mod hlt]
  by_cases hle : size ≤ n % size + 1
  · rw [if_pos hle, if_pos rfl]
    omega
  · rw [if_neg hle, if_neg (Nat.succ_ne_zero _), Nat.add_sub_cancel]

/-- Writing the next cell adds an entry. -/
theorem Holds.push (h : Holds R size start cells entries) {a : α} {b : β} (hR : R a b) :
    Holds R size start (Function.update cells ((start + entries.length) % size) b)
      (entries ++ [a]) := by
  intro p hp hlast
  rw [List.length_append, List.length_singleton] at hp hlast
  by_cases hnew : p = entries.length
  · subst hnew
    rw [List.getElem_concat_length rfl, Function.update_self]
    exact hR
  · have hlt : p < entries.length := by omega
    rw [List.getElem_append_left hlt,
      Function.update_of_ne (mod_ne_mod (by omega) (by omega))]
    exact h p hlt (by omega)

/-- A cell that is not beyond the number of entries holds one of them. -/
theorem Holds.exists_mem (h : Holds R size 0 cells entries) {i : ℕ} (hi : i < size)
    (hlt : i < entries.length) : ∃ a ∈ entries, R a (cells i) := by
  -- the last position of the cell
  set p := entries.length - 1 - (entries.length - 1 - i) % size
  have hmod := Nat.mod_le (entries.length - 1 - i) size
  have hlast := Nat.mod_lt (entries.length - 1 - i) (show 0 < size by omega)
  have hsub : p = i + size * ((entries.length - 1 - i) / size) := by
    have := Nat.div_add_mod (entries.length - 1 - i) size
    omega
  have hcell : (0 + p) % size = i := by
    rw [Nat.zero_add, hsub, Nat.add_mul_mod_self_left, Nat.mod_eq_of_lt hi]
  have hp : p < entries.length := by omega
  refine ⟨entries[p], List.getElem_mem hp, ?_⟩
  have hR := h p hp (by omega)
  rwa [hcell] at hR

/-! ## Reading the entries in order -/

/-- The cells hold the last entries, and those that no entry has been written to are vacant. -/
structure Contains (R : α → β → Prop) (vacant : β → Prop) (size start : ℕ) (cells : ℕ → β)
    (entries : List α) : Prop where
  holds : Holds R size start cells entries
  vacant : ∀ p, entries.length ≤ p → p < size → vacant (cells ((start + p) % size))

variable {vacant : β → Prop}

theorem Contains.push (h : Contains R vacant size start cells entries) {a : α} {b : β}
    (hR : R a b) :
    Contains R vacant size start
      (Function.update cells ((start + entries.length) % size) b) (entries ++ [a]) := by
  refine ⟨h.holds.push hR, fun p hp hlt => ?_⟩
  rw [List.length_append, List.length_singleton] at hp
  rw [Function.update_of_ne (mod_ne_mod (by omega) (by omega)).symm]
  exact h.vacant p (by omega) hlt

theorem Contains.vacant_of_nil (h : Contains R vacant size start cells []) {j : ℕ}
    (hj : j < size) : vacant (cells j) := by
  have hlt := Nat.mod_lt start (show 0 < size by omega)
  have hp := Nat.mod_lt (j + (size - start % size)) (show 0 < size by omega)
  have hcell : (start + (j + (size - start % size)) % size) % size = j := by
    rw [Nat.add_mod_mod, ← Nat.mod_add_mod,
      show start % size + (j + (size - start % size)) = j + size by omega, Nat.add_mod_right,
      Nat.mod_eq_of_lt hj]
  have hvacant := h.vacant ((j + (size - start % size)) % size) (Nat.zero_le _) hp
  rwa [hcell] at hvacant

/-- When all cells but the last written one are vacated, its entry is the only one left. -/
theorem Contains.keepLast {a : α} (h : Contains R vacant size start cells (entries ++ [a]))
    (hsize : 0 < size) {cells' : ℕ → β}
    (hlast : cells' ((start + entries.length) % size) = cells ((start + entries.length) % size))
    (hvacant : ∀ j, j ≠ (start + entries.length) % size → vacant (cells' j)) :
    Contains R vacant size ((start + entries.length) % size) cells' [a] := by
  refine ⟨fun p hp _ => ?_, fun p hp hlt => hvacant _ ?_⟩
  · obtain rfl : p = 0 := by simpa using hp
    have hR := h.holds entries.length (by simp) (by simp; omega)
    rw [List.getElem_concat_length rfl, ← hlast] at hR
    simpa using hR
  · rw [List.length_singleton] at hp
    rw [Nat.mod_add_mod]
    exact (mod_ne_mod (by omega) (by omega)).symm

theorem filterMap_range_of_none {γ : Type*} {n : ℕ} {f : ℕ → Option γ} (h : ∀ i < n, f i = none) :
    (List.range n).filterMap f = [] := by
  rw [List.filterMap_eq_nil_iff]
  exact fun i hi => h i (List.mem_range.mp hi)

theorem filterMap_eq_range {γ : Type*} (l : List α) (g : α → Option γ) :
    l.filterMap g = (List.range l.length).filterMap fun i => l[i]?.bind g := by
  have hsome : l.map some = (List.range l.length).map fun i => l[i]? :=
    List.ext_getElem (by simp) (by simp)
  calc l.filterMap g = (l.map some).filterMap (·.bind g) := by
        rw [List.filterMap_map]
        rfl
    _ = (List.range l.length).filterMap fun i => l[i]?.bind g := by
      rw [hsome, List.filterMap_map]
      rfl

/-- Reading all cells, from the one that is written next, gives the last entries in order. -/
theorem Contains.filterMap_range {γ : Type*} (h : Contains R vacant size start cells entries)
    {f : β → Option γ} {g : α → Option γ} (hf : ∀ b, vacant b → f b = none)
    (hg : ∀ a b, R a b → f b = g a) :
    (List.range size).filterMap (fun i => f (cells ((i + (start + entries.length)) % size))) =
      (entries.drop (entries.length - size)).filterMap g := by
  -- the vacant cells come first
  set m := min entries.length size
  have hsplit : List.range size = List.range (size - m) ++
      (List.range m).map (fun i => size - m + i) := by
    rw [← List.range_add]
    congr 1
    omega
  have hvacant : (List.range (size - m)).filterMap
      (fun i => f (cells ((i + (start + entries.length)) % size))) = [] := by
    refine filterMap_range_of_none fun i hi => hf _ ?_
    have := h.vacant (entries.length + i) (by omega) (by omega)
    rwa [show start + (entries.length + i) = i + (start + entries.length) by omega] at this
  have hdrop : entries.length - size = entries.length - m := by omega
  rw [hsplit, List.filterMap_append, hvacant, List.nil_append, List.filterMap_map, hdrop,
    filterMap_eq_range (entries.drop _), List.length_drop,
    show entries.length - (entries.length - m) = m by omega]
  refine List.filterMap_congr fun i hi => ?_
  have hi := List.mem_range.mp hi
  have hlt : entries.length - m + i < entries.length := by omega
  have hcell : (size - m + i + (start + entries.length)) % size =
      (start + (entries.length - m + i)) % size := by
    rw [show size - m + i + (start + entries.length) =
      start + (entries.length - m + i) + size by omega, Nat.add_mod_right]
  rw [Function.comp_apply, hcell, List.getElem?_drop, List.getElem?_eq_getElem hlt,
    Option.bind_some]
  exact hg _ _ (h.holds _ hlt (by omega))

end AflPlusPlus.RingTables
