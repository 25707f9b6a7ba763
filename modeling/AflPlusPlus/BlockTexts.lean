import AflPlusPlus.CheckedBlocks
import Mathlib.Data.List.GetD

/-!
# Texts in a block of memory

A text that is in the cells of a block can be read character by character. It is not touched by
writes in front of it and behind it. A string goes up to the first terminator.
-/

namespace AflPlusPlus.BlockTexts
open CheckedBlocks

variable {α : Type*}

/-- The text is in the cells from `i` on. -/
def At (b : Block α) : ℕ → List α → Prop
  | _, [] => True
  | i, c :: cs => b.load i = some c ∧ At b (i + 1) cs

section At
variable {b b' : Block α} {i j : ℕ} {xs ys : List α} {a c : α}

theorem At.head (h : At b i (c :: xs)) : b.load i = some c := h.1

theorem At.tail (h : At b i (c :: xs)) : At b (i + 1) xs := h.2

theorem at_append : At b i (xs ++ ys) ↔ At b i xs ∧ At b (i + xs.length) ys := by
  induction xs generalizing i with
  | nil => exact (and_iff_right trivial).symm
  | cons c xs ih =>
    have hlen : i + (c :: xs).length = i + 1 + xs.length := by
      rw [List.length_cons]
      omega
    rw [List.cons_append, At, ih, hlen, At, and_assoc]

theorem at_of_cells (h : ∀ k (hk : k < xs.length), i + k < b.size ∧ b.cell (i + k) = xs[k]) :
    At b i xs := by
  induction xs generalizing i with
  | nil => trivial
  | cons c xs ih =>
    obtain ⟨hin, hcell⟩ := h 0 (Nat.succ_pos _)
    refine ⟨(Block.load_eq hin).trans (congrArg some hcell), ih fun k hk => ?_⟩
    obtain ⟨hin', hcell'⟩ := h (k + 1) (Nat.succ_lt_succ hk)
    rw [Nat.add_right_comm, Nat.add_assoc]
    exact ⟨hin', hcell'⟩

theorem At.lt_size (h : At b i (c :: xs)) : i < b.size := by
  by_contra hout
  have hload := h.head
  rw [Block.load, if_neg hout] at hload
  exact absurd hload (Option.some_ne_none c).symm

theorem load_store_self (h : b.store i a = some b') : b'.load i = some a := by
  rw [Block.store] at h
  split at h
  · next hin =>
    rw [← Option.some_inj.mp h, Block.load, if_pos hin]
    exact congrArg some (Function.update_self ..)
  · exact absurd h (Option.some_ne_none b').symm

theorem load_store_of_ne (h : b.store j a = some b') (hne : i ≠ j) : b'.load i = b.load i := by
  rw [Block.store] at h
  split at h
  · rw [← Option.some_inj.mp h, Block.load, Block.load]
    exact if_congr Iff.rfl (congrArg some (Function.update_of_ne hne ..)) rfl
  · exact absurd h (Option.some_ne_none b').symm

/-- A write beside the text leaves it as it is. -/
theorem At.store (h : At b i xs) (hs : b.store j a = some b') (hj : j < i ∨ i + xs.length ≤ j) :
    At b' i xs := by
  induction xs generalizing i with
  | nil => trivial
  | cons c xs ih =>
    rw [List.length_cons] at hj
    have hne : i ≠ j := by omega
    exact ⟨(load_store_of_ne hs hne).trans h.head, ih h.tail (by omega)⟩

theorem At.take (h : At b i xs) (n : ℕ) : At b i (xs.take n) := by
  rw [← List.take_append_drop n xs, at_append] at h
  exact h.1

/-- Cells beside the text may be replaced. -/
theorem At.overwrite (h : At b i xs) {n : ℕ} (f : ℕ → α) (hj : j + n ≤ i ∨ i + xs.length ≤ j) :
    At (b.overwrite j n f) i xs := by
  induction xs generalizing i with
  | nil => trivial
  | cons c xs ih =>
    rw [List.length_cons] at hj
    refine ⟨?_, ih h.tail (by omega)⟩
    have hout : ¬(j ≤ i ∧ i < j + n) := by omega
    exact (if_congr Iff.rfl (congrArg some (if_neg hout)) rfl).trans h.head

theorem overwrite_none (b : Block α) (i : ℕ) (f : ℕ → α) : b.overwrite i 0 f = b := by
  have hnone : ∀ k, ¬(i ≤ k ∧ k < i + 0) := fun k => by omega
  simp only [Block.overwrite, hnone, if_false]

theorem at_overwrite (d : α) (h : i + xs.length ≤ b.size) :
    At (b.overwrite i xs.length fun k => xs.getD k d) i xs := by
  apply at_of_cells
  intro k hk
  refine ⟨by rw [Block.size_overwrite]; omega, ?_⟩
  have hin : i ≤ i + k ∧ i + k < i + xs.length := by omega
  rw [Block.overwrite]
  simp only [if_pos hin, Nat.add_sub_cancel_left]
  exact List.getD_eq_getElem xs d hk

end At

/-! ## Strings -/

variable [DecidableEq α]

/-- The characters from `i` on up to the terminator. There is no result when there is none in
`n` cells. -/
def readString (b : Block α) (terminator : α) : ℕ → ℕ → Option (List α)
  | 0, _ => none
  | n + 1, i => (b.load i).bind fun c =>
    if c = terminator then some [] else (readString b terminator n (i + 1)).map (c :: ·)

/-- The string at `i`. -/
def stringAt (b : Block α) (terminator : α) (i : ℕ) : Option (List α) :=
  readString b terminator (b.size - i) i

variable {b : Block α} {terminator : α} {i : ℕ} {xs ys : List α}

theorem readString_eq {n : ℕ} (h : At b i (xs ++ terminator :: ys)) (hxs : terminator ∉ xs)
    (hn : xs.length < n) : readString b terminator n i = some xs := by
  induction xs generalizing i n with
  | nil =>
    cases n with
    | zero => exact absurd hn (Nat.not_lt_zero _)
    | succ n => rw [readString, At.head h, Option.bind_some, if_pos rfl]
  | cons c xs ih =>
    rw [List.mem_cons, not_or] at hxs
    cases n with
    | zero => exact absurd hn (Nat.not_lt_zero _)
    | succ n =>
      rw [readString, At.head h, Option.bind_some, if_neg (Ne.symm hxs.1),
        ih h.tail hxs.2 (Nat.lt_of_succ_lt_succ hn), Option.map_some]

theorem stringAt_eq (h : At b i (xs ++ terminator :: ys)) (hxs : terminator ∉ xs) :
    stringAt b terminator i = some xs := by
  have hend := (at_append.mp h).2.lt_size
  exact readString_eq h hxs (by omega)

theorem stringAt_terminated (h : At b i (xs ++ [terminator])) (hxs : terminator ∉ xs) :
    stringAt b terminator i = some xs := stringAt_eq h hxs

end AflPlusPlus.BlockTexts
