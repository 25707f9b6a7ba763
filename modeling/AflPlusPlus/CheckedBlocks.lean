import Mathlib.Data.List.Basic
import Mathlib.Logic.Function.Basic

/-!
# Blocks of memory with checked accesses

An access to a cell beyond the end of a block has no result. Loops are run with a number of
iterations that they may take; a loop whose measure decreases ends when it may take
that many.
-/

namespace AflPlusPlus.CheckedBlocks

variable {α σ : Type*}

/-- A block of `size` cells. -/
structure Block (α : Type*) where
  size : ℕ
  cell : ℕ → α

namespace Block

def load (b : Block α) (i : ℕ) : Option α := if i < b.size then some (b.cell i) else none

def store (b : Block α) (i : ℕ) (a : α) : Option (Block α) :=
  if i < b.size then some { b with cell := Function.update b.cell i a } else none

/-- The block with the `n` cells from `i` on replaced by `f 0, ..., f (n - 1)`. -/
def overwrite (b : Block α) (i n : ℕ) (f : ℕ → α) : Block α :=
  { b with cell := fun k => if i ≤ k ∧ k < i + n then f (k - i) else b.cell k }

variable {b : Block α} {i : ℕ}

@[simp] theorem size_overwrite (n : ℕ) (f : ℕ → α) : (b.overwrite i n f).size = b.size := rfl

theorem load_eq (h : i < b.size) : b.load i = some (b.cell i) := if_pos h

theorem store_eq (h : i < b.size) (a : α) :
    b.store i a = some { b with cell := Function.update b.cell i a } := if_pos h

end Block

/-! ## Stacks in the cells of a block -/

/-- The elements of the list are in the cells, the deepest in the cell at `pos 0`. -/
def Stacked (pos : ℕ → ℕ) (cell : ℕ → α) : List α → Prop
  | [] => True
  | a :: as => cell (pos as.length) = a ∧ Stacked pos cell as

section Stacked
variable {pos : ℕ → ℕ} {cell : ℕ → α} {as : List α} {i : ℕ} {a : α}

/-- A write behind the top leaves the stack as it is. -/
theorem Stacked.update (h : Stacked pos cell as) (hi : ∀ k < as.length, pos k ≠ i) :
    Stacked pos (Function.update cell i a) as := by
  induction as with
  | nil => trivial
  | cons top as ih =>
    obtain ⟨htop, hrest⟩ := h
    refine ⟨?_, ih hrest fun k hk => hi k (Nat.lt_succ_of_lt hk)⟩
    rw [Function.update_of_ne (hi as.length (Nat.lt_succ_self _)), htop]

theorem Stacked.push (h : Stacked pos cell as) (hi : ∀ k < as.length, pos k ≠ pos as.length) :
    Stacked pos (Function.update cell (pos as.length) a) (a :: as) :=
  ⟨Function.update_self _ _ _, h.update hi⟩

end Stacked

/-! ## Loops -/

/-- `while (cond) body`, for at most `fuel` iterations. -/
def whileLoop (cond : σ → Bool) (body : σ → Option σ) : ℕ → σ → Option σ
  | 0, s => if cond s then none else some s
  | fuel + 1, s => if cond s then (body s).bind (whileLoop cond body fuel) else some s

variable {cond : σ → Bool} {body : σ → Option σ}

theorem whileLoop_of_done {s : σ} (h : cond s = false) (fuel : ℕ) :
    whileLoop cond body fuel s = some s := by
  cases fuel <;> simp [whileLoop, h]

/-- A loop that keeps an invariant and lowers a measure ends in a state with the invariant. -/
theorem whileLoop_spec {P : σ → Prop} (μ : σ → ℕ)
    (hbody : ∀ s, P s → cond s = true → ∃ t, body s = some t ∧ P t ∧ μ t < μ s) {s : σ}
    (hs : P s) : ∃ t, P t ∧ cond t = false ∧ μ t ≤ μ s ∧
      ∀ fuel, μ s ≤ fuel → whileLoop cond body fuel s = some t := by
  induction hn : μ s using Nat.strongRecOn generalizing s with
  | ind n ih =>
    cases hcond : cond s with
    | false =>
      exact ⟨s, hs, hcond, Nat.le_of_eq hn, fun fuel _ => whileLoop_of_done hcond fuel⟩
    | true =>
      obtain ⟨u, hu, hPu, hlt⟩ := hbody s hs hcond
      obtain ⟨t, hPt, hend, hle, hrun⟩ := ih (μ u) (hn ▸ hlt) hPu rfl
      refine ⟨t, hPt, hend, by omega, fun fuel hfuel => ?_⟩
      cases fuel with
      | zero => omega
      | succ fuel =>
        rw [whileLoop, if_pos hcond, hu]
        exact hrun fuel (by omega)

end AflPlusPlus.CheckedBlocks
