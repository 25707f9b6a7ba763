import Mathlib

/-!
# Chains of cells in a heap

Cells are allocated at addresses that are free, wherever the allocator chooses, and freed again. A
chain of cells is followed by its pointers; following it, or freeing it cell by cell, takes as many
steps as it has cells.
-/

namespace AflPlusPlus.HeapCells

variable {α β : Type*}

/-! ## Allocation -/

/-- From some address on, nothing is allocated. -/
def Bounded (h : ℕ → Option β) : Prop := ∃ n, ∀ p, n ≤ p → h p = none

/-- An allocator may choose any address that is free. -/
structure Malloc (β : Type*) where
  pick : (ℕ → Option β) → ℕ
  pick_free : ∀ h, Bounded h → h (pick h) = none

section Bounded
variable {h : ℕ → Option β}

theorem bounded_empty : Bounded fun _ => (none : Option β) := ⟨0, fun _ _ => rfl⟩

theorem Bounded.update (hb : Bounded h) (p : ℕ) (b : Option β) :
    Bounded (Function.update h p b) := by
  obtain ⟨n, hn⟩ := hb
  refine ⟨max n (p + 1), fun q hq => ?_⟩
  have hne : q ≠ p := by omega
  rw [Function.update_of_ne hne]
  exact hn q (by omega)

/-- The lowest address that is free. -/
noncomputable def firstFree : Malloc β where
  pick h := sInf {p | h p = none}
  pick_free h hb := by
    obtain ⟨n, hn⟩ := hb
    have hfree : {p | h p = none}.Nonempty := ⟨n, hn n le_rfl⟩
    exact Nat.sInf_mem hfree

end Bounded

/-! ## Chains -/

structure Cell (α : Type*) where
  val : α
  next : Option ℕ

abbrev Heap (α : Type*) := ℕ → Option (Cell α)

/-- From `head` on there are cells with the given addresses and values, up to a null pointer. -/
def Chain (h : Heap α) : Option ℕ → List (ℕ × α) → Prop
  | head, [] => head = none
  | head, (p, x) :: cells => head = some p ∧ ∃ next, h p = some ⟨x, next⟩ ∧ Chain h next cells

/-- Follow the pointers until the value is found or the chain ends. There is no result where a
pointer leads to no cell, or the loop runs too often. -/
def search [DecidableEq α] (h : Heap α) (x : α) : ℕ → Option ℕ → Option Bool
  | 0, _ => none
  | _ + 1, none => some false
  | fuel + 1, some p =>
    (h p).bind fun cell => if cell.val = x then some true else search h x fuel cell.next

/-- Free the cells, each after its pointer has been read. -/
def freeChain : ℕ → Heap α → Option ℕ → Option (Heap α)
  | 0, _, _ => none
  | _ + 1, h, none => some h
  | fuel + 1, h, some p =>
    (h p).bind fun cell => freeChain fuel (Function.update h p none) cell.next

section Chain
variable {h h' : Heap α} {head : Option ℕ} {cells : List (ℕ × α)}

theorem Chain.frame (hc : Chain h head cells) (heq : ∀ p ∈ cells.map Prod.fst, h' p = h p) :
    Chain h' head cells := by
  induction cells generalizing head with
  | nil => exact hc
  | cons cell cells ih =>
    obtain ⟨hhead, next, hcell, hrest⟩ := hc
    rw [List.map_cons, List.forall_mem_cons] at heq
    exact ⟨hhead, next, heq.1.trans hcell, ih hrest heq.2⟩

theorem Chain.allocated (hc : Chain h head cells) {q : ℕ} (hq : q ∈ cells.map Prod.fst) :
    h q ≠ none := by
  induction cells generalizing head with
  | nil => exact absurd hq List.not_mem_nil
  | cons cell cells ih =>
    obtain ⟨-, next, hcell, hrest⟩ := hc
    rw [List.map_cons, List.mem_cons] at hq
    rcases hq with rfl | hq
    · rw [hcell]
      exact Option.some_ne_none _
    · exact ih hrest hq

theorem Chain.search [DecidableEq α] (hc : Chain h head cells) (x : α) {fuel : ℕ}
    (hfuel : cells.length < fuel) :
    HeapCells.search h x fuel head = some (decide (x ∈ cells.map Prod.snd)) := by
  induction cells generalizing head fuel with
  | nil =>
    obtain rfl : head = none := hc
    cases fuel with
    | zero => exact absurd hfuel (Nat.not_lt_zero _)
    | succ fuel => rfl
  | cons cell cells ih =>
    obtain ⟨rfl, next, hcell, hrest⟩ := hc
    cases fuel with
    | zero => exact absurd hfuel (Nat.not_lt_zero _)
    | succ fuel =>
      rw [HeapCells.search, hcell, Option.bind_some]
      dsimp only
      split
      · next heq =>
        rw [← heq, List.map_cons, decide_eq_true List.mem_cons_self]
      · next hne =>
        rw [ih hrest (Nat.lt_of_succ_lt_succ hfuel), List.map_cons, Option.some_inj]
        apply decide_eq_decide.mpr
        rw [List.mem_cons]
        exact (or_iff_right fun heq => hne heq.symm).symm

/-- Exactly the cells of the chain are freed. -/
theorem Chain.free (hc : Chain h head cells) (hnodup : (cells.map Prod.fst).Nodup) {fuel : ℕ}
    (hfuel : cells.length < fuel) : freeChain fuel h head =
      some fun p => if p ∈ cells.map Prod.fst then none else h p := by
  induction cells generalizing h head fuel with
  | nil =>
    obtain rfl : head = none := hc
    cases fuel with
    | zero => exact absurd hfuel (Nat.not_lt_zero _)
    | succ fuel =>
      rw [freeChain, Option.some_inj]
      funext p
      exact (if_neg List.not_mem_nil).symm
  | cons cell cells ih =>
    obtain ⟨rfl, next, hcell, hrest⟩ := hc
    rw [List.map_cons, List.nodup_cons] at hnodup
    cases fuel with
    | zero => exact absurd hfuel (Nat.not_lt_zero _)
    | succ fuel =>
      have hkept : Chain (Function.update h cell.1 none) next cells :=
        hrest.frame fun p hp => Function.update_of_ne (ne_of_mem_of_not_mem hp hnodup.1) _ _
      rw [freeChain, hcell, Option.bind_some, ih hkept hnodup.2 (Nat.lt_of_succ_lt_succ hfuel),
        Option.some_inj]
      funext p
      rw [List.map_cons]
      by_cases hrest : p ∈ cells.map Prod.fst
      · rw [if_pos hrest, if_pos (List.mem_cons_of_mem _ hrest)]
      · rw [if_neg hrest]
        by_cases heq : p = cell.1
        · rw [heq, Function.update_self, if_pos List.mem_cons_self]
        · rw [Function.update_of_ne heq, if_neg]
          rw [List.mem_cons, not_or]
          exact ⟨heq, hrest⟩

end Chain

end AflPlusPlus.HeapCells
