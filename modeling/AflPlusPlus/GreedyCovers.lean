import Mathlib

/-!
# Greedy covers

The elements of a list are visited in order. At an element that is not covered yet its candidate
is picked, and the set of that candidate is covered from then on.
-/

namespace AflPlusPlus.GreedyCovers

variable {ι α : Type*} (candidate : ι → Option α) (set : α → ι → Bool)

/-- The picks on the way through a list, in order, when `seen` is covered at the start. -/
def greedy : List ι → (ι → Bool) → List α
  | [], _ => []
  | i :: is, seen =>
    match candidate i with
    | none => greedy is seen
    | some a => if seen i then greedy is seen else a :: greedy is (fun j => seen j || set a j)

variable {candidate set} {i : ι} {is : List ι} {seen seen' : ι → Bool}

theorem greedy_of_none (h : candidate i = none) :
    greedy candidate set (i :: is) seen = greedy candidate set is seen := by
  rw [greedy, h]

theorem greedy_of_seen (h : seen i = true) :
    greedy candidate set (i :: is) seen = greedy candidate set is seen := by
  rw [greedy]
  cases candidate i with
  | none => rfl
  | some a => exact if_pos h

theorem greedy_of_unseen {a : α} (hi : candidate i = some a) (h : seen i = false) :
    greedy candidate set (i :: is) seen =
      a :: greedy candidate set is (fun j => seen j || set a j) := by
  rw [greedy, hi]
  exact if_neg (by simp [h])

/-- Only the elements that are still to be visited matter. -/
theorem greedy_congr (h : ∀ i ∈ is, seen i = seen' i) :
    greedy candidate set is seen = greedy candidate set is seen' := by
  induction is generalizing seen seen' with
  | nil => rfl
  | cons i is ih =>
    obtain ⟨hi, his⟩ := List.forall_mem_cons.mp h
    cases hc : candidate i with
    | none => rw [greedy_of_none hc, greedy_of_none hc, ih his]
    | some a =>
      cases hs : seen i with
      | true => rw [greedy_of_seen hs, greedy_of_seen (hi ▸ hs), ih his]
      | false =>
        rw [greedy_of_unseen hc hs, greedy_of_unseen hc (hi ▸ hs)]
        exact congrArg _ (ih fun j hj => by rw [his j hj])

/-- A pick is the candidate of a visited element. -/
theorem exists_candidate {a : α} (h : a ∈ greedy candidate set is seen) :
    ∃ i ∈ is, candidate i = some a := by
  induction is generalizing seen with
  | nil => exact absurd h List.not_mem_nil
  | cons i is ih =>
    have hrest : ∀ {seen}, a ∈ greedy candidate set is seen →
        ∃ j ∈ i :: is, candidate j = some a := fun h =>
      (ih h).imp fun _ hj => ⟨List.mem_cons_of_mem _ hj.1, hj.2⟩
    cases hc : candidate i with
    | none => exact hrest (greedy_of_none hc ▸ h)
    | some b =>
      cases hs : seen i with
      | true => exact hrest (greedy_of_seen hs ▸ h)
      | false =>
        rw [greedy_of_unseen hc hs] at h
        rcases List.mem_cons.mp h with rfl | h
        · exact ⟨i, List.mem_cons_self, hc⟩
        · exact hrest h

end AflPlusPlus.GreedyCovers
