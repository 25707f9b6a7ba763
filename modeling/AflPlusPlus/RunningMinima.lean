import Mathlib

/-!
# Running minima

A challenger takes the place of the holder unless it costs more. After any sequence of
challengers the holder is a cheapest one, and of those the last.
-/

namespace AflPlusPlus.RunningMinima

variable {α β : Type*} [LinearOrder β] {cost cost' : α → β} {xs : List α} {w q : α}

/-- The holder after the challenge of `q`. -/
def challenge (cost : α → β) (holder : Option α) (q : α) : Option α :=
  match holder with
  | none => some q
  | some old => if cost old < cost q then some old else some q

/-- The holder after the challengers `xs`. -/
def holder (cost : α → β) (xs : List α) : Option α := xs.foldl (challenge cost) none

@[simp] theorem holder_nil : holder cost [] = none := rfl

theorem holder_concat (cost : α → β) (xs : List α) (q : α) :
    holder cost (xs ++ [q]) = challenge cost (holder cost xs) q := by
  unfold holder
  rw [List.foldl_append]
  rfl

theorem exists_holder (h : xs ≠ []) : ∃ w, holder cost xs = some w := by
  cases xs using List.reverseRecOn with
  | nil => exact absurd rfl h
  | append_singleton xs q =>
    rw [holder_concat, challenge.eq_def]
    split
    · exact ⟨q, rfl⟩
    · split <;> exact ⟨_, rfl⟩

/-- `w` is cheapest in `xs`, and all that come after its last occurrence cost more. -/
def LastMinimal (cost : α → β) (xs : List α) (w : α) : Prop :=
  ∃ before after, xs = before ++ w :: after ∧
    (∀ x ∈ before, cost w ≤ cost x) ∧ ∀ x ∈ after, cost w < cost x

theorem LastMinimal.mem (h : LastMinimal cost xs w) : w ∈ xs := by
  obtain ⟨before, after, rfl, -, -⟩ := h
  exact List.mem_append_right before List.mem_cons_self

theorem LastMinimal.le (h : LastMinimal cost xs w) : ∀ x ∈ xs, cost w ≤ cost x := by
  obtain ⟨before, after, rfl, hbefore, hafter⟩ := h
  intro x hx
  rcases List.mem_append.mp hx with hx | hx
  · exact hbefore x hx
  · rcases List.mem_cons.mp hx with rfl | hx
    · exact le_rfl
    · exact le_of_lt (hafter x hx)

/-- A challenger that costs more leaves the holder in its place. -/
theorem LastMinimal.concat_of_lt (h : LastMinimal cost xs w) (hlt : cost w < cost q) :
    LastMinimal cost (xs ++ [q]) w := by
  obtain ⟨before, after, rfl, hbefore, hafter⟩ := h
  refine ⟨before, after ++ [q], by simp, hbefore, fun x hx => ?_⟩
  rcases List.mem_append.mp hx with hx | hx
  · exact hafter x hx
  · exact List.mem_singleton.mp hx ▸ hlt

theorem lastMinimal_concat (h : ∀ x ∈ xs, cost q ≤ cost x) : LastMinimal cost (xs ++ [q]) q :=
  ⟨xs, [], rfl, h, nofun⟩

/-- The holder is the last of the cheapest challengers. -/
theorem holder_lastMinimal (h : holder cost xs = some w) : LastMinimal cost xs w := by
  induction xs using List.reverseRecOn generalizing w with
  | nil => exact absurd h (by simp)
  | append_singleton xs q ih =>
    rw [holder_concat, challenge.eq_def] at h
    split at h
    · rename_i hnone
      obtain rfl := Option.some.inj h
      have hnil : xs = [] := by
        by_contra hne
        obtain ⟨w, hw⟩ := @exists_holder _ _ _ cost _ hne
        exact absurd (hnone.symm.trans hw) (by simp)
      exact lastMinimal_concat fun x hx => absurd (hnil ▸ hx) List.not_mem_nil
    · rename_i old hold
      split at h
      · obtain rfl := Option.some.inj h
        exact (ih hold).concat_of_lt ‹_›
      · obtain rfl := Option.some.inj h
        exact lastMinimal_concat fun x hx => (not_lt.mp ‹_›).trans ((ih hold).le x hx)

/-- The holder depends on the costs of the challengers only. -/
theorem holder_congr (h : ∀ x ∈ xs, cost x = cost' x) : holder cost xs = holder cost' xs := by
  induction xs using List.reverseRecOn with
  | nil => rfl
  | append_singleton xs q ih =>
    have hxs : ∀ x ∈ xs, cost x = cost' x := fun x hx => h x (List.mem_append_left _ hx)
    rw [holder_concat, holder_concat, ← ih hxs]
    unfold challenge
    split
    · rfl
    · rename_i old hold
      rw [hxs old (holder_lastMinimal hold).mem, h q (by simp)]

end AflPlusPlus.RunningMinima
