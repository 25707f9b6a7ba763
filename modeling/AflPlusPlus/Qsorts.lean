import Mathlib.Data.List.Basic
import Mathlib.Data.List.Pairwise
import Mathlib.Order.Lattice
import Mathlib.Data.Int.Order.Basic

/-!
# The sorting function of the C library

`qsort` rearranges an array. In which order it leaves elements that compare as equal is not said,
nor is an order promised for a comparison that is not consistent.
-/

namespace AflPlusPlus.Qsorts

/-- A `qsort`. The array is in order afterwards when the comparison is, on its elements, the
difference of a key. -/
structure Qsort where
  sort : {α : Type} → (α → α → ℤ) → List α → List α
  perm : ∀ {α : Type} (cmp : α → α → ℤ) (l : List α), (sort cmp l).Perm l
  ordered : ∀ {α : Type} (cmp : α → α → ℤ) (key : α → ℤ) (l : List α),
    (∀ a ∈ l, ∀ b ∈ l, cmp a b = key a - key b) →
    (sort cmp l).Pairwise (fun a b => key a ≤ key b)

/-- The stable merge sort. -/
def Qsort.merge : Qsort where
  sort cmp l := l.mergeSort (fun a b => decide (cmp a b ≤ 0))
  perm _ _ := List.mergeSort_perm _ _
  ordered cmp key l h := by
    have hmap := List.map_mergeSort (r := fun a b => decide (cmp a b ≤ 0))
      (s := fun a b => decide (a ≤ b)) (f := key) (l := l) (by
        intro a ha b hb
        rw [h a ha b hb]
        simp only [decide_eq_decide]
        omega)
    have hsorted : ((l.map key).mergeSort (fun a b => decide (a ≤ b))).Pairwise
        (fun a b => decide (a ≤ b) = true) :=
      List.pairwise_mergeSort (by simpa using fun a b c => @le_trans ℤ _ a b c)
        (by simpa using le_total) _
    rw [← hmap, List.pairwise_map] at hsorted
    simpa using hsorted

variable {α : Type} {q : Qsort} {cmp : α → α → ℤ} {l : List α}

@[simp]
theorem Qsort.mem_sort {a : α} : a ∈ q.sort cmp l ↔ a ∈ l :=
  (q.perm cmp l).mem_iff

@[simp]
theorem Qsort.length_sort : (q.sort cmp l).length = l.length :=
  (q.perm cmp l).length_eq

/-! ## Runs of equal keys in sorted lists -/

variable (key : α → ℕ) {n : ℕ}

theorem takeWhile_key_eq (hsorted : l.Pairwise (fun a b => key a ≤ key b))
    (hle : ∀ a ∈ l, n ≤ key a) :
    l.takeWhile (fun a => key a = n) = l.filter (fun a => key a = n) := by
  induction l with
  | nil => rfl
  | cons a l ih =>
    obtain ⟨hhead, htail⟩ := List.pairwise_cons.mp hsorted
    obtain ⟨ha, hl⟩ := List.forall_mem_cons.mp hle
    by_cases h : key a = n
    · rw [List.takeWhile_cons_of_pos (by simpa using h), List.filter_cons_of_pos (by simpa using h),
        ih htail hl]
    · rw [List.takeWhile_cons_of_neg (by simpa using h), List.filter_cons_of_neg (by simpa using h)]
      refine (List.filter_eq_nil_iff.mpr ?_).symm
      intro b hb
      have hbeyond := hhead b hb
      simp only [decide_eq_true_eq]
      omega

/-- The elements with one key follow those with a smaller key. -/
theorem dropWhile_takeWhile_key (hsorted : l.Pairwise (fun a b => key a ≤ key b)) :
    (l.dropWhile (fun a => ¬ key a ≥ n)).takeWhile (fun a => key a = n) =
      l.filter (fun a => key a = n) := by
  induction l with
  | nil => rfl
  | cons a l ih =>
    obtain ⟨hhead, htail⟩ := List.pairwise_cons.mp hsorted
    by_cases h : key a ≥ n
    · rw [List.dropWhile_cons_of_neg (by simpa using h)]
      refine takeWhile_key_eq key hsorted (List.forall_mem_cons.mpr ⟨h, ?_⟩)
      exact fun b hb => le_trans h (hhead b hb)
    · rw [List.dropWhile_cons_of_pos (by simpa using h),
        List.filter_cons_of_neg (by simp only [decide_eq_true_eq]; omega), ih htail]

end AflPlusPlus.Qsorts
