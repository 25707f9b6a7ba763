import Mathlib.Data.List.Basic
import Mathlib.Tactic.NthRewrite

/-!
# Writing a list over a part of another

A list written at a position of another covers what a shorter one has left there, and can be
undone with the elements that were there before.
-/

namespace AflPlusPlus.Overlays

variable {α : Type*} {xs ys zs : List α} {i : ℕ}

/-- `xs` with `ys` written at position `i`. -/
def overlay (xs : List α) (i : ℕ) (ys : List α) : List α :=
  xs.take i ++ ys ++ xs.drop (i + ys.length)

/-- `xs` with `ys` between the elements before position `i` and the others. -/
def insertAt (xs : List α) (i : ℕ) (ys : List α) : List α := xs.take i ++ ys ++ xs.drop i

@[simp] theorem overlay_nil (xs : List α) (i : ℕ) : overlay xs i [] = xs := by
  simp [overlay]

theorem length_overlay (h : i + ys.length ≤ xs.length) : (overlay xs i ys).length = xs.length := by
  simp only [overlay, List.length_append, List.length_take, List.length_drop]
  omega

theorem getElem?_overlay (h : i + ys.length ≤ xs.length) (k : ℕ) :
    (overlay xs i ys)[k]? = if i ≤ k ∧ k < i + ys.length then ys[k - i]? else xs[k]? := by
  have hlen : (xs.take i).length = i := by
    rw [List.length_take]
    omega
  rw [overlay, List.append_assoc]
  by_cases hlt : k < i
  · rw [List.getElem?_append_left (by omega), List.getElem?_take_of_lt hlt, if_neg (by omega)]
  · rw [List.getElem?_append_right (by omega), hlen]
    by_cases hin : k < i + ys.length
    · rw [List.getElem?_append_left (by omega), if_pos ⟨by omega, hin⟩]
    · rw [List.getElem?_append_right (by omega), List.getElem?_drop, if_neg (by omega)]
      congr 1
      omega

/-- A longer list covers a shorter one. -/
theorem overlay_overlay (hys : ys.length ≤ zs.length) (hzs : i + zs.length ≤ xs.length) :
    overlay (overlay xs i ys) i zs = overlay xs i zs := by
  have hlen := @length_overlay _ xs ys i (by omega)
  refine List.ext_getElem? fun k => ?_
  rw [getElem?_overlay (by omega), getElem?_overlay hzs]
  split
  · rfl
  · rw [getElem?_overlay (by omega), if_neg (by omega)]

/-- What was there before undoes the write. -/
theorem overlay_restore (hys : i + ys.length ≤ xs.length) :
    overlay (overlay xs i ys) i ((xs.drop i).take ys.length) = xs := by
  have hlen := length_overlay hys
  have hback : ((xs.drop i).take ys.length).length = ys.length := by
    rw [List.length_take, List.length_drop]
    omega
  refine List.ext_getElem? fun k => ?_
  rw [getElem?_overlay (by omega), hback]
  split
  · rename_i hin
    rw [List.getElem?_take_of_lt (by omega), List.getElem?_drop]
    congr 1
    omega
  · rw [getElem?_overlay hys, if_neg ‹_›]

/-- To write what is there changes nothing. -/
theorem overlay_of_eq (h : ys = (xs.drop i).take ys.length) : overlay xs i ys = xs := by
  have htake : xs.take i ++ (xs.drop i).take ys.length = xs.take (i + ys.length) :=
    List.take_add.symm
  rw [overlay]
  nth_rewrite 1 [h]
  rw [htake, List.take_append_drop]

end AflPlusPlus.Overlays
