import AflPlusPlus.EditDistance
import AflPlusPlus.SuggestedEnvs

/-!
# The distance of misspelled variables

`string_distance_levenshtein` keeps one column of the table of distances and overwrites it in
place. It finds the least number of changes, but a change too many for two empty strings.
-/

namespace AflPlusPlus.SuggestedEnvs
open ByteWords EditDistance

variable {s1 s2 : List Byte} {x k : ℕ}

theorem helperMin3_eq (a b c : ℕ) : helperMin3 a b c = min (min a b) c := by
  rw [helperMin3]
  split_ifs <;> omega

/-- After `k` steps the column is new up to `k` and old behind it, and `lastdiag` is the old
distance at `k`. -/
structure Halfway (s1 s2 : List Byte) (x : ℕ) (st : List ℕ × ℕ) (k : ℕ) : Prop where
  length : st.1.length = s1.length + 1
  new : ∀ y ≤ k, st.1.getD y 0 = prefixDist s1 s2 y (x + 1)
  old : ∀ y ≤ s1.length, k < y → st.1.getD y 0 = prefixDist s1 s2 y x
  lastdiag : st.2 = prefixDist s1 s2 k x

theorem Halfway.step {st : List ℕ × ℕ} (h : Halfway s1 s2 x st k) (hx : x < s2.length)
    (hk : k < s1.length) : Halfway s1 s2 x (columnStep s1 s2[x] st k) (k + 1) := by
  have hlt : k + 1 < st.1.length := by
    rw [h.length]
    omega
  have holddiag : st.1.getD (k + 1) 0 = prefixDist s1 s2 (k + 1) x := h.old (k + 1) hk (by omega)
  have hget : s1.getD k 0 = s1[k] := by
    rw [List.getD_eq_getElem?_getD, List.getElem?_eq_getElem hk, Option.getD_some]
  have hset : ∀ v y, (st.1.set (k + 1) v).getD y 0 = if y = k + 1 then v else st.1.getD y 0 := by
    intro v y
    rw [List.getD_eq_getElem?_getD, List.getD_eq_getElem?_getD, List.getElem?_set]
    by_cases hy : k + 1 = y
    · rw [if_pos hy, if_pos hlt, if_pos hy.symm, Option.getD_some]
    · rw [if_neg hy, if_neg (Ne.symm hy)]
  have hnew : helperMin3 (st.1.getD (k + 1) 0 + 1) (st.1.getD k 0 + 1)
      (st.2 + if s1.getD k 0 = s2[x] then 0 else 1) = prefixDist s1 s2 (k + 1) (x + 1) := by
    rw [helperMin3_eq, holddiag, h.new k le_rfl, h.lastdiag, hget, prefixDist_succ hk hx,
      min_comm (prefixDist s1 s2 k (x + 1) + 1)]
  rw [columnStep, hnew]
  refine ⟨?_, fun y hy => ?_, fun y hy hlt' => ?_, holddiag⟩
  · rw [List.length_set, h.length]
  · rw [hset]
    by_cases heq : y = k + 1
    · rw [if_pos heq, heq]
    · rw [if_neg heq]
      exact h.new y (by omega)
  · rw [hset, if_neg (by omega)]
    exact h.old y hy (by omega)

theorem foldl_columnStep {st : List ℕ × ℕ} (h : Halfway s1 s2 x st 0) (hx : x < s2.length) :
    ∀ k ≤ s1.length, Halfway s1 s2 x ((List.range k).foldl (columnStep s1 s2[x]) st) k := by
  intro k
  induction k with
  | zero => exact fun _ => h
  | succ k ih =>
    intro hk
    rw [List.range_succ, List.foldl_append]
    exact (ih (by omega)).step hx hk

/-- The column after `x` rounds. Before the first one its beginning is not used. -/
structure Column (s1 s2 : List Byte) (column : List ℕ) (x : ℕ) : Prop where
  length : column.length = s1.length + 1
  entries : ∀ y ≤ s1.length, 0 < y ∨ 0 < x → column.getD y 0 = prefixDist s1 s2 y x

theorem Column.round {column : List ℕ} (h : Column s1 s2 column x) (hx : x < s2.length) :
    Column s1 s2 (columnRound s1 column (x + 1) s2[x]) (x + 1) := by
  have hset : ∀ y, (column.set 0 (x + 1)).getD y 0 = if y = 0 then x + 1 else column.getD y 0 := by
    intro y
    rw [List.getD_eq_getElem?_getD, List.getD_eq_getElem?_getD, List.getElem?_set]
    by_cases hy : 0 = y
    · rw [if_pos hy, if_pos (by rw [h.length]; omega), if_pos hy.symm, Option.getD_some]
    · rw [if_neg hy, if_neg (Ne.symm hy)]
  have hstart : Halfway s1 s2 x (column.set 0 (x + 1), x + 1 - 1) 0 := by
    refine ⟨?_, fun y hy => ?_, fun y hy hpos => ?_, ?_⟩
    · rw [List.length_set, h.length]
    · rw [Nat.le_zero.mp hy, hset, if_pos rfl, prefixDist_zero_left (by omega)]
    · rw [hset, if_neg hpos.ne']
      exact h.entries y hy (Or.inl hpos)
    · rw [prefixDist_zero_left (by omega), Nat.add_sub_cancel]
  have hend := foldl_columnStep hstart hx s1.length le_rfl
  exact ⟨hend.length, fun y hy _ => hend.new y hy⟩

theorem column_first (s1 s2 : List Byte) : Column s1 s2 (firstColumn s1.length) 0 := by
  rw [firstColumn]
  split
  · next hzero =>
    refine ⟨by rw [hzero]; rfl, fun y hy hpos => ?_⟩
    omega
  · refine ⟨List.length_range, fun y hy _ => ?_⟩
    rw [prefixDist_zero_right hy, List.getD_eq_getElem?_getD, List.getElem?_range (by omega),
      Option.getD_some]

theorem foldl_columnRound (s1 s2 : List Byte) : ∀ x ≤ s2.length, Column s1 s2
    (((s2.take x).zipIdx).foldl (fun column e => columnRound s1 column (e.2 + 1) e.1)
      (firstColumn s1.length)) x := by
  intro x
  induction x with
  | zero => exact fun _ => column_first s1 s2
  | succ x ih =>
    intro hx
    have hround := (ih (by omega)).round hx
    rw [List.take_add_one, List.getElem?_eq_getElem hx, Option.toList_some, List.zipIdx_append,
      List.foldl_append, List.length_take, min_eq_left (by omega), Nat.zero_add]
    exact hround

/-- The result is the least number of changes exactly when one of the strings has a character. The
least number for two empty strings is zero, and the result one. -/
theorem stringDistanceLevenshtein_isLeast_iff :
    (∀ s1 s2 : List Byte, IsLeast {k | Edits s1 s2 k} (stringDistanceLevenshtein s1 s2) ↔
      s1 ≠ [] ∨ s2 ≠ []) ∧
    stringDistanceLevenshtein [] [] = 1 := by
  refine ⟨fun s1 s2 => ⟨?_, ?_⟩, rfl⟩
  · intro h
    by_contra hempty
    rw [not_or, not_not, not_not] at hempty
    obtain ⟨rfl, rfl⟩ := hempty
    exact absurd (h.unique (isLeast_dist [] [])) (by rw [dist_nil_left]; decide)
  · intro hne
    have hcolumn := foldl_columnRound s1 s2 s2.length le_rfl
    rw [List.take_length] at hcolumn
    have hpos : 0 < s1.length ∨ 0 < s2.length :=
      hne.imp List.length_pos_of_ne_nil List.length_pos_of_ne_nil
    rw [stringDistanceLevenshtein, hcolumn.entries s1.length le_rfl hpos, prefixDist_length]
    exact isLeast_dist s1 s2

end AflPlusPlus.SuggestedEnvs
