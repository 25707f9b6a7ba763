import Mathlib.Data.List.TakeWhile
import Mathlib.Tactic.Common

/-!
# Segments of a text

Separators cut a text into segments. A segment is taken out with the separator behind it, and the
last one with the separator in front of it.
-/

namespace AflPlusPlus.SeparatedTexts

variable {α : Type*}

/-- `seg` is a segment of the text, with `pre` in front of it and `post` behind it. -/
structure Segment (sep : α) (text pre seg post : List α) : Prop where
  text_eq : text = pre ++ (seg ++ post)
  free : sep ∉ seg
  starts : pre = [] ∨ ∃ before, pre = before ++ [sep]
  stops : post = [] ∨ ∃ behind, post = sep :: behind
  nonempty : pre ≠ text

/-- What is left of the text without the segment. -/
def without (pre post : List α) : List α := if post = [] then pre.dropLast else pre ++ post.tail

/-- The text is the other one without one of its segments. -/
def Reduces (sep : α) (text r : List α) : Prop :=
  ∃ pre seg post, Segment sep text pre seg post ∧ r = without pre post

/-- It is without a segment that begins at `n` or later. -/
def ReducesFrom (sep : α) (n : ℕ) (text r : List α) : Prop :=
  ∃ pre seg post, Segment sep text pre seg post ∧ n ≤ pre.length ∧ r = without pre post

variable {sep : α} {text pre seg post pre' seg' post' r : List α}

theorem reducesFrom_zero : ReducesFrom sep 0 text r ↔ Reduces sep text r := by
  constructor
  · rintro ⟨pre, seg, post, h, -, hr⟩
    exact ⟨pre, seg, post, h, hr⟩
  · rintro ⟨pre, seg, post, h, hr⟩
    exact ⟨pre, seg, post, h, Nat.zero_le _, hr⟩

/-- Up to the first separator there is only one way. -/
theorem cut_unique (h : seg ++ post = seg' ++ post') (hfree : sep ∉ seg) (hfree' : sep ∉ seg')
    (hstops : post = [] ∨ ∃ behind, post = sep :: behind)
    (hstops' : post' = [] ∨ ∃ behind, post' = sep :: behind) : seg = seg' ∧ post = post' := by
  induction seg generalizing seg' with
  | nil =>
    cases seg' with
    | nil => exact ⟨rfl, h⟩
    | cons c seg' =>
      rw [List.nil_append, List.cons_append] at h
      rcases hstops with rfl | ⟨behind, rfl⟩
      · exact absurd h.symm (List.cons_ne_nil _ _)
      · rw [List.cons.injEq] at h
        exact absurd (h.1 ▸ List.mem_cons_self) hfree'
  | cons c seg ih =>
    rw [List.mem_cons, not_or] at hfree
    cases seg' with
    | nil =>
      rw [List.nil_append, List.cons_append] at h
      rcases hstops' with rfl | ⟨behind, rfl⟩
      · exact absurd h (List.cons_ne_nil _ _)
      · rw [List.cons.injEq] at h
        exact absurd h.1.symm hfree.1
    | cons d seg' =>
      rw [List.mem_cons, not_or] at hfree'
      rw [List.cons_append, List.cons_append, List.cons.injEq] at h
      obtain ⟨rfl, hrest⟩ := h
      obtain ⟨rfl, hpost⟩ := ih hrest hfree.2 hfree'.2
      exact ⟨rfl, hpost⟩

/-- Behind the beginning of one segment, the next segment begins behind its end. -/
theorem Segment.cases (h : Segment sep text pre seg post) (h' : Segment sep text pre' seg' post')
    (hle : pre.length ≤ pre'.length) :
    (pre' = pre ∧ post' = post) ∨ pre.length + seg.length + 1 ≤ pre'.length := by
  have htext := h.text_eq.symm.trans h'.text_eq
  obtain ⟨mid, rfl⟩ : ∃ mid, pre' = pre ++ mid := by
    have hprefix : pre <+: pre' :=
      List.prefix_of_prefix_length_le ⟨_, htext⟩ (List.prefix_append _ _) hle
    exact hprefix.imp fun _ hmid => hmid.symm
  rw [List.append_assoc, List.append_cancel_left_eq] at htext
  rcases List.eq_nil_or_concat mid with rfl | ⟨before, c, rfl⟩
  · rw [List.nil_append] at htext
    obtain ⟨-, hpost⟩ := cut_unique htext h.free h'.free h.stops h'.stops
    exact Or.inl ⟨List.append_nil _, hpost.symm⟩
  · -- the middle ends with a separator, and the segment has none
    right
    obtain rfl : c = sep := by
      rcases h'.starts with hnil | ⟨b, hb⟩
      · simp at hnil
      · rw [List.concat_eq_append, ← List.append_assoc] at hb
        exact List.singleton_inj.mp (List.append_inj' hb rfl).2
    rw [List.length_append, Nat.add_assoc]
    by_contra hshort
    have hinside : before.concat c <+: seg :=
      List.prefix_of_prefix_length_le ⟨_, htext.symm⟩ (List.prefix_append _ _) (by omega)
    exact h.free (hinside.subset (by simp))

theorem Segment.length_lt (h : Segment sep text pre seg post) : pre.length < text.length := by
  have hpos : seg ++ post ≠ [] := by
    intro hnil
    rw [h.text_eq, hnil, List.append_nil] at h
    exact h.nonempty rfl
  rw [h.text_eq, List.length_append]
  exact Nat.lt_add_of_pos_right (List.length_pos_iff.mpr hpos)

theorem Segment.length_without_le (h : Segment sep text pre seg post) :
    (without pre post).length ≤ text.length := by
  rw [without, h.text_eq, List.length_append, List.length_append]
  split
  · rw [List.length_dropLast]
    omega
  · rw [List.length_append, List.length_tail]
    omega

theorem Reduces.length_le (h : Reduces sep text r) : r.length ≤ text.length := by
  obtain ⟨pre, seg, post, hseg, rfl⟩ := h
  exact hseg.length_without_le

/-- The segments from `n` on are the one that begins there and those behind it. -/
theorem reducesFrom_iff (h : Segment sep text pre seg post) :
    ReducesFrom sep pre.length text r ↔
      r = without pre post ∨ ReducesFrom sep (pre.length + seg.length + 1) text r := by
  constructor
  · rintro ⟨pre', seg', post', h', hle, hr⟩
    rcases h.cases h' hle with ⟨rfl, rfl⟩ | hbehind
    · exact Or.inl hr
    · exact Or.inr ⟨pre', seg', post', h', hbehind, hr⟩
  · rintro (hr | ⟨pre', seg', post', h', hle, hr⟩)
    · exact ⟨pre, seg, post, h, Nat.le_refl _, hr⟩
    · exact ⟨pre', seg', post', h', by omega, hr⟩

theorem not_reducesFrom {n : ℕ} (hn : text.length ≤ n) : ¬ ReducesFrom sep n text r := by
  rintro ⟨pre, seg, post, h, hle, -⟩
  exact absurd h.length_lt (by omega)

/-! ## Walking over the segments -/

/-- A place where a segment begins. -/
def Begins (sep : α) (text : List α) (n : ℕ) : Prop :=
  n = 0 ∨ ∃ before, text.take n = before ++ [sep]

theorem begins_zero : Begins sep text 0 := Or.inl rfl

variable [DecidableEq α] {n : ℕ}

/-- The segment that begins at `n`. -/
def segmentAt (sep : α) (text : List α) (n : ℕ) : List α := (text.drop n).takeWhile (· ≠ sep)

theorem drop_segmentAt :
    text.drop (n + (segmentAt sep text n).length) = (text.drop n).dropWhile (· ≠ sep) := by
  have hcut := List.takeWhile_append_dropWhile (p := fun c => decide (c ≠ sep)) (l := text.drop n)
  calc text.drop (n + (segmentAt sep text n).length)
      = (text.drop n).drop (segmentAt sep text n).length := List.drop_drop.symm
    _ = (segmentAt sep text n ++ (text.drop n).dropWhile (· ≠ sep)).drop
          (segmentAt sep text n).length := congrArg _ hcut.symm
    _ = (text.drop n).dropWhile (· ≠ sep) := List.drop_left

theorem length_segmentAt_le (sep : α) (hn : n ≤ text.length) :
    n + (segmentAt sep text n).length ≤ text.length := by
  have hle := (List.takeWhile_prefix (l := text.drop n) fun c => decide (c ≠ sep)).length_le
  rw [List.length_drop] at hle
  rw [segmentAt]
  omega

theorem Begins.segment (h : Begins sep text n) (hn : n < text.length) :
    Segment sep text (text.take n) (segmentAt sep text n)
      (text.drop (n + (segmentAt sep text n).length)) where
  text_eq := by
    rw [drop_segmentAt, segmentAt, List.takeWhile_append_dropWhile, List.take_append_drop]
  free hmem := by
    have hne := List.mem_takeWhile_imp hmem
    simp at hne
  starts := h.imp_left fun hzero => by rw [hzero, List.take_zero]
  stops := by
    rw [drop_segmentAt]
    cases hpost : (text.drop n).dropWhile (· ≠ sep) with
    | nil => exact Or.inl rfl
    | cons c behind =>
      have hhead := List.head_dropWhile_not (fun c => decide (c ≠ sep)) (l := text.drop n)
        (hpost ▸ List.cons_ne_nil _ _)
      simp only [hpost, List.head_cons, decide_eq_false_iff_not, not_not] at hhead
      exact Or.inr ⟨behind, by rw [hhead]⟩
  nonempty heq := by
    have hlen := congrArg List.length heq
    rw [List.length_take] at hlen
    omega

theorem Begins.next (h : Begins sep text n)
    (hn : n + (segmentAt sep text n).length < text.length) :
    Begins sep text (n + (segmentAt sep text n).length + 1) := by
  have hseg := h.segment (by omega)
  rcases hseg.stops with hnil | ⟨behind, hbehind⟩
  · rw [List.drop_eq_nil_iff] at hnil
    omega
  · have htext := hseg.text_eq
    rw [hbehind] at htext
    have hsplit : text = (text.take n ++ segmentAt sep text n ++ [sep]) ++ behind := by
      rw [List.append_assoc, List.append_assoc, List.singleton_append]
      exact htext
    have hlen : (text.take n ++ segmentAt sep text n ++ [sep]).length =
        n + (segmentAt sep text n).length + 1 := by
      rw [List.length_append, List.length_append, List.length_singleton, List.length_take]
      omega
    refine Or.inr ⟨text.take n ++ segmentAt sep text n, ?_⟩
    exact (congrArg _ hsplit).trans (hlen ▸ List.take_left)

/-- What is left without the segment that begins at `n`, by positions. -/
theorem without_eq (hn : n < text.length) {last : ℕ}
    (hlast : last = n + (segmentAt sep text n).length + 1) :
    without (text.take n) (text.drop (n + (segmentAt sep text n).length)) =
      (text.take n ++ text.drop last).take (text.length + n - last) := by
  have hle := length_segmentAt_le sep (Nat.le_of_lt hn)
  rw [without]
  split
  · next hnil =>
    rw [List.drop_eq_nil_iff] at hnil
    have hbehind : text.drop last = [] := List.drop_eq_nil_of_le (by omega)
    have hcount : text.length + n - last = n - 1 := by omega
    rw [hbehind, List.append_nil, hcount, List.dropLast_eq_take, List.length_take,
      Nat.min_eq_left (Nat.le_of_lt hn)]
  · next hne =>
    rw [List.drop_eq_nil_iff, Nat.not_le] at hne
    have hlen : (text.take n ++ text.drop last).length ≤ text.length + n - last := by
      rw [List.length_append, List.length_take, List.length_drop]
      omega
    rw [List.tail_drop, ← hlast, List.take_of_length_le hlen]

end AflPlusPlus.SeparatedTexts
