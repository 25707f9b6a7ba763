import Mathlib.Order.Lattice
import Mathlib.Order.Defs.LinearOrder
import Mathlib.Order.MinMax
import Mathlib.Data.Set.Basic
import Mathlib.Order.Interval.Set.Basic
import Mathlib.Data.List.Basic
import Mathlib.Data.List.Pairwise

/-!
# Ordered lists of half-open spans

A set of points of a linear order, kept as the list of its spans from left to right. Meeting,
removing and joining are single sweeps over such lists, which stop at the first span that lies
beyond the one at hand.
-/

namespace AflPlusPlus.SpanLists

/-- The points from `lo` up to, and without, `hi`. -/
@[ext]
structure Span (α : Type*) where
  lo : α
  hi : α
deriving DecidableEq

variable {α : Type*} [LinearOrder α] {x : α} {r s : Span α} {k l : List (Span α)}

def Span.points (r : Span α) : Set α := Set.Ico r.lo r.hi

/-- The points of all spans of a list. -/
def region (l : List (Span α)) : Set α := {x | ∃ r ∈ l, x ∈ r.points}

/-- `r` lies before `s`. The two may touch. -/
def Span.Before (r s : Span α) : Prop := r.hi ≤ s.lo

/-- Non-empty spans from left to right, none overlapping another. -/
structure Ordered (l : List (Span α)) : Prop where
  pairwise : l.Pairwise Span.Before
  nonempty : ∀ r ∈ l, r.lo < r.hi

theorem Span.mem_points : x ∈ r.points ↔ r.lo ≤ x ∧ x < r.hi := Iff.rfl

@[simp]
theorem region_nil : region ([] : List (Span α)) = ∅ := by
  simp [region]

@[simp]
theorem mem_region_cons : x ∈ region (r :: l) ↔ (r.lo ≤ x ∧ x < r.hi) ∨ x ∈ region l := by
  simp [region, Span.mem_points]

@[simp]
theorem mem_region_append : x ∈ region (k ++ l) ↔ x ∈ region k ∨ x ∈ region l := by
  simp only [region, Set.mem_ofPred_eq, List.mem_append, or_and_right, exists_or]

theorem mem_region_flatMap {f : Span α → List (Span α)} :
    x ∈ region (l.flatMap f) ↔ ∃ r ∈ l, x ∈ region (f r) := by
  simp only [region, Set.mem_ofPred_eq, List.mem_flatMap]
  constructor
  · rintro ⟨s, ⟨r, hr, hs⟩, hx⟩
    exact ⟨r, hr, s, hs, hx⟩
  · rintro ⟨r, hr, s, hs, hx⟩
    exact ⟨s, ⟨r, hr, hs⟩, hx⟩

/-! ## Ordered lists -/

theorem Ordered.nil : Ordered ([] : List (Span α)) :=
  ⟨.nil, by simp⟩

theorem Ordered.tail (h : Ordered (r :: l)) : Ordered l :=
  ⟨h.pairwise.of_cons, fun s hs => h.nonempty s (List.mem_cons_of_mem r hs)⟩

theorem Ordered.head_lt (h : Ordered (r :: l)) : r.lo < r.hi :=
  h.nonempty r List.mem_cons_self

theorem Ordered.before (h : Ordered (r :: l)) (hs : s ∈ l) : r.hi ≤ s.lo :=
  List.rel_of_pairwise_cons h.pairwise hs

theorem Ordered.cons (hr : r.lo < r.hi) (hl : Ordered l) (h : ∀ s ∈ l, r.hi ≤ s.lo) :
    Ordered (r :: l) := by
  refine ⟨List.pairwise_cons.mpr ⟨h, hl.pairwise⟩, ?_⟩
  intro s hs
  rcases List.mem_cons.mp hs with rfl | hs
  · exact hr
  · exact hl.nonempty s hs

theorem Ordered.append (hk : Ordered k) (hl : Ordered l) (h : ∀ r ∈ k, ∀ s ∈ l, r.hi ≤ s.lo) :
    Ordered (k ++ l) := by
  refine ⟨List.pairwise_append.mpr ⟨hk.pairwise, hl.pairwise, h⟩, ?_⟩
  intro s hs
  rcases List.mem_append.mp hs with hs | hs
  · exact hk.nonempty s hs
  · exact hl.nonempty s hs

/-- The points of an ordered list lie from its first span on. -/
theorem Ordered.le_of_mem_region (h : Ordered (r :: l)) (hx : x ∈ region l) : r.hi ≤ x := by
  obtain ⟨s, hs, hlo, -⟩ := hx
  exact (h.before hs).trans hlo

/-- A span beyond which the first of the list begins meets nothing of the list. -/
theorem Ordered.not_mem_region_of_lt (h : Ordered (s :: l)) (hx : x < s.lo) :
    x ∉ region (s :: l) := by
  rw [mem_region_cons]
  rintro (⟨hlo, -⟩ | hl)
  · exact absurd hx (not_lt.mpr hlo)
  · have hbeyond := h.le_of_mem_region hl
    exact absurd (hx.trans h.head_lt) (not_lt.mpr hbeyond)

/-- Every span of `l` is part of `r`. -/
def Within (r : Span α) (l : List (Span α)) : Prop :=
  ∀ s ∈ l, r.lo ≤ s.lo ∧ s.hi ≤ r.hi

/-- Replacing every span by an ordered list of parts of it keeps the order. -/
theorem Ordered.flatMap {f : Span α → List (Span α)} (h : Ordered l)
    (hf : ∀ r ∈ l, Ordered (f r)) (hin : ∀ r ∈ l, Within r (f r)) :
    Ordered (l.flatMap f) := by
  induction l with
  | nil => exact Ordered.nil
  | cons r l ih =>
    rw [List.flatMap_cons]
    have htail : Ordered (l.flatMap f) :=
      ih h.tail (fun s hs => hf s (List.mem_cons_of_mem r hs))
        (fun s hs => hin s (List.mem_cons_of_mem r hs))
    refine (hf r List.mem_cons_self).append htail ?_
    intro s hs t ht
    obtain ⟨u, hu, htu⟩ := List.mem_flatMap.mp ht
    have hleft := (hin r List.mem_cons_self s hs).2
    have hright := (hin u (List.mem_cons_of_mem r hu) t htu).1
    exact hleft.trans ((h.before hu).trans hright)

/-! ## Meeting -/

/-- The parts that `r` has in common with the spans of a list. -/
def Span.clip (r : Span α) : List (Span α) → List (Span α)
  | [] => []
  | s :: l =>
    if r.hi < s.lo then []
    else if max r.lo s.lo < min r.hi s.hi then
      ⟨max r.lo s.lo, min r.hi s.hi⟩ :: r.clip l
    else r.clip l

/-- Everything that the spans of `k` have in common with those of `l`. -/
def meet (k l : List (Span α)) : List (Span α) :=
  k.flatMap (fun r => r.clip l)

theorem Span.clip_within (r : Span α) (l : List (Span α)) : Within r (r.clip l) := by
  induction l with
  | nil => simp [Span.clip, Within]
  | cons s l ih =>
    intro t ht
    rw [Span.clip] at ht
    split_ifs at ht with hbeyond hcommon
    · simp at ht
    · rcases List.mem_cons.mp ht with rfl | ht
      · exact ⟨le_max_left _ _, min_le_left _ _⟩
      · exact ih t ht
    · exact ih t ht

/-- What `r` has in common with spans from `x` on lies from `x` on. -/
theorem Span.le_clip (hl : ∀ s ∈ l, x ≤ s.lo) : ∀ t ∈ r.clip l, x ≤ t.lo := by
  induction l with
  | nil => simp [Span.clip]
  | cons s l ih =>
    have htail := ih (fun t ht => hl t (List.mem_cons_of_mem s ht))
    intro t ht
    rw [Span.clip] at ht
    split_ifs at ht with hbeyond hcommon
    · simp at ht
    · rcases List.mem_cons.mp ht with rfl | ht
      · exact (hl s List.mem_cons_self).trans (le_max_right _ _)
      · exact htail t ht
    · exact htail t ht

theorem Span.clip_ordered (r : Span α) (h : Ordered l) : Ordered (r.clip l) := by
  induction l with
  | nil => exact Ordered.nil
  | cons s l ih =>
    rw [Span.clip]
    split_ifs with hbeyond hcommon
    · exact Ordered.nil
    · refine Ordered.cons hcommon (ih h.tail) ?_
      intro t ht
      exact (min_le_right _ _).trans (Span.le_clip (fun _ hu => h.before hu) t ht)
    · exact ih h.tail

theorem Span.mem_region_clip (h : Ordered l) :
    x ∈ region (r.clip l) ↔ x ∈ r.points ∧ x ∈ region l := by
  induction l with
  | nil => simp [Span.clip]
  | cons s l ih =>
    rw [Span.clip]
    split_ifs with hbeyond hcommon
    · simp only [region_nil, Set.mem_empty_iff_false, false_iff, not_and]
      intro hx
      exact h.not_mem_region_of_lt (hx.2.trans hbeyond)
    · rw [mem_region_cons, ih h.tail, mem_region_cons, max_le_iff, lt_min_iff, Span.mem_points]
      tauto
    · rw [ih h.tail, mem_region_cons]
      have hnone : ¬ (x ∈ r.points ∧ s.lo ≤ x ∧ x < s.hi) := by
        rintro ⟨⟨hlo, hhi⟩, hslo, hshi⟩
        exact hcommon ((max_le hlo hslo).trans_lt (lt_min hhi hshi))
      tauto

theorem region_meet (hl : Ordered l) : region (meet k l) = region k ∩ region l := by
  ext x
  rw [meet, mem_region_flatMap, Set.mem_inter_iff]
  constructor
  · rintro ⟨r, hr, hx⟩
    rw [Span.mem_region_clip hl] at hx
    exact ⟨⟨r, hr, hx.1⟩, hx.2⟩
  · rintro ⟨⟨r, hr, hx⟩, hxl⟩
    exact ⟨r, hr, (Span.mem_region_clip hl).mpr ⟨hx, hxl⟩⟩

theorem Ordered.meet (hk : Ordered k) (hl : Ordered l) : Ordered (meet k l) :=
  hk.flatMap (fun r _ => r.clip_ordered hl) (fun r _ => r.clip_within l)

/-! ## Removing -/

/-- What is left of `r` without the spans of a list. -/
def Span.carve (r : Span α) : List (Span α) → List (Span α)
  | [] => if r.lo < r.hi then [r] else []
  | s :: l =>
    if r.hi < s.lo then (if r.lo < r.hi then [r] else [])
    else if max r.lo s.lo < min r.hi s.hi then
      if r.lo < s.lo then ⟨r.lo, s.lo⟩ :: (Span.mk (min r.hi s.hi) r.hi).carve l
      else (Span.mk (min r.hi s.hi) r.hi).carve l
    else r.carve l

/-- What is left of the spans of `k` without those of `l`. -/
def remove (k l : List (Span α)) : List (Span α) :=
  k.flatMap (fun r => r.carve l)

theorem Span.carve_within (r : Span α) (l : List (Span α)) : Within r (r.carve l) := by
  induction l generalizing r with
  | nil =>
    rw [Span.carve]
    split_ifs <;> simp [Within]
  | cons s l ih =>
    have hrest : max r.lo s.lo < min r.hi s.hi →
        Within r ((Span.mk (min r.hi s.hi) r.hi).carve l) := by
      intro hcommon t ht
      have hpart := ih ⟨min r.hi s.hi, r.hi⟩ t ht
      exact ⟨(le_max_left _ _).trans (hcommon.le.trans hpart.1), hpart.2⟩
    rw [Span.carve]
    split_ifs with hbeyond hempty hcommon hleft
    · simp [Within]
    · simp [Within]
    · intro t ht
      rcases List.mem_cons.mp ht with rfl | ht
      · exact ⟨le_rfl, not_lt.mp hbeyond⟩
      · exact hrest hcommon t ht
    · exact hrest hcommon
    · exact ih r

theorem Span.carve_ordered (r : Span α) (l : List (Span α)) : Ordered (r.carve l) := by
  induction l generalizing r with
  | nil =>
    rw [Span.carve]
    split_ifs with hr
    · exact Ordered.cons hr Ordered.nil (by simp)
    · exact Ordered.nil
  | cons s l ih =>
    rw [Span.carve]
    split_ifs with hbeyond hr hcommon hleft
    · exact Ordered.cons hr Ordered.nil (by simp)
    · exact Ordered.nil
    · refine Ordered.cons hleft (ih _) ?_
      intro t ht
      have hstart := (Span.carve_within ⟨min r.hi s.hi, r.hi⟩ l t ht).1
      exact (le_max_right _ _).trans (hcommon.le.trans hstart)
    · exact ih _
    · exact ih r

/-- Without the spans after its upper end nothing is missing of a span. -/
private theorem mem_region_whole :
    x ∈ region (if r.lo < r.hi then [r] else []) ↔ x ∈ r.points := by
  split_ifs with hr
  · simp [Span.mem_points]
  · simp only [region_nil, Set.mem_empty_iff_false, Span.mem_points, false_iff, not_and, not_lt]
    exact (not_lt.mp hr).trans

theorem Span.mem_region_carve (h : Ordered l) :
    x ∈ region (r.carve l) ↔ x ∈ r.points ∧ x ∉ region l := by
  induction l generalizing r with
  | nil => simp [Span.carve, mem_region_whole]
  | cons s l ih =>
    have hafter : x < s.hi → x ∉ region l :=
      fun hx hmem => absurd (h.le_of_mem_region hmem) (not_le.mpr hx)
    have hrest : x ∈ region ((Span.mk (min r.hi s.hi) r.hi).carve l) ↔
        s.hi ≤ x ∧ x < r.hi ∧ x ∉ region l := by
      rw [ih h.tail, Span.mem_points, min_le_iff, and_assoc]
      exact and_congr_left fun hx => or_iff_right (not_le.mpr hx.1)
    rw [Span.carve]
    split_ifs with hbeyond hr hcommon hleft
    · simpa [Span.mem_points] using fun _ hx => h.not_mem_region_of_lt (hx.trans hbeyond)
    · simp only [region_nil, Set.mem_empty_iff_false, Span.mem_points, false_iff]
      rintro ⟨⟨hlo, hhi⟩, -⟩
      exact hr (hlo.trans_lt hhi)
    · rw [mem_region_cons, hrest, mem_region_cons, Span.mem_points]
      obtain ⟨hsr, -⟩ := lt_min_iff.mp ((le_max_right _ _).trans_lt hcommon)
      have hs := h.head_lt
      constructor
      · rintro (⟨hlo, hhi⟩ | ⟨hlo, hhi, hl⟩)
        · refine ⟨⟨hlo, hhi.trans hsr⟩, ?_⟩
          rintro (⟨hslo, -⟩ | hl)
          · exact absurd hhi (not_lt.mpr hslo)
          · exact hafter (hhi.trans hs) hl
        · refine ⟨⟨hleft.le.trans (hs.le.trans hlo), hhi⟩, ?_⟩
          rintro (⟨-, hshi⟩ | hl')
          · exact absurd hshi (not_lt.mpr hlo)
          · exact hl hl'
      · rintro ⟨⟨hlo, hhi⟩, hnot⟩
        push Not at hnot
        rcases lt_or_ge x s.lo with hx | hx
        · exact Or.inl ⟨hlo, hx⟩
        · exact Or.inr ⟨hnot.1 hx, hhi, hnot.2⟩
    · rw [hrest, mem_region_cons, Span.mem_points]
      have hr := (le_max_left _ _).trans_lt (hcommon.trans_le (min_le_right _ _))
      constructor
      · rintro ⟨hlo, hhi, hl⟩
        refine ⟨⟨hr.le.trans hlo, hhi⟩, ?_⟩
        rintro (⟨-, hshi⟩ | hl')
        · exact absurd hshi (not_lt.mpr hlo)
        · exact hl hl'
      · rintro ⟨⟨hlo, hhi⟩, hnot⟩
        push Not at hnot
        exact ⟨hnot.1 ((not_lt.mp hleft).trans hlo), hhi, hnot.2⟩
    · rw [ih h.tail, mem_region_cons, Span.mem_points]
      have hnone : ¬ ((r.lo ≤ x ∧ x < r.hi) ∧ s.lo ≤ x ∧ x < s.hi) := by
        rintro ⟨⟨hlo, hhi⟩, hslo, hshi⟩
        exact hcommon ((max_le hlo hslo).trans_lt (lt_min hhi hshi))
      tauto

theorem region_remove (hl : Ordered l) : region (remove k l) = region k \ region l := by
  ext x
  rw [remove, mem_region_flatMap, Set.mem_sdiff]
  constructor
  · rintro ⟨r, hr, hx⟩
    obtain ⟨hxr, hxl⟩ := (Span.mem_region_carve hl).mp hx
    exact ⟨⟨r, hr, hxr⟩, hxl⟩
  · rintro ⟨⟨r, hr, hx⟩, hxl⟩
    exact ⟨r, hr, (Span.mem_region_carve hl).mpr ⟨hx, hxl⟩⟩

theorem Ordered.remove (hk : Ordered k) (l : List (Span α)) : Ordered (remove k l) :=
  hk.flatMap (fun r _ => r.carve_ordered l) (fun r _ => r.carve_within l)

/-! ## Joining -/

/-- Non-empty spans from left to right with a gap between any two. -/
structure Separated (l : List (Span α)) : Prop where
  pairwise : l.Pairwise (fun r s => r.hi < s.lo)
  nonempty : ∀ r ∈ l, r.lo < r.hi

/-- The sweep of `join` with the span it has collected so far. -/
def joinFrom (r : Span α) : List (Span α) → List (Span α)
  | [] => [r]
  | s :: l => if r.hi = s.lo then joinFrom ⟨r.lo, s.hi⟩ l else r :: joinFrom s l

/-- Touching spans made one. -/
def join : List (Span α) → List (Span α)
  | [] => []
  | r :: l => joinFrom r l

theorem Ordered.joined (h : Ordered (r :: s :: l)) : Ordered (⟨r.lo, s.hi⟩ :: l) := by
  refine Ordered.cons ?_ h.tail.tail (fun t ht => h.tail.before ht)
  exact h.head_lt.trans_le ((h.before List.mem_cons_self).trans h.tail.head_lt.le)

theorem le_joinFrom (h : Ordered (r :: l)) : ∀ s ∈ joinFrom r l, r.lo ≤ s.lo := by
  induction l generalizing r with
  | nil => simp [joinFrom]
  | cons s l ih =>
    intro t ht
    rw [joinFrom] at ht
    split_ifs at ht with htouch
    · exact ih h.joined t ht
    · rcases List.mem_cons.mp ht with rfl | ht
      · exact le_rfl
      · exact h.head_lt.le.trans ((h.before List.mem_cons_self).trans (ih h.tail t ht))

theorem joinFrom_separated (h : Ordered (r :: l)) : Separated (joinFrom r l) := by
  induction l generalizing r with
  | nil => exact ⟨by simp [joinFrom], by simpa [joinFrom] using h.head_lt⟩
  | cons s l ih =>
    rw [joinFrom]
    split_ifs with htouch
    · exact ih h.joined
    · obtain ⟨hpairwise, hnonempty⟩ := ih h.tail
      have hgap : r.hi < s.lo := lt_of_le_of_ne (h.before List.mem_cons_self) htouch
      refine ⟨List.pairwise_cons.mpr ⟨?_, hpairwise⟩,
        List.forall_mem_cons.mpr ⟨h.head_lt, hnonempty⟩⟩
      exact fun t ht => hgap.trans_le (le_joinFrom h.tail t ht)

theorem region_joinFrom (h : Ordered (r :: l)) : region (joinFrom r l) = region (r :: l) := by
  induction l generalizing r with
  | nil => rfl
  | cons s l ih =>
    ext x
    rw [joinFrom]
    split_ifs with htouch
    · rw [ih h.joined]
      simp only [mem_region_cons, ← or_assoc]
      refine or_congr_left ?_
      have hs := h.tail.head_lt
      constructor
      · rintro ⟨hlo, hhi⟩
        rcases lt_or_ge x s.lo with hx | hx
        · exact Or.inl ⟨hlo, htouch ▸ hx⟩
        · exact Or.inr ⟨hx, hhi⟩
      · rintro (⟨hlo, hhi⟩ | ⟨hlo, hhi⟩)
        · exact ⟨hlo, (htouch ▸ hhi).trans hs⟩
        · exact ⟨h.head_lt.le.trans (htouch.le.trans hlo), hhi⟩
    · simp only [mem_region_cons, ih h.tail]

theorem join_separated (h : Ordered l) : Separated (join l) := by
  cases l with
  | nil => exact ⟨List.Pairwise.nil, by simp [join]⟩
  | cons r l => exact joinFrom_separated h

theorem region_join (h : Ordered l) : region (join l) = region l := by
  cases l with
  | nil => rfl
  | cons r l => exact region_joinFrom h

theorem Separated.ordered (h : Separated l) : Ordered l :=
  ⟨h.pairwise.imp le_of_lt, h.nonempty⟩

/-! ## Searching -/

/-- Whether a span of the list holds `x`, looking no further than the first span beyond `x`. -/
def search (x : α) : List (Span α) → Bool
  | [] => false
  | r :: l => if x < r.lo then false else if x < r.hi then true else search x l

theorem search_iff (h : Ordered l) : search x l = true ↔ x ∈ region l := by
  induction l with
  | nil => simp [search]
  | cons r l ih =>
    rw [search]
    split_ifs with hbeyond hhi
    · simpa using h.not_mem_region_of_lt hbeyond
    · simp [not_lt.mp hbeyond, hhi]
    · rw [ih h.tail, mem_region_cons]
      exact (or_iff_right (fun hx => hhi hx.2)).symm

end AflPlusPlus.SpanLists
