import Mathlib

/-!
# Counters in the order of insertion

A counter lists its keys in the order in which they were counted first, each with its count.
Counting further keys and merging counters adds up the counts.
-/

namespace AflPlusPlus.OrderedCounters

variable {κ : Type*}

abbrev Counter (κ : Type*) := List (κ × ℕ)

/-- From the most common to the least. Keys of one count stay in their order. -/
def mostCommon (c : Counter κ) : Counter κ := c.mergeSort fun a b => decide (b.2 ≤ a.2)

theorem mostCommon_perm (c : Counter κ) : (mostCommon c).Perm c := List.mergeSort_perm ..

/-- The counter has the keys of positive count, each once. -/
structure Counts (c : Counter κ) (f : κ → ℕ) : Prop where
  nodup : (c.map Prod.fst).Nodup
  mem_iff : ∀ t k, (t, k) ∈ c ↔ k = f t ∧ 0 < k

theorem counts_empty : Counts ([] : Counter κ) 0 where
  nodup := List.nodup_nil
  mem_iff t k := by
    refine iff_of_false List.not_mem_nil ?_
    rintro ⟨rfl, hpos⟩
    exact absurd hpos (Nat.not_lt_zero _)

theorem Counts.congr {c : Counter κ} {f g : κ → ℕ} (h : Counts c f) (heq : ∀ t, f t = g t) :
    Counts c g := by
  rwa [← funext heq]

theorem Counts.mem_mostCommon {c : Counter κ} {f : κ → ℕ} (h : Counts c f) {t : κ} {k : ℕ} :
    (t, k) ∈ mostCommon c ↔ k = f t ∧ 0 < k := by
  rw [(mostCommon_perm c).mem_iff, h.mem_iff]

variable [DecidableEq κ]

/-- A key that is there is counted up in its place, a new one comes last. -/
def add (t : κ) (k : ℕ) : Counter κ → Counter κ
  | [] => [(t, k)]
  | (s, n) :: c => if s = t then (s, n + k) :: c else (s, n) :: add t k c

def update (c : Counter κ) (keys : List κ) : Counter κ := keys.foldl (fun c t => add t 1 c) c

def merge (c d : Counter κ) : Counter κ := d.foldl (fun c e => add e.1 e.2 c) c

section Counts
variable {c d : Counter κ} {f g : κ → ℕ} {t : κ} {k : ℕ}

theorem mem_add_fst {s : κ} : s ∈ (add t k c).map Prod.fst ↔ s = t ∨ s ∈ c.map Prod.fst := by
  induction c with
  | nil => rw [add, List.map_singleton, List.mem_singleton, List.map_nil, List.mem_nil_iff, or_false]
  | cons e c ih =>
    obtain ⟨u, n⟩ := e
    rw [add]
    split
    · next heq =>
      subst heq
      rw [List.map_cons, List.map_cons, List.mem_cons]
      exact ⟨Or.inr, fun h => h.elim Or.inl id⟩
    · rw [List.map_cons, List.map_cons, List.mem_cons, List.mem_cons, ih]
      exact or_left_comm

/-- The head of a counter, and what the others count. -/
theorem Counts.tail {n : ℕ} (h : Counts ((t, n) :: c) f) :
    n = f t ∧ 0 < n ∧ t ∉ c.map Prod.fst ∧ Counts c (Function.update f t 0) := by
  obtain ⟨hn, hpos⟩ := (h.mem_iff t n).mp List.mem_cons_self
  have hnodup := h.nodup
  rw [List.map_cons, List.nodup_cons] at hnodup
  refine ⟨hn, hpos, hnodup.1, hnodup.2, fun s k => ?_⟩
  by_cases hs : s = t
  · subst hs
    rw [Function.update_self]
    refine iff_of_false (fun hmem => hnodup.1 (List.mem_map.mpr ⟨_, hmem, rfl⟩)) ?_
    rintro ⟨rfl, hlt⟩
    exact absurd hlt (Nat.not_lt_zero _)
  · rw [Function.update_of_ne hs, ← h.mem_iff, List.mem_cons]
    refine ⟨Or.inr, fun hmem => hmem.resolve_left fun heq => hs ?_⟩
    exact congrArg Prod.fst heq

theorem Counts.cons {n : ℕ} (h : Counts c f) (ht : t ∉ c.map Prod.fst) (hpos : 0 < n) :
    Counts ((t, n) :: c) (Function.update f t n) where
  nodup := List.nodup_cons.mpr ⟨ht, h.nodup⟩
  mem_iff s k := by
    rw [List.mem_cons]
    by_cases hs : s = t
    · subst hs
      rw [Function.update_self, Prod.mk.injEq]
      constructor
      · rintro (⟨-, rfl⟩ | hmem)
        · exact ⟨rfl, hpos⟩
        · exact absurd (List.mem_map_of_mem hmem) ht
      · rintro ⟨rfl, -⟩
        exact Or.inl ⟨rfl, rfl⟩
    · rw [Function.update_of_ne hs, ← h.mem_iff]
      exact ⟨fun hmem => hmem.resolve_left fun heq => hs (congrArg Prod.fst heq), Or.inr⟩

theorem Counts.add (h : Counts c f) (hk : 0 < k) :
    Counts (add t k c) (Function.update f t (f t + k)) := by
  induction c generalizing f with
  | nil =>
    have hzero : f t = 0 := by
      by_contra hne
      exact absurd ((h.mem_iff t (f t)).mpr ⟨rfl, Nat.pos_of_ne_zero hne⟩) List.not_mem_nil
    rw [hzero, Nat.zero_add]
    exact h.cons List.not_mem_nil hk
  | cons e c ih =>
    obtain ⟨s, n⟩ := e
    obtain ⟨rfl, hpos, hnot, htail⟩ := h.tail
    rw [OrderedCounters.add]
    split
    · next heq =>
      subst heq
      have hcons := htail.cons hnot (Nat.add_pos_right (f s) hk)
      rwa [Function.update_idem] at hcons
    · next hne =>
      have hmem : s ∉ (OrderedCounters.add t k c).map Prod.fst := fun hmem =>
        (mem_add_fst.mp hmem).elim hne hnot
      have hcons := (ih htail).cons hmem hpos
      rw [Function.update_of_ne (Ne.symm hne)] at hcons
      refine hcons.congr fun u => ?_
      by_cases hu : u = s
      · rw [hu, Function.update_self, Function.update_of_ne hne]
      · rw [Function.update_of_ne hu]
        by_cases hut : u = t
        · rw [hut, Function.update_self, Function.update_self]
        · rw [Function.update_of_ne hut, Function.update_of_ne hu, Function.update_of_ne hut]

theorem Counts.update (h : Counts c f) (keys : List κ) :
    Counts (update c keys) fun t => f t + keys.count t := by
  induction keys generalizing c f with
  | nil => exact h
  | cons s keys ih =>
    rw [OrderedCounters.update, List.foldl_cons]
    refine (ih (h.add (t := s) Nat.one_pos)).congr fun t => ?_
    by_cases ht : t = s
    · rw [ht, Function.update_self, List.count_cons_self, add_assoc, Nat.add_comm 1]
    · rw [Function.update_of_ne ht, List.count_cons_of_ne (Ne.symm ht)]

theorem Counts.merge (h : Counts c f) (hd : Counts d g) : Counts (merge c d) fun t => f t + g t := by
  induction d generalizing c f g with
  | nil =>
    refine h.congr fun t => ?_
    have hzero : g t = 0 := by
      by_contra hne
      exact absurd ((hd.mem_iff t (g t)).mpr ⟨rfl, Nat.pos_of_ne_zero hne⟩) List.not_mem_nil
    rw [hzero, Nat.add_zero]
  | cons e d ih =>
    obtain ⟨s, n⟩ := e
    obtain ⟨hn, hpos, -, htail⟩ := hd.tail
    rw [OrderedCounters.merge, List.foldl_cons]
    refine (ih (h.add hpos) htail).congr fun t => ?_
    by_cases ht : t = s
    · rw [ht, Function.update_self, Function.update_self, hn, Nat.add_zero]
    · rw [Function.update_of_ne ht, Function.update_of_ne ht]

end Counts

end AflPlusPlus.OrderedCounters
