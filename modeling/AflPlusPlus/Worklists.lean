import Mathlib.Data.List.Nodup
import Mathlib.Data.List.Perm.Subperm
import Mathlib.Tactic.Common

/-!
# Worklists

Items have names. Sweeping over the items enters those that are hit and whose name is new; each
entered item is taken from a stack and causes a sweep of its own. In the end the names entered are
those that can be reached.
-/

namespace AflPlusPlus.Worklists

variable {ι ν : Type*} [DecidableEq ν]

structure State (ι ν : Type*) where
  printed : List ν
  stack : List ι

/-- Enter an item that is hit, unless its name was entered before. -/
def enter (name : ι → ν) (hit : ι → Bool) (s : State ι ν) (i : ι) : State ι ν :=
  if name i ∉ s.printed ∧ hit i = true then ⟨s.printed ++ [name i], i :: s.stack⟩ else s

def sweep (name : ι → ν) (hit : ι → Bool) (items : List ι) (s : State ι ν) : State ι ν :=
  items.foldl (enter name hit) s

/-- Sweep for each item of the stack, until there is none, for fewer times than `fuel`. -/
def loop (name : ι → ν) (hit : ν → ι → Bool) (items : List ι) : ℕ → State ι ν → Option (List ν)
  | 0, _ => none
  | fuel + 1, ⟨printed, stack⟩ =>
    match stack with
    | [] => some printed
    | i :: stack => loop name hit items fuel (sweep name (hit (name i)) items ⟨printed, stack⟩)

/-- The least set of names that contains the seeds and is closed under hits. -/
inductive Reaches (name : ι → ν) (seed : ι → Prop) (hit : ν → ι → Prop) (items : List ι) : ν → Prop
  | seed {i : ι} (hi : i ∈ items) (h : seed i) : Reaches name seed hit items (name i)
  | step {n : ν} {i : ι} (hn : Reaches name seed hit items n) (hi : i ∈ items) (h : hit n i) :
    Reaches name seed hit items (name i)

section Reaches
variable {name : ι → ν} {seed : ι → Prop} {hit : ν → ι → Prop} {items : List ι} {n : ν}

omit [DecidableEq ν] in
/-- Nothing else is reached when a set has the seeds and is closed. -/
theorem Reaches.least {P : ν → Prop} (h : Reaches name seed hit items n)
    (hseed : ∀ i ∈ items, seed i → P (name i))
    (hstep : ∀ n i, P n → i ∈ items → hit n i → P (name i)) : P n := by
  induction h with
  | seed hi h => exact hseed _ hi h
  | step _ hi h ih => exact hstep _ _ ih hi h

omit [DecidableEq ν] in
theorem Reaches.mono {seed' : ι → Prop} {hit' : ν → ι → Prop}
    (h : Reaches name seed hit items n) (hseed : ∀ i ∈ items, seed i → seed' i)
    (hhit : ∀ n i, i ∈ items → hit n i → hit' n i) : Reaches name seed' hit' items n :=
  h.least (fun i hi hs => Reaches.seed hi (hseed i hi hs))
    fun n i hn hi hh => Reaches.step hn hi (hhit n i hi hh)

omit [DecidableEq ν] in
theorem Reaches.exists_item (h : Reaches name seed hit items n) : ∃ i ∈ items, name i = n := by
  cases h with
  | seed hi _ => exact ⟨_, hi, rfl⟩
  | step _ hi _ => exact ⟨_, hi, rfl⟩

end Reaches

/-! ## One sweep -/

theorem sweep_cons (name : ι → ν) (hit : ι → Bool) (i : ι) (items : List ι) (s : State ι ν) :
    sweep name hit (i :: items) s = sweep name hit items (enter name hit s i) := rfl

/-- The items that a sweep entered. -/
structure Swept (name : ι → ν) (hit : ι → Bool) (items : List ι) (s t : State ι ν)
    (new : List ι) : Prop where
  printed_eq : t.printed = s.printed ++ new.map name
  stack_eq : t.stack = new.reverse ++ s.stack
  sound : ∀ i ∈ new, i ∈ items ∧ hit i = true
  nodup : s.printed.Nodup → t.printed.Nodup
  complete : ∀ i ∈ items, hit i = true → name i ∈ t.printed

theorem sweep_swept (name : ι → ν) (hit : ι → Bool) (items : List ι) (s : State ι ν) :
    ∃ new, Swept name hit items s (sweep name hit items s) new := by
  induction items generalizing s with
  | nil =>
    refine ⟨[], (List.append_nil _).symm, rfl, ?_, id, ?_⟩
    · exact fun i hi => absurd hi List.not_mem_nil
    · exact fun i hi => absurd hi List.not_mem_nil
  | cons i items ih =>
    obtain ⟨new, h⟩ := ih (enter name hit s i)
    rw [sweep_cons]
    by_cases hnew : name i ∉ s.printed ∧ hit i = true
    · have henter : enter name hit s i = ⟨s.printed ++ [name i], i :: s.stack⟩ := if_pos hnew
      rw [henter] at h ⊢
      refine ⟨i :: new, ?_, ?_, ?_, ?_, ?_⟩
      · rw [h.printed_eq, List.map_cons, List.append_assoc, List.singleton_append]
      · rw [List.reverse_cons, List.append_assoc]
        exact h.stack_eq
      · rw [List.forall_mem_cons]
        refine ⟨⟨List.mem_cons_self, hnew.2⟩, fun j hj => ?_⟩
        exact ⟨List.mem_cons_of_mem _ (h.sound j hj).1, (h.sound j hj).2⟩
      · intro hs
        exact h.nodup (hs.append (List.nodup_singleton _) (List.disjoint_singleton.mpr hnew.1))
      · rw [List.forall_mem_cons]
        refine ⟨fun _ => ?_, h.complete⟩
        rw [h.printed_eq]
        exact List.mem_append_left _ (List.mem_append_right _ List.mem_cons_self)
    · have henter : enter name hit s i = s := if_neg hnew
      rw [henter] at h ⊢
      refine ⟨new, h.printed_eq, h.stack_eq, fun j hj => ?_, h.nodup, ?_⟩
      · exact ⟨List.mem_cons_of_mem _ (h.sound j hj).1, (h.sound j hj).2⟩
      · rw [List.forall_mem_cons]
        refine ⟨fun hhit => ?_, h.complete⟩
        have hold : name i ∈ s.printed := by
          by_contra hfree
          exact hnew ⟨hfree, hhit⟩
        rw [h.printed_eq]
        exact List.mem_append_left _ hold

/-! ## The loop -/

/-- The names entered are reached; those whose items are not on the stack any more have been
followed. -/
structure Inv (name : ι → ν) (seed : ι → Bool) (hit : ν → ι → Bool) (items : List ι)
    (s : State ι ν) : Prop where
  nodup : s.printed.Nodup
  sound : ∀ n ∈ s.printed, Reaches name (seed · = true) (hit · · = true) items n
  stacked : ∀ i ∈ s.stack, name i ∈ s.printed
  seeds : ∀ i ∈ items, seed i = true → name i ∈ s.printed
  followed : ∀ n ∈ s.printed, (∃ i ∈ s.stack, name i = n) ∨
    ∀ i ∈ items, hit n i = true → name i ∈ s.printed

section Loop
variable {name : ι → ν} {seed : ι → Bool} {hit : ν → ι → Bool} {items : List ι} {s : State ι ν}

/-- How often a sweep may still be made. -/
def measure (items : List ι) (s : State ι ν) : ℕ :=
  s.stack.length + (items.length - s.printed.length)

omit [DecidableEq ν] in
theorem Inv.length_le (h : Inv name seed hit items s) : s.printed.length ≤ items.length := by
  have hsub : s.printed ⊆ items.map name := by
    intro n hn
    obtain ⟨i, hi, hname⟩ := (h.sound n hn).exists_item
    exact hname ▸ List.mem_map_of_mem hi
  have hle := (h.nodup.subperm hsub).length_le
  rwa [List.length_map] at hle

omit [DecidableEq ν] in
/-- A sweep enters as many names as items. -/
theorem Swept.measure_eq {t : State ι ν} {p : ι → Bool} {new : List ι}
    (h : Swept name p items s t new) (hle : t.printed.length ≤ items.length) :
    measure items t = measure items s := by
  have hprinted := congrArg List.length h.printed_eq
  have hstack := congrArg List.length h.stack_eq
  rw [List.length_append, List.length_map] at hprinted
  rw [List.length_append, List.length_reverse] at hstack
  rw [measure, measure]
  omega

theorem inv_seeds (name : ι → ν) (seed : ι → Bool) (hit : ν → ι → Bool) (items : List ι) :
    Inv name seed hit items (sweep name seed items ⟨[], []⟩) := by
  obtain ⟨new, h⟩ := sweep_swept name seed items ⟨[], []⟩
  generalize sweep name seed items ⟨[], []⟩ = t at h
  have hprinted : t.printed = new.map name := h.printed_eq
  have hstack : t.stack = new.reverse := h.stack_eq.trans (List.append_nil _)
  refine ⟨h.nodup List.nodup_nil, fun n hn => ?_, fun i hi => ?_, h.complete, fun n hn => ?_⟩
  · rw [hprinted] at hn
    obtain ⟨i, hi, rfl⟩ := List.mem_map.mp hn
    exact Reaches.seed (h.sound i hi).1 (h.sound i hi).2
  · rw [hstack, List.mem_reverse] at hi
    rw [hprinted]
    exact List.mem_map_of_mem hi
  · rw [hprinted] at hn
    obtain ⟨i, hi, hname⟩ := List.mem_map.mp hn
    rw [hstack]
    exact Or.inl ⟨i, List.mem_reverse.mpr hi, hname⟩

/-- Following one item keeps the invariant. -/
theorem Inv.follow {printed : List ν} {i : ι} {stack : List ι}
    (h : Inv name seed hit items ⟨printed, i :: stack⟩) :
    Inv name seed hit items (sweep name (hit (name i)) items ⟨printed, stack⟩) := by
  obtain ⟨new, hs⟩ := sweep_swept name (hit (name i)) items ⟨printed, stack⟩
  generalize sweep name (hit (name i)) items ⟨printed, stack⟩ = t at hs
  have hprinted : t.printed = printed ++ new.map name := hs.printed_eq
  have hstack : t.stack = new.reverse ++ stack := hs.stack_eq
  have hgrows : ∀ n ∈ printed, n ∈ t.printed := by
    intro n hn
    rw [hprinted]
    exact List.mem_append_left _ hn
  have hreached : Reaches name (seed · = true) (hit · · = true) items (name i) :=
    h.sound _ (h.stacked i List.mem_cons_self)
  refine ⟨hs.nodup h.nodup, fun n hn => ?_, fun j hj => ?_, fun j hj hseed => ?_, fun n hn => ?_⟩
  · rw [hprinted, List.mem_append] at hn
    rcases hn with hn | hn
    · exact h.sound n hn
    · obtain ⟨j, hj, rfl⟩ := List.mem_map.mp hn
      exact Reaches.step hreached (hs.sound j hj).1 (hs.sound j hj).2
  · rw [hstack, List.mem_append, List.mem_reverse] at hj
    rcases hj with hj | hj
    · rw [hprinted]
      exact List.mem_append_right _ (List.mem_map_of_mem hj)
    · exact hgrows _ (h.stacked j (List.mem_cons_of_mem _ hj))
  · exact hgrows _ (h.seeds j hj hseed)
  · rw [hstack]
    rw [hprinted, List.mem_append] at hn
    rcases hn with hn | hn
    · rcases h.followed n hn with ⟨j, hj, hname⟩ | hfollowed
      · rcases List.mem_cons.mp hj with rfl | hj
        · -- the names that it hits were entered now
          rw [← hname]
          exact Or.inr hs.complete
        · exact Or.inl ⟨j, List.mem_append_right _ hj, hname⟩
      · exact Or.inr fun j hj hhit => hgrows _ (hfollowed j hj hhit)
    · obtain ⟨j, hj, hname⟩ := List.mem_map.mp hn
      exact Or.inl ⟨j, List.mem_append_left _ (List.mem_reverse.mpr hj), hname⟩

theorem Inv.measure_follow {printed : List ν} {i : ι} {stack : List ι}
    (h : Inv name seed hit items ⟨printed, i :: stack⟩) :
    measure items (sweep name (hit (name i)) items ⟨printed, stack⟩) <
      measure items ⟨printed, i :: stack⟩ := by
  obtain ⟨new, hs⟩ := sweep_swept name (hit (name i)) items ⟨printed, stack⟩
  rw [hs.measure_eq h.follow.length_le]
  simp only [measure, List.length_cons]
  omega

omit [DecidableEq ν] in
/-- When nothing is left to follow, the names entered are those that are reached. -/
theorem Inv.mem_iff {printed : List ν} (h : Inv name seed hit items ⟨printed, []⟩) {n : ν} :
    n ∈ printed ↔ Reaches name (seed · = true) (hit · · = true) items n := by
  constructor
  · exact h.sound n
  · intro hn
    refine hn.least h.seeds fun m i hm hi hhit => ?_
    rcases h.followed m hm with ⟨j, hj, -⟩ | hfollowed
    · exact absurd hj List.not_mem_nil
    · exact hfollowed i hi hhit

theorem Inv.loop_eq {fuel : ℕ} (h : Inv name seed hit items s) (hfuel : measure items s < fuel) :
    ∃ printed, loop name hit items fuel s = some printed ∧ printed.Nodup ∧
      ∀ n, n ∈ printed ↔ Reaches name (seed · = true) (hit · · = true) items n := by
  induction fuel generalizing s with
  | zero => exact absurd hfuel (Nat.not_lt_zero _)
  | succ fuel ih =>
    obtain ⟨printed, stack⟩ := s
    cases stack with
    | nil => exact ⟨printed, rfl, h.nodup, fun n => h.mem_iff⟩
    | cons i stack =>
      have hless := h.measure_follow
      exact ih h.follow (by omega)

theorem loop_mono {fuel k : ℕ} {printed : List ν} (hle : fuel ≤ k)
    (h : loop name hit items fuel s = some printed) : loop name hit items k s = some printed := by
  induction fuel generalizing s k with
  | zero => exact absurd h.symm (Option.some_ne_none printed)
  | succ fuel ih =>
    obtain ⟨k, rfl⟩ := Nat.exists_eq_add_of_le hle
    rw [Nat.add_right_comm]
    obtain ⟨old, stack⟩ := s
    cases stack with
    | nil => exact h
    | cons i stack =>
      have hrest : loop name hit items fuel (sweep name (hit (name i)) items ⟨old, stack⟩) =
        some printed := h
      exact (ih (Nat.le_add_right fuel k) hrest :)

/-- The loop ends with each name that is reached, once. -/
theorem loop_spec (name : ι → ν) (seed : ι → Bool) (hit : ν → ι → Bool)
    (items : List ι) : ∃ printed, (∀ fuel, items.length < fuel →
        loop name hit items fuel (sweep name seed items ⟨[], []⟩) = some printed) ∧
      printed.Nodup ∧
        ∀ n, n ∈ printed ↔ Reaches name (seed · = true) (hit · · = true) items n := by
  have hinv := inv_seeds name seed hit items
  obtain ⟨new, hs⟩ := sweep_swept name seed items ⟨[], []⟩
  have hmeasure := hs.measure_eq hinv.length_le
  have hfuel : measure items (sweep name seed items ⟨[], []⟩) < items.length + 1 := by
    rw [hmeasure, measure, List.length_nil, List.length_nil]
    omega
  obtain ⟨printed, hloop, hspec⟩ := hinv.loop_eq hfuel
  exact ⟨printed, fun fuel hle => loop_mono hle hloop, hspec⟩

end Loop

end AflPlusPlus.Worklists
