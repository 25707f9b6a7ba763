import Mathlib

/-!
# Removing duplicates in place

Two nested loops go over all pairs of a sorted list and drop one element of each pair with equal
keys: the heavier one, and the later one of two with the same weight. One element of each key
is left, the first of those with the least weight.
-/

namespace AflPlusPlus.Deduplication

variable {ι κ W : Type*} [LinearOrder ι] [LinearOrder W] (key : ι → κ) (weight : ι → W)

/-- `p` comes before `q` in the order of weights, then of positions. -/
def Precedes (p q : ι) : Prop := weight p < weight q ∨ (weight p = weight q ∧ p < q)

variable {key weight} {p q r : ι} {alive : ι → Bool} {qs : List ι}

theorem precedes_iff : Precedes weight p q ↔ toLex (weight p, p) < toLex (weight q, q) := by
  rw [Precedes, Prod.Lex.toLex_lt_toLex]

/-- `alive'` is what is left of `alive` after dropping elements of `l` in favour of others. -/
structure Dropped (key : ι → κ) (weight : ι → W) (l : List ι) (alive alive' : ι → Bool) : Prop where
  of_alive : ∀ r, alive' r = true → alive r = true
  beaten : ∀ r, alive r = true → alive' r = false →
    r ∈ l ∧ ∃ p ∈ l, alive p = true ∧ key p = key r ∧ Precedes weight p r

theorem Dropped.refl (l : List ι) (alive : ι → Bool) : Dropped key weight l alive alive :=
  ⟨fun _ h => h, fun r h h' => absurd (h.symm.trans h') (by decide)⟩

theorem Dropped.trans {l : List ι} {alive' alive'' : ι → Bool}
    (h : Dropped key weight l alive alive') (h' : Dropped key weight l alive' alive'') :
    Dropped key weight l alive alive'' := by
  refine ⟨fun r hr => h.of_alive r (h'.of_alive r hr), fun r hr hdead => ?_⟩
  cases hmid : alive' r with
  | false => exact h.beaten r hr hmid
  | true =>
    obtain ⟨hmem, p, hp, hpalive, hkey, hbefore⟩ := h'.beaten r hmid hdead
    exact ⟨hmem, p, hp, h.of_alive p hpalive, hkey, hbefore⟩

theorem Dropped.mono {l l' : List ι} {alive' : ι → Bool} (h : Dropped key weight l alive alive')
    (hl : l ⊆ l') : Dropped key weight l' alive alive' := by
  refine ⟨h.of_alive, fun r hr hdead => ?_⟩
  obtain ⟨hmem, p, hp, hrest⟩ := h.beaten r hr hdead
  exact ⟨hl hmem, p, hl hp, hrest⟩

/-- Drop `r` in favour of `p`. -/
theorem dropped_update {l : List ι} (hr : r ∈ l) (hp : p ∈ l) (halive : alive p = true)
    (hkey : key p = key r) (hbefore : Precedes weight p r) :
    Dropped key weight l alive (Function.update alive r false) := by
  refine ⟨fun x hx => ?_, fun x hx hdead => ?_⟩
  · by_cases hxr : x = r
    · rw [hxr, Function.update_self] at hx
      exact absurd hx (by decide)
    · rwa [Function.update_of_ne hxr] at hx
  · by_cases hxr : x = r
    · rw [hxr]
      exact ⟨hr, p, hp, halive, hkey, hbefore⟩
    · rw [Function.update_of_ne hxr] at hdead
      exact absurd (hx.symm.trans hdead) (by decide)

/-- Of the elements with one key one is first. -/
theorem exists_first (hr : r ∈ qs) (halive : alive r = true) :
    ∃ m ∈ qs, alive m = true ∧ key m = key r ∧ ∀ p ∈ qs,
      alive p = true → key p = key r → ¬Precedes weight p m := by
  classical
  let same := qs.toFinset.filter fun x => alive x = true ∧ key x = key r
  have hmem : ∀ x, x ∈ same ↔ x ∈ qs ∧ alive x = true ∧ key x = key r := fun x => by
    rw [Finset.mem_filter, List.mem_toFinset]
  obtain ⟨m, hm, hleast⟩ := same.exists_min_image (fun x => toLex (weight x, x))
    ⟨r, (hmem r).mpr ⟨hr, halive, rfl⟩⟩
  obtain ⟨hmqs, hmalive, hmkey⟩ := (hmem m).mp hm
  refine ⟨m, hmqs, hmalive, hmkey, fun p hp hpalive hkey => ?_⟩
  rw [precedes_iff]
  exact not_lt.mpr (hleast p ((hmem p).mpr ⟨hp, hpalive, hkey⟩))

theorem Dropped.first_lives {alive' : ι → Bool} (h : Dropped key weight qs alive alive')
    (halive : alive r = true)
    (hfirst : ∀ p ∈ qs, alive p = true → key p = key r → ¬Precedes weight p r) :
    alive' r = true := by
  by_contra hdead
  obtain ⟨-, p, hp, hpalive, hkey, hbefore⟩ := h.beaten r halive (by simpa using hdead)
  exact hfirst p hp hpalive hkey hbefore

/-! ## The loops -/

variable [DecidableEq κ] (key weight)

/-- Compare `q` with the elements after it, until it is dropped itself. -/
def dropAfter (q : ι) : List ι → (ι → Bool) → ι → Bool
  | [], alive => alive
  | p :: ps, alive =>
    if alive p = true ∧ key p = key q then
      if weight q ≤ weight p then dropAfter q ps (Function.update alive p false)
      else Function.update alive q false
    else dropAfter q ps alive

def dropAll : List ι → (ι → Bool) → ι → Bool
  | [], alive => alive
  | q :: qs, alive => dropAll qs (if alive q = true then dropAfter key weight q qs alive else alive)

variable {key weight}

/-- After the inner loop `q` is gone, or all later elements with its key are. -/
theorem dropAfter_spec (hq : alive q = true) (hqs : ∀ p ∈ qs, q < p) :
    Dropped key weight (q :: qs) alive (dropAfter key weight q qs alive) ∧
      (dropAfter key weight q qs alive q = true → ∀ p ∈ qs,
        dropAfter key weight q qs alive p = true → key p ≠ key q) := by
  induction qs generalizing alive with
  | nil => exact ⟨.refl _ _, fun _ p hp => absurd hp List.not_mem_nil⟩
  | cons p ps ih =>
    obtain ⟨hqp, hps⟩ := List.forall_mem_cons.mp hqs
    have hsub : q :: ps ⊆ q :: p :: ps := by
      intro x hx
      rcases List.mem_cons.mp hx with rfl | hx
      · exact List.mem_cons_self
      · exact List.mem_cons_of_mem _ (List.mem_cons_of_mem _ hx)
    have hpmem : p ∈ q :: p :: ps := List.mem_cons_of_mem _ List.mem_cons_self
    rw [dropAfter]
    split
    · rename_i hsame
      obtain ⟨hpalive, hkey⟩ := hsame
      split
      · rename_i hle
        have hbefore : Precedes weight q p := by
          rcases hle.lt_or_eq with hlt | heq
          · exact .inl hlt
          · exact .inr ⟨heq, hqp⟩
        have hq' : Function.update alive p false q = true := by
          rw [Function.update_of_ne hqp.ne, hq]
        obtain ⟨hdropped, hrest⟩ := ih hq' hps
        refine ⟨(dropped_update hpmem List.mem_cons_self hq hkey.symm hbefore).trans
          (hdropped.mono hsub), fun halive => ?_⟩
        refine List.forall_mem_cons.mpr ⟨fun hlives => ?_, hrest halive⟩
        have := hdropped.of_alive p hlives
        rw [Function.update_self] at this
        exact absurd this (by decide)
      · rename_i hlt
        refine ⟨dropped_update List.mem_cons_self hpmem hpalive hkey (.inl (not_le.mp hlt)),
          fun halive => ?_⟩
        rw [Function.update_self] at halive
        exact absurd halive (by decide)
    · rename_i hother
      obtain ⟨hdropped, hrest⟩ := ih hq hps
      refine ⟨hdropped.mono hsub, fun halive => List.forall_mem_cons.mpr ⟨fun hlives hkey => ?_,
        hrest halive⟩⟩
      exact hother ⟨hdropped.of_alive p hlives, hkey⟩

/-- The loops drop elements in favour of others until no two with equal keys are left. -/
theorem dropAll_spec (hsorted : qs.Pairwise (· < ·)) :
    Dropped key weight qs alive (dropAll key weight qs alive) ∧
      ∀ p ∈ qs, ∀ r ∈ qs, dropAll key weight qs alive p = true →
        dropAll key weight qs alive r = true → key p = key r → p = r := by
  induction qs generalizing alive with
  | nil => exact ⟨.refl _ _, fun p hp => absurd hp List.not_mem_nil⟩
  | cons q qs ih =>
    obtain ⟨hlt, hsorted⟩ := List.pairwise_cons.mp hsorted
    rw [dropAll]
    set inner := if alive q = true then dropAfter key weight q qs alive else alive
    obtain ⟨houter, hunique⟩ : Dropped key weight qs inner (dropAll key weight qs inner) ∧ _ :=
      ih hsorted
    have hinner : Dropped key weight (q :: qs) alive inner ∧
        (inner q = true → ∀ p ∈ qs, inner p = true → key p ≠ key q) := by
      unfold inner
      split
      · exact dropAfter_spec ‹_› hlt
      · exact ⟨.refl _ _, fun hq => absurd hq ‹_›⟩
    refine ⟨hinner.1.trans (houter.mono (List.subset_cons_self q qs)), ?_⟩
    have hnone : ∀ p ∈ qs, dropAll key weight qs inner q = true →
        dropAll key weight qs inner p = true → key p ≠ key q := fun p hp hq hlives =>
      hinner.2 (houter.of_alive q hq) p hp (houter.of_alive p hlives)
    intro p hp r hr hplives hrlives hkey
    rcases List.mem_cons.mp hp with rfl | hp
    · rcases List.mem_cons.mp hr with rfl | hr
      · rfl
      · exact absurd hkey.symm (hnone r hr hplives hrlives)
    · rcases List.mem_cons.mp hr with hrq | hr
      · exact absurd (hrq ▸ hkey) (hnone p hp (hrq ▸ hrlives) hplives)
      · exact hunique p hp r hr hplives hrlives hkey

/-- What is left is the first of each key. -/
theorem dropAll_eq_true_iff (hsorted : qs.Pairwise (· < ·)) (hr : r ∈ qs) :
    dropAll key weight qs alive r = true ↔ alive r = true ∧
      ∀ p ∈ qs, alive p = true → key p = key r → ¬Precedes weight p r := by
  obtain ⟨hdropped, hunique⟩ : Dropped key weight qs alive (dropAll key weight qs alive) ∧ _ :=
    dropAll_spec hsorted
  refine ⟨fun hlives => ⟨hdropped.of_alive r hlives, ?_⟩,
    fun h => hdropped.first_lives h.1 h.2⟩
  -- the first element with the key of `r` is left, so it is `r`
  obtain ⟨m, hm, hmalive, hmkey, hfirst⟩ : ∃ m ∈ qs, alive m = true ∧ key m = key r ∧ ∀ p ∈ qs,
      alive p = true → key p = key r → ¬Precedes weight p m :=
    exists_first hr (hdropped.of_alive r hlives)
  have hmlives := hdropped.first_lives hmalive fun x hx hxalive hxkey =>
    hfirst x hx hxalive (hxkey.trans hmkey)
  obtain rfl := hunique m hm r hr hmlives hlives hmkey
  exact hfirst

/-- Of the elements with one key exactly one is left. -/
theorem dropAll_existsUnique (hsorted : qs.Pairwise (· < ·)) (hr : r ∈ qs)
    (halive : alive r = true) :
    ∃! p, p ∈ qs ∧ key p = key r ∧ dropAll key weight qs alive p = true := by
  obtain ⟨hdropped, hunique⟩ : Dropped key weight qs alive (dropAll key weight qs alive) ∧ _ :=
    dropAll_spec hsorted
  obtain ⟨m, hm, hmalive, hmkey, hfirst⟩ : ∃ m ∈ qs, alive m = true ∧ key m = key r ∧ ∀ p ∈ qs,
      alive p = true → key p = key r → ¬Precedes weight p m := exists_first hr halive
  have hmlives := hdropped.first_lives hmalive fun x hx hxalive hxkey =>
    hfirst x hx hxalive (hxkey.trans hmkey)
  exact ⟨m, ⟨hm, hmkey, hmlives⟩, fun p hp =>
    hunique p hp.1 m hm hp.2.2 hmlives (hp.2.1.trans hmkey.symm)⟩

/-- What is left is lightest among the elements with its key. -/
theorem dropAll_lightest (hsorted : qs.Pairwise (· < ·)) (hr : r ∈ qs)
    (hlives : dropAll key weight qs alive r = true) :
    ∀ p ∈ qs, alive p = true → key p = key r → weight r ≤ weight p :=
  fun p hp hpalive hkey => not_lt.mp fun hlt =>
    ((dropAll_eq_true_iff hsorted hr).mp hlives).2 p hp hpalive hkey (.inl hlt)

end AflPlusPlus.Deduplication
