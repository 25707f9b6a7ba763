import AflPlusPlus.PreallocLists

/-!
# Lists with a pool as lists of items

Whatever is appended, removed and visited, the elements form a ring with the items in the order in
which they came, and exactly the elements of the ring and the head are in use.
-/

namespace AflPlusPlus.PreallocLists
open HeapCells Rings

variable {α : Type}

/-! ## Views of the memory -/

def nextOf (l : PreList α) (p : ℕ) : Option ℕ := (l.cell p).bind Element.next

def prevOf (l : PreList α) (p : ℕ) : Option ℕ := (l.cell p).bind Element.prev

def dataOf (l : PreList α) (p : ℕ) : Option α := (l.cell p).map Element.data

def statusOf (l : PreList α) (p : ℕ) : Option PreStatus := (l.cell p).map Element.preStatus

section Views
variable {l : PreList α} {p : ℕ} {q : Option ℕ} {el : Element α} {f : Element α → Element α}

theorem ok_bind {β γ : Type} (a : β) (g : β → Except Failure γ) : (Except.ok a >>= g) = g a := rfl

theorem exists_cell (h : statusOf l p ≠ none) : ∃ el, l.cell p = some el :=
  Option.ne_none_iff_exists'.mp fun hnone => h (by rw [statusOf, hnone, Option.map_none])

theorem get_eq (h : l.cell p = some el) : get l p = .ok el := by
  rw [get, h]

/-- The memory after a change of one element. -/
def written (l : PreList α) (p : ℕ) (el : Element α) : PreList α :=
  { l with cell := Function.update l.cell p (some el) }

theorem modify_eq (h : l.cell p = some el) : modify l p f = .ok (written l p (f el)) := by
  rw [modify, get_eq h]
  rfl

theorem nextOf_written : nextOf (written l p el) = Function.update (nextOf l) p el.next := by
  funext q
  change Option.bind (Function.update l.cell p (some el) q) Element.next = _
  by_cases hq : q = p
  · rw [hq, Function.update_self, Function.update_self, Option.bind_some]
  · rw [Function.update_of_ne hq, Function.update_of_ne hq, nextOf]

theorem prevOf_written : prevOf (written l p el) = Function.update (prevOf l) p el.prev := by
  funext q
  change Option.bind (Function.update l.cell p (some el) q) Element.prev = _
  by_cases hq : q = p
  · rw [hq, Function.update_self, Function.update_self, Option.bind_some]
  · rw [Function.update_of_ne hq, Function.update_of_ne hq, prevOf]

theorem dataOf_written :
    dataOf (written l p el) = Function.update (dataOf l) p (some el.data) := by
  funext q
  change Option.map Element.data (Function.update l.cell p (some el) q) = _
  by_cases hq : q = p
  · rw [hq, Function.update_self, Function.update_self, Option.map_some]
  · rw [Function.update_of_ne hq, Function.update_of_ne hq, dataOf]

theorem statusOf_written :
    statusOf (written l p el) = Function.update (statusOf l) p (some el.preStatus) := by
  funext q
  change Option.map Element.preStatus (Function.update l.cell p (some el) q) = _
  by_cases hq : q = p
  · rw [hq, Function.update_self, Function.update_self, Option.map_some]
  · rw [Function.update_of_ne hq, Function.update_of_ne hq, statusOf]

/-- The views of an element that is there. -/
theorem views_of_cell (h : l.cell p = some el) : nextOf l p = el.next ∧ prevOf l p = el.prev ∧
    dataOf l p = some el.data ∧ statusOf l p = some el.preStatus := by
  rw [nextOf, prevOf, dataOf, statusOf, h]
  exact ⟨rfl, rfl, rfl, rfl⟩

theorem get_spec (h : statusOf l p ≠ none) : ∃ el, get l p = .ok el ∧ l.cell p = some el ∧
    el.next = nextOf l p ∧ el.prev = prevOf l p ∧ some el.data = dataOf l p ∧
      some el.preStatus = statusOf l p := by
  obtain ⟨el, hel⟩ := exists_cell h
  obtain ⟨hnext, hprev, hdata, hstatus⟩ := views_of_cell hel
  exact ⟨el, get_eq hel, hel, hnext.symm, hprev.symm, hdata.symm, hstatus.symm⟩

/-- Everything but the pointers forward is as before. -/
theorem setNext_spec (h : statusOf l p ≠ none) : ∃ t, setNext l p q = .ok t ∧
    nextOf t = Function.update (nextOf l) p q ∧ prevOf t = prevOf l ∧ dataOf t = dataOf l ∧
      statusOf t = statusOf l ∧ t.elementPreallocCount = l.elementPreallocCount := by
  obtain ⟨el, hel⟩ := exists_cell h
  obtain ⟨-, hprev, hdata, hstatus⟩ := views_of_cell hel
  refine ⟨_, modify_eq hel, nextOf_written, ?_, ?_, ?_, rfl⟩
  · rw [prevOf_written, ← hprev, Function.update_eq_self]
  · rw [dataOf_written, ← hdata, Function.update_eq_self]
  · rw [statusOf_written, ← hstatus, Function.update_eq_self]

/-- Everything but the pointers back is as before. -/
theorem setPrev_spec (h : statusOf l p ≠ none) : ∃ t, setPrev l p q = .ok t ∧
    nextOf t = nextOf l ∧ prevOf t = Function.update (prevOf l) p q ∧ dataOf t = dataOf l ∧
      statusOf t = statusOf l ∧ t.elementPreallocCount = l.elementPreallocCount := by
  obtain ⟨el, hel⟩ := exists_cell h
  obtain ⟨hnext, -, hdata, hstatus⟩ := views_of_cell hel
  refine ⟨_, modify_eq hel, ?_, prevOf_written, ?_, ?_, rfl⟩
  · rw [nextOf_written, ← hnext, Function.update_eq_self]
  · rw [dataOf_written, ← hdata, Function.update_eq_self]
  · rw [statusOf_written, ← hstatus, Function.update_eq_self]

end Views

/-! ## The representation -/

/-- The ring has the items; `used` are the elements in use besides the head. -/
structure Holds (l : PreList α) (boxes used : List ℕ) (items : List α) : Prop where
  ring : Ring (nextOf l) (prevOf l) getHead boxes
  data : boxes.map (dataOf l) = items.map some
  pool : ∀ p < preallocSize,
    statusOf l p = some (if p ∈ getHead :: used then .used else .unused)
  heap : ∀ p, preallocSize ≤ p → statusOf l p = if p ∈ used then some .malloc else none
  count : l.elementPreallocCount = (getHead :: used).countP (· < preallocSize)

abbrev Rep (l : PreList α) (boxes : List ℕ) (items : List α) : Prop := Holds l boxes boxes items

section Holds
variable {l t : PreList α} {boxes used pre post : List ℕ} {items xs ys : List α} {p e : ℕ}

theorem Holds.status_ne_none (h : Holds l boxes used items) (hp : p ∈ getHead :: used) :
    statusOf l p ≠ none := by
  by_cases hpool : p < preallocSize
  · rw [h.pool p hpool]
    exact Option.some_ne_none _
  · have hused : p ∈ used := by
      rcases List.mem_cons.mp hp with rfl | hused
      · exact absurd (by decide) hpool
      · exact hused
    rw [h.heap p (Nat.not_lt.mp hpool), if_pos hused]
    exact Option.some_ne_none _

theorem Holds.status_eq (h : Holds l boxes used items) (hp : p ∈ used) :
    statusOf l p = some (if p < preallocSize then .used else .malloc) := by
  by_cases hpool : p < preallocSize
  · rw [h.pool p hpool, if_pos (List.mem_cons_of_mem _ hp), if_pos hpool]
  · rw [h.heap p (Nat.not_lt.mp hpool), if_pos hp, if_neg hpool]

theorem Holds.bounded (h : Holds l boxes used items) : Bounded l.cell := by
  refine ⟨preallocSize + used.sum + 1, fun p hp => ?_⟩
  have hnot : p ∉ used := fun hmem => by
    have hle := List.le_sum_of_mem hmem
    omega
  have hstatus := h.heap p (by omega)
  rw [if_neg hnot, statusOf, Option.map_eq_none_iff] at hstatus
  exact hstatus

/-! ## The pool -/

/-- An element that was not in use is taken. -/
theorem Holds.take (h : Holds l boxes used items) (hboxes : boxes ⊆ used)
    (hp : p ∉ getHead :: used) (hnext : ∀ q ≠ p, nextOf t q = nextOf l q)
    (hprev : ∀ q ≠ p, prevOf t q = prevOf l q) (hdata : ∀ q ≠ p, dataOf t q = dataOf l q)
    (hstatus : statusOf t =
      Function.update (statusOf l) p (some (if p < preallocSize then .used else .malloc)))
    (hcount : t.elementPreallocCount =
      l.elementPreallocCount + if p < preallocSize then 1 else 0) :
    Holds t boxes (used ++ [p]) items where
  ring := h.ring.frame (fun b hb => hnext b fun heq => hp (heq ▸ List.cons_subset_cons _ hboxes hb))
    fun b hb => hprev b fun heq => hp (heq ▸ List.cons_subset_cons _ hboxes hb)
  data := by
    rw [← h.data]
    refine List.map_congr_left fun b hb => hdata b fun heq => hp ?_
    exact heq ▸ List.mem_cons_of_mem _ (hboxes hb)
  pool := by
    intro q hq
    rw [hstatus, ← List.cons_append]
    by_cases hqp : q = p
    · subst hqp
      rw [Function.update_self, if_pos hq,
        if_pos (List.mem_append_right _ (List.mem_singleton_self q))]
    · rw [Function.update_of_ne hqp, h.pool q hq]
      simp only [List.mem_append, List.mem_singleton, hqp, or_false]
  heap := by
    intro q hq
    rw [hstatus]
    by_cases hqp : q = p
    · subst hqp
      rw [Function.update_self, if_neg (Nat.not_lt.mpr hq),
        if_pos (List.mem_append_right _ (List.mem_singleton_self q))]
    · rw [Function.update_of_ne hqp, h.heap q hq]
      simp only [List.mem_append, List.mem_singleton, hqp, or_false]
  count := by
    rw [hcount, h.count, ← List.cons_append, List.countP_append, List.countP_singleton]
    by_cases hpool : p < preallocSize <;> simp [hpool]

/-- While the pool is not used up, one of its elements is unused. -/
theorem exists_unused (h : Holds l boxes used items)
    (hcount : l.elementPreallocCount < preallocSize) :
    ∃ p < preallocSize, p ∉ getHead :: used := by
  by_contra! hall
  have hsub : List.range preallocSize ⊆ (getHead :: used).filter (· < preallocSize) :=
    fun q hq => List.mem_filter.mpr
      ⟨hall q (List.mem_range.mp hq), decide_eq_true (List.mem_range.mp hq)⟩
  have hle := (List.subperm_of_subset List.nodup_range hsub).length_le
  rw [List.length_range, ← List.countP_eq_length_filter] at hle
  rw [h.count] at hcount
  omega

theorem isUnused_iff (h : Holds l boxes used items) (hp : p < preallocSize) :
    isUnused l p ↔ p ∉ getHead :: used := by
  obtain ⟨el, hel⟩ := exists_cell (l := l) (p := p) (by
    rw [h.pool p hp]
    exact Option.some_ne_none _)
  have hstatus := h.pool p hp
  rw [statusOf, hel, Option.map_some, Option.some_inj] at hstatus
  rw [isUnused, hel]
  dsimp only
  rw [hstatus]
  by_cases hmem : p ∈ getHead :: used
  · rw [if_pos hmem]
    exact ⟨fun hfalse => absurd hfalse (by decide), fun hnot => absurd hmem hnot⟩
  · rw [if_neg hmem]
    exact ⟨fun _ => hmem, fun _ => by decide⟩

/-- The element that is handed out was not in use. -/
theorem preAlloc_spec (m : Malloc (Element α)) (stale : Element α)
    (h : Holds l boxes used items) (hboxes : boxes ⊆ used) :
    ∃ p t, preAlloc m stale l = .ok (p, t) ∧ p ∉ getHead :: used ∧
      Holds t boxes (used ++ [p]) items := by
  by_cases hfull : l.elementPreallocCount ≥ preallocSize
  · have hfree := m.pick_free l.cell h.bounded
    have hnone : statusOf l (m.pick l.cell) = none := by
      rw [statusOf, hfree, Option.map_none]
    have hp : m.pick l.cell ∉ getHead :: used := fun hmem => h.status_ne_none hmem hnone
    have hheap : ¬ m.pick l.cell < preallocSize := fun hlt => by
      rw [h.pool _ hlt] at hnone
      exact Option.some_ne_none _ hnone
    refine ⟨m.pick l.cell, written l (m.pick l.cell) { stale with preStatus := .malloc }, ?_, hp,
      h.take hboxes hp ?_ ?_ ?_ ?_ ?_⟩
    · rw [preAlloc, if_pos hfull]
      rfl
    · intro q hq
      rw [nextOf_written, Function.update_of_ne hq]
    · intro q hq
      rw [prevOf_written, Function.update_of_ne hq]
    · intro q hq
      rw [dataOf_written, Function.update_of_ne hq]
    · rw [statusOf_written, if_neg hheap]
    · rw [if_neg hheap, add_zero]
      rfl
  · rw [preAlloc, if_neg hfull]
    cases hfind : (List.range preallocSize).find? (isUnused l) with
    | none =>
      obtain ⟨p, hpool, hp⟩ := exists_unused h (not_le.mp hfull)
      exact absurd ((isUnused_iff h hpool).mpr hp)
        (List.find?_eq_none.mp hfind p (List.mem_range.mpr hpool))
    | some p =>
      have hpool : p < preallocSize := List.mem_range.mp (List.mem_of_find?_eq_some hfind)
      have hp := (isUnused_iff h hpool).mp (List.find?_some hfind)
      obtain ⟨el, hel⟩ := exists_cell (l := l) (p := p) (by
        rw [h.pool p hpool]
        exact Option.some_ne_none _)
      dsimp only
      rw [modify_eq hel, ok_bind]
      refine ⟨p, _, rfl, hp, h.take hboxes hp ?_ ?_ ?_ ?_ ?_⟩
      · intro q hq
        exact (congrFun nextOf_written q).trans (Function.update_of_ne hq ..)
      · intro q hq
        exact (congrFun prevOf_written q).trans (Function.update_of_ne hq ..)
      · intro q hq
        exact (congrFun dataOf_written q).trans (Function.update_of_ne hq ..)
      · rw [if_pos hpool]
        exact statusOf_written
      · rw [if_pos hpool]
        rfl

/-! ## Appending -/

/-- The pointers and the data change, but not which elements are in use. -/
theorem Holds.relink {boxes' : List ℕ} {items' : List α} (h : Holds l boxes used items)
    (hring : Ring (nextOf t) (prevOf t) getHead boxes')
    (hdata : boxes'.map (dataOf t) = items'.map some) (hstatus : statusOf t = statusOf l)
    (hcount : t.elementPreallocCount = l.elementPreallocCount) : Holds t boxes' used items' where
  ring := hring
  data := hdata
  pool := by
    rw [hstatus]
    exact h.pool
  heap := by
    rw [hstatus]
    exact h.heap
  count := hcount.trans h.count

theorem appendBox_spec (m : Malloc (Element α)) (stale : Element α) (item : α)
    (h : Rep l boxes items) :
    ∃ p t, appendBox m stale item l = .ok t ∧ Rep t (boxes ++ [p]) (items ++ [item]) := by
  obtain ⟨p, l₁, halloc, hp, h₁⟩ := preAlloc_spec m stale h (List.Subset.refl boxes)
  have hmem : ∀ q ∈ getHead :: boxes, q ∈ getHead :: (boxes ++ [p]) := fun q hq => by
    rw [← List.cons_append]
    exact List.mem_append_left _ hq
  have hlast : boxes.getLastD getHead ∈ getHead :: boxes := getLastD_mem boxes getHead
  have hpmem : p ∈ getHead :: (boxes ++ [p]) :=
    List.mem_cons_of_mem _ (List.mem_append_right _ (List.mem_singleton_self p))
  have hphead : getHead ≠ p := fun heq => hp (heq ▸ List.mem_cons_self)
  obtain ⟨head, hget, -, -, hheadprev, -, -⟩ :=
    get_spec (h₁.status_ne_none (hmem getHead List.mem_cons_self))
  rw [h₁.ring.prev_head] at hheadprev
  obtain ⟨el, -, hel, -, -, -, helstatus⟩ := get_spec (h₁.status_ne_none hpmem)
  -- the new element is filled
  have hmodify := modify_eq (f := fun el : Element α =>
    { el with data := item, next := some getHead, prev := head.prev }) hel
  set l₂ := written l₁ p { el with data := item, next := some getHead, prev := head.prev } with hl₂
  have hstatus₂ : statusOf l₂ = statusOf l₁ := by
    rw [hl₂, statusOf_written, helstatus, Function.update_eq_self]
  have hstatus_ne : ∀ q ∈ getHead :: (boxes ++ [p]), statusOf l₂ q ≠ none := fun q hq => by
    rw [hstatus₂]
    exact h₁.status_ne_none hq
  have hnext₂ : nextOf l₂ = Function.update (nextOf l₁) p (some getHead) := nextOf_written
  have hprev₂ : prevOf l₂ = Function.update (prevOf l₁) p (some (boxes.getLastD getHead)) := by
    rw [hl₂, prevOf_written, hheadprev]
  have hdata₂ : dataOf l₂ = Function.update (dataOf l₁) p (some item) := dataOf_written
  obtain ⟨head', hget', -, -, hheadprev', -, -⟩ :=
    get_spec (hstatus_ne getHead (hmem getHead List.mem_cons_self))
  rw [hprev₂, Function.update_of_ne hphead, h₁.ring.prev_head] at hheadprev'
  -- it is linked between the last element and the head
  obtain ⟨l₃, hset₃, hnext₃, hprev₃, hdata₃, hstatus₃, hcount₃⟩ :=
    setNext_spec (q := some p) (hstatus_ne _ (hmem _ hlast))
  obtain ⟨t, hset, hnext, hprev, hdata, hstatus, hcount⟩ :=
    setPrev_spec (l := l₃) (q := some p) (p := getHead) (by
      rw [hstatus₃]
      exact hstatus_ne getHead (hmem getHead List.mem_cons_self))
  refine ⟨p, t, ?_, h₁.relink ?_ ?_ ?_ ?_⟩
  · rw [appendBox, halloc, ok_bind]
    dsimp only
    rw [hget, ok_bind, hmodify, ok_bind, hget', ok_bind, hheadprev', deref, ok_bind, hset₃, ok_bind,
      hset]
  · rw [hnext, hprev, hnext₃, hprev₃, hnext₂, hprev₂]
    exact h₁.ring.append hp
  · rw [hdata, hdata₃, hdata₂, List.map_append, List.map_append, ← h₁.data]
    refine congrArg₂ (· ++ ·) (List.map_congr_left fun b hb => Function.update_of_ne ?_ ..) ?_
    · exact fun heq => hp (heq ▸ List.mem_cons_of_mem _ hb)
    · rw [List.map_singleton, List.map_singleton, Function.update_self]
  · rw [hstatus, hstatus₃, hstatus₂]
  · rw [hcount, hcount₃]
    rfl

theorem memset_cell [Inhabited α] (l : PreList α) (hp : p < preallocSize) :
    (memset l).cell p = some ⟨.unused, none, none, default⟩ := if_pos hp

/-- A list that was zeroed becomes an empty ring. -/
theorem initList_spec [Inhabited α] : ∃ t, initList (zeroed : PreList α) = .ok t ∧ Rep t [] [] := by
  have hhead : getHead < preallocSize := by decide
  have hcell := memset_cell (zeroed : PreList α) hhead
  set l₁ : PreList α := { written (memset zeroed) getHead ⟨.used, none, none, default⟩ with
    elementPreallocCount := 1 } with hl₁
  have hforce : preAllocForce (memset (zeroed : PreList α)) getHead = .ok l₁ := by
    rw [preAllocForce, get_eq hcell, ok_bind]
    dsimp only
    rw [if_neg (not_not.mpr rfl), modify_eq hcell, ok_bind]
    rfl
  have hstatus₁ : statusOf l₁ = Function.update (statusOf (memset zeroed)) getHead (some .used) :=
    statusOf_written
  have hne : statusOf l₁ getHead ≠ none := by
    rw [hstatus₁, Function.update_self]
    exact Option.some_ne_none _
  obtain ⟨l₂, hset₂, -, hprev₂, -, hstatus₂, hcount₂⟩ := setPrev_spec (q := some getHead) hne
  obtain ⟨t, hset, hnext, hprev, -, hstatus, hcount⟩ :=
    setNext_spec (l := l₂) (p := getHead) (q := some getHead) (by rwa [hstatus₂])
  refine ⟨t, ?_, ⟨ring_nil ?_ ?_, rfl, fun p hp => ?_, fun p hp => ?_, ?_⟩⟩
  · rw [initList, hforce, ok_bind, hset₂, ok_bind, hset]
  · rw [hnext, Function.update_self]
  · rw [hprev, hprev₂, Function.update_self]
  · rw [hstatus, hstatus₂, hstatus₁]
    by_cases heq : p = getHead
    · rw [heq, Function.update_self, if_pos List.mem_cons_self]
    · rw [Function.update_of_ne heq, if_neg fun hmem => heq (List.mem_singleton.mp hmem), statusOf,
        memset_cell _ hp, Option.map_some]
  · have heq : p ≠ getHead := fun heq => absurd hp (heq ▸ Nat.not_le.mpr hhead)
    rw [hstatus, hstatus₂, hstatus₁, Function.update_of_ne heq, if_neg List.not_mem_nil, statusOf,
      memset, zeroed, memset]
    dsimp only
    rw [if_neg (Nat.not_lt.mpr hp), if_neg (Nat.not_lt.mpr hp), Option.map_none]
  · rw [hcount, hcount₂]
    rfl

/-! ## Removing -/

/-- An element in the middle comes first, in another order. -/
theorem perm_middle_head (pre post : List ℕ) (e : ℕ) :
    (getHead :: (pre ++ e :: post)).Perm (e :: getHead :: (pre ++ post)) :=
  (List.perm_middle.cons _).trans (List.Perm.swap ..)

theorem not_mem_unlinked (h : (getHead :: (pre ++ e :: post)).Nodup) :
    e ∉ getHead :: (pre ++ post) :=
  (List.nodup_cons.mp ((perm_middle_head pre post e).nodup h)).1

/-- An element that is no longer linked is given back. -/
theorem Holds.release (h : Holds l boxes (pre ++ e :: post) items)
    (hnodup : (getHead :: (pre ++ e :: post)).Nodup) (he : e ∉ getHead :: boxes)
    (hnext : ∀ q ≠ e, nextOf t q = nextOf l q) (hprev : ∀ q ≠ e, prevOf t q = prevOf l q)
    (hdata : ∀ q ≠ e, dataOf t q = dataOf l q)
    (hstatus : statusOf t =
      Function.update (statusOf l) e (if e < preallocSize then some .unused else none))
    (hcount : t.elementPreallocCount =
      l.elementPreallocCount - if e < preallocSize then 1 else 0) :
    Holds t boxes (pre ++ post) items := by
  have heused := not_mem_unlinked hnodup
  have hmem : ∀ q ≠ e, (q ∈ pre ++ e :: post ↔ q ∈ pre ++ post) := fun q hq => by
    simp only [List.mem_append, List.mem_cons, hq, false_or]
  refine ⟨h.ring.frame ?_ ?_, ?_, fun q hq => ?_, fun q hq => ?_, ?_⟩
  · exact fun b hb => hnext b fun heq => he (heq ▸ hb)
  · exact fun b hb => hprev b fun heq => he (heq ▸ hb)
  · rw [← h.data]
    exact List.map_congr_left fun b hb => hdata b fun heq => he (heq ▸ List.mem_cons_of_mem _ hb)
  · rw [hstatus]
    by_cases hqe : q = e
    · subst hqe
      rw [Function.update_self, if_pos hq, if_neg heused]
    · rw [Function.update_of_ne hqe, h.pool q hq]
      simp only [List.mem_cons, hmem q hqe]
  · rw [hstatus]
    by_cases hqe : q = e
    · subst hqe
      rw [Function.update_self, if_neg (Nat.not_lt.mpr hq),
        if_neg fun hmem => heused (List.mem_cons_of_mem _ hmem)]
    · rw [Function.update_of_ne hqe, h.heap q hq]
      simp only [hmem q hqe]
  · rw [hcount, h.count, (perm_middle_head pre post e).countP_eq, List.countP_cons]
    by_cases hpool : e < preallocSize <;> simp [hpool]

theorem preFree_spec (h : Holds l boxes (pre ++ e :: post) items)
    (hnodup : (getHead :: (pre ++ e :: post)).Nodup) (he : e ∉ getHead :: boxes) :
    ∃ t, preFree l e = .ok t ∧ Holds t boxes (pre ++ post) items := by
  have heused : e ∈ pre ++ e :: post := List.mem_append_right _ List.mem_cons_self
  have hstatus := h.status_eq heused
  obtain ⟨el, hget, hel, -, -, -, helstatus⟩ :=
    get_spec (h.status_ne_none (List.mem_cons_of_mem _ heused))
  rw [hstatus, Option.some_inj] at helstatus
  rw [preFree, hget, ok_bind, helstatus]
  by_cases hpool : e < preallocSize
  · rw [if_pos hpool]
    dsimp only
    have hpos : 0 < l.elementPreallocCount := by
      rw [h.count, List.countP_cons_of_pos (by decide)]
      omega
    rw [modify_eq hel, ok_bind]
    refine ⟨_, if_neg (not_lt.mpr (Int.sub_nonneg_of_le (Int.add_one_le_of_lt hpos))),
      h.release hnodup he ?_ ?_ ?_ ?_ ?_⟩
    · intro q hq
      exact (congrFun nextOf_written q).trans (Function.update_of_ne hq ..)
    · intro q hq
      exact (congrFun prevOf_written q).trans (Function.update_of_ne hq ..)
    · intro q hq
      exact (congrFun dataOf_written q).trans (Function.update_of_ne hq ..)
    · rw [if_pos hpool]
      exact statusOf_written
    · rw [if_pos hpool]
      rfl
  · rw [if_neg hpool]
    dsimp only
    refine ⟨_, rfl, h.release hnodup he ?_ ?_ ?_ ?_ ?_⟩
    · intro q hq
      exact congrArg (Option.bind · Element.next) (Function.update_of_ne hq ..)
    · intro q hq
      exact congrArg (Option.bind · Element.prev) (Function.update_of_ne hq ..)
    · intro q hq
      exact congrArg (Option.map Element.data) (Function.update_of_ne hq ..)
    · rw [if_neg hpool]
      funext q
      change Option.map Element.preStatus (Function.update l.cell e none q) = _
      by_cases hq : q = e
      · rw [hq, Function.update_self, Function.update_self, Option.map_none]
      · rw [Function.update_of_ne hq, Function.update_of_ne hq, statusOf]
    · rw [if_neg hpool, sub_zero]

theorem Holds.lengths (h : Holds l boxes used items) : boxes.length = items.length := by
  have hlen := congrArg List.length h.data
  rwa [List.length_map, List.length_map] at hlen

/-- The data in front of an element, of the element and behind it. -/
theorem data_split {f : ℕ → Option α} {x : α}
    (h : (pre ++ e :: post).map f = (xs ++ x :: ys).map some) (hlen : pre.length = xs.length) :
    pre.map f = xs.map some ∧ f e = some x ∧ post.map f = ys.map some := by
  rw [List.map_append, List.map_append, List.map_cons, List.map_cons] at h
  obtain ⟨hpre, hrest⟩ := List.append_inj h (by rw [List.length_map, List.length_map, hlen])
  rw [List.cons.injEq] at hrest
  exact ⟨hpre, hrest⟩

/-- The neighbours of an element are linked to each other. -/
theorem unlink_spec {x : α} (h : Rep l (pre ++ e :: post) (xs ++ x :: ys))
    (hlen : pre.length = xs.length) : ∃ el l₁ el₁ l₂,
      get l e = .ok el ∧ el.prev = some (pre.getLastD getHead) ∧
      el.next = some (post.headD getHead) ∧ el.data = x ∧
      setNext l (pre.getLastD getHead) (some (post.headD getHead)) = .ok l₁ ∧
      get l₁ e = .ok el₁ ∧ el₁.prev = some (pre.getLastD getHead) ∧
      el₁.next = some (post.headD getHead) ∧
      setPrev l₁ (post.headD getHead) (some (pre.getLastD getHead)) = .ok l₂ ∧
      Holds l₂ (pre ++ post) (pre ++ e :: post) (xs ++ ys) := by
  obtain ⟨hnexte, hpreve⟩ := h.ring.neighbours
  obtain ⟨hdatapre, hdatae, hdatapost⟩ := data_split h.data hlen
  have hsplit := (perm_middle_head pre post e).symm
  have hemem : e ∈ getHead :: (pre ++ e :: post) := hsplit.subset List.mem_cons_self
  have hsub : ∀ q ∈ getHead :: (pre ++ post), q ∈ getHead :: (pre ++ e :: post) ∧ q ≠ e :=
    fun q hq => ⟨hsplit.subset (List.mem_cons_of_mem _ hq),
      fun heq => not_mem_unlinked h.ring.nodup (heq ▸ hq)⟩
  obtain ⟨hprev, hpreve'⟩ := hsub (pre.getLastD getHead) (by
    rw [← List.cons_append]
    exact List.mem_append_left _ (getLastD_mem pre getHead))
  obtain ⟨hnext, -⟩ := hsub (post.headD getHead) (by
    rcases List.mem_append.mp (headD_mem post getHead) with hmem | hmem
    · exact List.mem_cons_of_mem _ (List.mem_append_right _ hmem)
    · exact List.mem_cons.mpr (Or.inl (List.mem_singleton.mp hmem)))
  obtain ⟨el, hget, -, helnext, helprev, heldata, -⟩ := get_spec (h.status_ne_none hemem)
  obtain ⟨l₁, hset₁, hnext₁, hprev₁, hdata₁, hstatus₁, hcount₁⟩ :=
    setNext_spec (q := some (post.headD getHead)) (h.status_ne_none hprev)
  obtain ⟨el₁, hget₁, -, hel₁next, hel₁prev, -, -⟩ := get_spec (l := l₁) (p := e) (by
    rw [hstatus₁]
    exact h.status_ne_none hemem)
  obtain ⟨l₂, hset₂, hnext₂, hprev₂, hdata₂, hstatus₂, hcount₂⟩ :=
    setPrev_spec (l := l₁) (p := post.headD getHead) (q := some (pre.getLastD getHead)) (by
      rw [hstatus₁]
      exact h.status_ne_none hnext)
  refine ⟨el, l₁, el₁, l₂, hget, helprev.trans hpreve, helnext.trans hnexte,
    Option.some_inj.mp (heldata.trans hdatae), hset₁, hget₁, ?_, ?_, hset₂, h.relink ?_ ?_ ?_ ?_⟩
  · rw [hel₁prev, hprev₁, hpreve]
  · rw [hel₁next, hnext₁, Function.update_of_ne hpreve'.symm, hnexte]
  · rw [hnext₂, hnext₁, hprev₂, hprev₁]
    exact h.ring.remove
  · rw [hdata₂, hdata₁, List.map_append, List.map_append, hdatapre, hdatapost]
  · rw [hstatus₂, hstatus₁]
  · rw [hcount₂, hcount₁]

theorem removeCurrent_spec {x : α} (h : Rep l (pre ++ e :: post) (xs ++ x :: ys))
    (hlen : pre.length = xs.length) : ∃ t,
      removeCurrent l e (some (post.headD getHead)) = .ok t ∧ Rep t (pre ++ post) (xs ++ ys) := by
  obtain ⟨el, l₁, el₁, l₂, hget, hprev, -, -, hset₁, hget₁, hprev₁, hnext₁, hset₂, h₂⟩ :=
    unlink_spec h hlen
  obtain ⟨t, hfree, ht⟩ := preFree_spec h₂ h.ring.nodup (not_mem_unlinked h.ring.nodup)
  refine ⟨t, ?_, ht⟩
  rw [removeCurrent, hget, ok_bind, hprev, deref, ok_bind, hset₁, ok_bind, hget₁, ok_bind, hnext₁,
    deref, ok_bind, hprev₁, hset₂, ok_bind, hfree]

/-! ## What is in use -/

/-- In every pool, as many elements are marked used as are counted. -/
theorem Holds.count_used (h : Rep l boxes items) : l.elementPreallocCount =
    (List.range preallocSize).countP (fun p => statusOf l p = some .used) := by
  have hperm : ((getHead :: boxes).filter (· < preallocSize)).Perm
      ((List.range preallocSize).filter fun p => statusOf l p = some .used) := by
    rw [List.perm_ext_iff_of_nodup (h.ring.nodup.filter _) (List.nodup_range.filter _)]
    intro p
    rw [List.mem_filter, List.mem_filter, List.mem_range, decide_eq_true_iff, decide_eq_true_iff,
      and_comm]
    refine and_congr_right fun hp => ?_
    rw [h.pool p hp, Option.some_inj]
    by_cases hmem : p ∈ getHead :: boxes
    · rw [if_pos hmem]
      exact iff_of_true hmem rfl
    · rw [if_neg hmem]
      exact iff_of_false hmem (by decide)
  rw [h.count, List.countP_eq_length_filter, List.countP_eq_length_filter, hperm.length_eq]

theorem status_of_not_mem (h : Rep l boxes items) {p : ℕ} (hp : p ∉ getHead :: boxes) :
    statusOf l p = if p < preallocSize then some .unused else none := by
  by_cases hpool : p < preallocSize
  · rw [h.pool p hpool, if_neg hp, if_pos hpool]
  · rw [h.heap p (Nat.not_lt.mp hpool), if_neg fun hmem => hp (List.mem_cons_of_mem _ hmem),
      if_neg hpool]

theorem status_used_iff (h : Rep l boxes items) {p : ℕ} (hp : p < preallocSize) :
    statusOf l p = some .used ↔ p ∈ getHead :: boxes := by
  rw [h.pool p hp, Option.some_inj]
  by_cases hmem : p ∈ getHead :: boxes
  · rw [if_pos hmem]
    exact iff_of_true rfl hmem
  · rw [if_neg hmem]
    exact iff_of_false (by decide) hmem

end Holds

end AflPlusPlus.PreallocLists
