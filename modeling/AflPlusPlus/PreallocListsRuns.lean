import AflPlusPlus.PreallocListsSpec

/-!
# Runs of the operations on lists

The list starts zeroed. From the first item that is appended on, a run of the operations does what
the same run does with a list of items.
-/

namespace AflPlusPlus.PreallocLists
open HeapCells Rings

variable {α : Type}

/-! ## The loops -/

/-- The items visited, whether the block has returned, and the items that are kept. -/
def walk (block : List α → α → Action) : List α → List α → List α × Bool × List α
  | visited, [] => (visited, false, [])
  | visited, x :: xs =>
    match block visited x with
    | .next =>
      let (all, returned, kept) := walk block (visited ++ [x]) xs
      (all, returned, x :: kept)
    | .removeCurrent => walk block (visited ++ [x]) xs
    | .returns => (visited ++ [x], true, x :: xs)

/-- A block that does not return visits all items. -/
theorem walk_visited {block : List α → α → Action}
    (hblock : ∀ visited x, block visited x ≠ .returns) (visited xs : List α) :
    (walk block visited xs).1 = visited ++ xs ∧ (walk block visited xs).2.1 = false := by
  induction xs generalizing visited with
  | nil =>
    rw [walk, List.append_nil]
    exact ⟨rfl, rfl⟩
  | cons x xs ih =>
    rw [List.append_cons]
    cases hx : block visited x with
    | next =>
      rw [walk, hx]
      exact ih (visited ++ [x])
    | removeCurrent =>
      rw [walk, hx]
      exact ih (visited ++ [x])
    | returns => exact absurd hx (hblock visited x)

theorem length_walk_le (block : List α → α → Action) (visited xs : List α) :
    (walk block visited xs).2.2.length ≤ xs.length := by
  induction xs generalizing visited with
  | nil => exact le_rfl
  | cons x xs ih =>
    rw [walk]
    cases block visited x with
    | next => exact Nat.succ_le_succ (ih _)
    | removeCurrent => exact (ih _).trans (Nat.le_succ _)
    | returns => exact le_rfl

section Loops
variable {l : PreList α} {boxes pre rest : List ℕ} {items xs ys : List α} {fuel : ℕ}

theorem headD_ne_head (hring : (getHead :: (pre ++ rest)).Nodup) (hrest : rest ≠ []) :
    some (rest.headD getHead) ≠ some getHead := by
  cases rest with
  | nil => exact absurd rfl hrest
  | cons e post =>
    rintro heq
    rw [List.headD_cons, Option.some_inj] at heq
    rw [heq] at hring
    exact (List.nodup_cons.mp hring).1 (List.mem_append_right _ List.mem_cons_self)

/-- The loop goes over the elements that are left; those in front of them stay as they are. -/
theorem foreachLoop_spec {block : List α → α → Action} (visited : List α)
    (h : Rep l (pre ++ rest) (xs ++ ys)) (hlen : pre.length = xs.length)
    (hfuel : ys.length < fuel) : ∃ kept t,
      foreachLoop block fuel (some (rest.headD getHead)) visited l =
        .ok ((walk block visited ys).1, (walk block visited ys).2.1, t) ∧
      Rep t (pre ++ kept) (xs ++ (walk block visited ys).2.2) := by
  have hlengths := h.lengths
  rw [List.length_append, List.length_append, hlen, Nat.add_left_cancel_iff] at hlengths
  obtain ⟨fuel, rfl⟩ := Nat.exists_eq_add_one_of_ne_zero (Nat.ne_zero_of_lt hfuel)
  induction ys generalizing l pre rest xs visited fuel with
  | nil =>
    obtain rfl := List.length_eq_zero_iff.mp hlengths
    refine ⟨[], l, ?_, h⟩
    rw [foreachLoop, List.headD_nil, if_pos rfl]
    rfl
  | cons x ys ih =>
    obtain ⟨e, post, rfl⟩ := List.exists_cons_of_length_eq_add_one hlengths
    rw [List.length_cons, List.length_cons, Nat.add_right_cancel_iff] at hlengths
    obtain ⟨fuel, rfl⟩ := Nat.exists_eq_add_one_of_ne_zero
      (Nat.ne_zero_of_lt (Nat.lt_of_succ_lt_succ hfuel))
    have hfuel' := Nat.lt_of_succ_lt_succ hfuel
    obtain ⟨el, l₁, el₁, l₂, hget, -, hnext, hdata, -⟩ := unlink_spec h hlen
    have hne := headD_ne_head h.ring.nodup (List.cons_ne_nil e post)
    rw [foreachLoop, if_neg hne, List.headD_cons, deref, ok_bind, hget, ok_bind, hdata, hnext, walk]
    cases block visited x with
    | next =>
      dsimp only
      rw [List.append_cons, List.append_cons xs] at h
      obtain ⟨kept, t, hloop, ht⟩ := ih (visited ++ [x]) h
        (by rw [List.length_append, List.length_append, hlen]; rfl) hlengths fuel hfuel'
      rw [← List.append_cons, ← List.append_cons xs] at ht
      exact ⟨e :: kept, t, hloop, ht⟩
    | removeCurrent =>
      dsimp only
      obtain ⟨t₁, hremove, ht₁⟩ := removeCurrent_spec h hlen
      rw [hremove, ok_bind]
      exact ih (visited ++ [x]) ht₁ hlen hlengths fuel hfuel'
    | returns => exact ⟨e :: post, l, rfl, h⟩

theorem listForeach_spec (block : List α → α → Action) (h : Rep l boxes items)
    (hfuel : items.length < fuel) : ∃ kept t,
      listForeach fuel block l =
        .ok ((walk block [] items).1, (walk block [] items).2.1, t) ∧
      Rep t kept (walk block [] items).2.2 := by
  obtain ⟨head, hget, -, hnext, -⟩ := get_spec (h.status_ne_none List.mem_cons_self)
  rw [h.ring.next_head] at hnext
  rw [listForeach, hget, ok_bind, hnext, if_neg (Option.some_ne_none _)]
  have hfirst : Rep l ([] ++ boxes) ([] ++ items) := h
  exact foreachLoop_spec [] hfirst rfl hfuel

theorem removeLoop_spec [Inhabited α] [DecidableEq α] {x : α} (h : Rep l (pre ++ rest) (xs ++ ys))
    (hlen : pre.length = xs.length) (hmem : x ∈ ys) (hfuel : ys.length < fuel) : ∃ kept t,
      removeLoop x fuel (some (rest.headD getHead)) l = .ok t ∧
      Rep t (pre ++ kept) (xs ++ ys.erase x) := by
  have hlengths := h.lengths
  rw [List.length_append, List.length_append, hlen, Nat.add_left_cancel_iff] at hlengths
  induction ys generalizing pre rest xs fuel with
  | nil => exact absurd hmem List.not_mem_nil
  | cons y ys ih =>
    obtain ⟨e, post, rfl⟩ := List.exists_cons_of_length_eq_add_one hlengths
    rw [List.length_cons, List.length_cons, Nat.add_right_cancel_iff] at hlengths
    obtain ⟨fuel, rfl⟩ := Nat.exists_eq_add_one_of_ne_zero (Nat.ne_zero_of_lt hfuel)
    obtain ⟨el, l₁, el₁, l₂, hget, hprev, hnext, hdata, hset₁, hget₁, hprev₁, hnext₁, hset₂, h₂⟩ :=
      unlink_spec h hlen
    have hne := headD_ne_head h.ring.nodup (List.cons_ne_nil e post)
    have hnot := not_mem_unlinked h.ring.nodup
    rw [removeLoop, if_neg hne, List.headD_cons, deref, ok_bind, hget, ok_bind, hdata, hnext]
    by_cases hy : y = x
    · subst hy
      rw [if_pos rfl, List.erase_cons_head, hprev, deref, ok_bind, hset₁, ok_bind, hget₁, ok_bind,
        hnext₁, deref, ok_bind, hprev₁, hset₂, ok_bind]
      obtain ⟨elᵤ, -, hcell, hnextᵤ, hprevᵤ, -, hstatusᵤ⟩ := get_spec (h₂.status_ne_none (p := e)
        (List.mem_cons_of_mem _ (List.mem_append_right _ List.mem_cons_self)))
      rw [modify_eq hcell, ok_bind]
      -- the data of an element that is no longer linked do not matter
      have h₃ : Holds (written l₂ e { elᵤ with data := default }) (pre ++ post) (pre ++ e :: post)
          (xs ++ ys) := by
        refine h₂.relink ?_ ?_ ?_ rfl
        · rw [nextOf_written, prevOf_written, hnextᵤ, hprevᵤ, Function.update_eq_self,
            Function.update_eq_self]
          exact h₂.ring
        · rw [dataOf_written, ← h₂.data]
          exact List.map_congr_left fun b hb => Function.update_of_ne
            (fun heq : b = e => hnot (heq ▸ List.mem_cons_of_mem _ hb)) ..
        · rw [statusOf_written, hstatusᵤ, Function.update_eq_self]
      obtain ⟨t, hfree, ht⟩ := preFree_spec h₃ h.ring.nodup hnot
      exact ⟨post, t, hfree, ht⟩
    · rw [if_neg hy]
      rw [List.append_cons, List.append_cons xs] at h
      obtain ⟨kept, t, hloop, ht⟩ := ih h
        (by rw [List.length_append, List.length_append, hlen]; rfl)
        ((List.mem_cons.mp hmem).resolve_left fun heq => hy heq.symm)
        (Nat.lt_of_succ_lt_succ hfuel) hlengths
      rw [← List.append_cons, ← List.append_cons xs] at ht
      rw [List.erase_cons_tail (by simpa using hy)]
      exact ⟨e :: kept, t, hloop, ht⟩

end Loops

section Append
variable [Inhabited α] {l : PreList α} {boxes : List ℕ} {items : List α}

theorem listAppend_spec (m : Malloc (Element α)) (stale : Element α) (item : α)
    (h : Rep l boxes items) :
    ∃ p t, listAppend m stale item l = .ok t ∧ Rep t (boxes ++ [p]) (items ++ [item]) := by
  obtain ⟨head, hget, -, hnext, -⟩ := get_spec (h.status_ne_none List.mem_cons_self)
  rw [h.ring.next_head] at hnext
  rw [listAppend, hget, ok_bind, hnext, if_neg (Option.some_ne_none _)]
  exact appendBox_spec m stale item h

theorem get_zeroed : get (zeroed : PreList α) getHead = .ok ⟨.unused, none, none, default⟩ :=
  get_eq (memset_cell _ (by decide))

theorem listAppend_zeroed (m : Malloc (Element α)) (stale : Element α) (item : α) :
    ∃ p t, listAppend m stale item (zeroed : PreList α) = .ok t ∧ Rep t [p] [item] := by
  obtain ⟨l, hinit, hl⟩ := initList_spec (α := α)
  rw [listAppend, get_zeroed, ok_bind, if_pos rfl, hinit, ok_bind]
  exact appendBox_spec m stale item hl

end Append

/-! ## The operations on a list of items -/

variable [DecidableEq α]

theorem walk_contains (x : α) (visited xs : List α) :
    (walk (fun _ item => if item = x then .returns else .next) visited xs).2 =
      (decide (x ∈ xs), xs) := by
  induction xs generalizing visited with
  | nil => rfl
  | cons y xs ih =>
    by_cases hy : y = x
    · subst hy
      rw [walk, if_pos rfl, decide_eq_true List.mem_cons_self]
    · rw [walk, if_neg hy]
      dsimp only
      obtain ⟨hfound, hkept⟩ := Prod.ext_iff.mp (ih (visited ++ [y]))
      rw [hfound, hkept, Prod.mk.injEq, decide_eq_decide, List.mem_cons]
      exact ⟨⟨Or.inr, fun h => h.resolve_left fun heq => hy heq.symm⟩, rfl⟩

def specStep (op : Op α) (items : List α) : Out α × List α :=
  match op with
  | .append item => (.done, items ++ [item])
  | .remove item => (.done, items.erase item)
  | .contains item => (.contained (item ∈ items), items)
  | .foreach block =>
    let (visited, _, kept) := walk block [] items
    (.visited visited, kept)
  | .foreachClear block =>
    let (visited, _, kept) :=
      walk (fun visited item => if block visited item then .returns else .removeCurrent) [] items
    (.visited visited, kept)

def specRun : List (Op α) → List α → List (Out α) × List α
  | [], items => ([], items)
  | op :: ops, items =>
    let (out, items) := specStep op items
    let (outs, items) := specRun ops items
    (out :: outs, items)

/-- Whatever is removed is there. -/
def Present : List (Op α) → List α → Prop
  | [], _ => True
  | op :: ops, items =>
    (∀ item, op = .remove item → item ∈ items) ∧ Present ops (specStep op items).2

theorem length_specStep_le (op : Op α) (items : List α) :
    (specStep op items).2.length ≤ items.length + 1 := by
  cases op with
  | append item =>
    rw [specStep, List.length_append]
    exact le_rfl
  | remove item => exact (List.length_erase_le).trans (Nat.le_succ _)
  | contains item => exact Nat.le_succ _
  | foreach block => exact (length_walk_le _ _ _).trans (Nat.le_succ _)
  | foreachClear block => exact (length_walk_le _ _ _).trans (Nat.le_succ _)

/-! ## Runs -/

section Runs
variable [Inhabited α] {l : PreList α} {boxes : List ℕ} {items : List α} {fuel : ℕ}

theorem listRemove_spec {x : α} (h : Rep l boxes items) (hmem : x ∈ items)
    (hfuel : items.length < fuel) :
    ∃ kept t, listRemove fuel x l = .ok t ∧ Rep t kept (items.erase x) := by
  obtain ⟨head, hget, -, hnext, -⟩ := get_spec (h.status_ne_none List.mem_cons_self)
  rw [h.ring.next_head] at hnext
  rw [listRemove, hget, ok_bind, hnext, if_neg (Option.some_ne_none _)]
  have hfirst : Rep l ([] ++ boxes) ([] ++ items) := h
  exact removeLoop_spec hfirst rfl hmem hfuel

/-- One operation does with the ring what it does with the list of items. -/
theorem step_spec (m : Malloc (Element α)) (stale : Element α) (op : Op α) (h : Rep l boxes items)
    (hpresent : ∀ item, op = .remove item → item ∈ items) (hfuel : items.length < fuel) :
    ∃ kept t, step m stale fuel op l = .ok ((specStep op items).1, t) ∧
      Rep t kept (specStep op items).2 := by
  cases op with
  | append item =>
    obtain ⟨p, t, happend, ht⟩ := listAppend_spec m stale item h
    refine ⟨_, t, ?_, ht⟩
    rw [step, happend, ok_bind, specStep]
  | remove item =>
    obtain ⟨kept, t, hremove, ht⟩ := listRemove_spec h (hpresent item rfl) hfuel
    refine ⟨kept, t, ?_, ht⟩
    rw [step, hremove, ok_bind, specStep]
  | contains item =>
    obtain ⟨kept, t, hloop, -⟩ :=
      listForeach_spec (fun _ x => if x = item then .returns else .next) h hfuel
    refine ⟨boxes, l, ?_, h⟩
    rw [step, listContains, hloop, ok_bind, ok_bind, specStep, walk_contains]
  | foreach block =>
    obtain ⟨kept, t, hloop, ht⟩ := listForeach_spec block h hfuel
    refine ⟨kept, t, ?_, ht⟩
    rw [step, hloop, ok_bind, specStep]
  | foreachClear block =>
    obtain ⟨kept, t, hloop, ht⟩ := listForeach_spec
      (fun visited item => if block visited item then .returns else .removeCurrent) h hfuel
    refine ⟨kept, t, ?_, ht⟩
    rw [step, listForeachClear, hloop, ok_bind, specStep]

theorem run_refines (m : Malloc (Element α)) (stale : Element α) (ops : List (Op α))
    (h : Rep l boxes items) (hpresent : Present ops items)
    (hfuel : items.length + ops.length < fuel) :
    ∃ kept t, run m stale fuel ops l = .ok ((specRun ops items).1, t) ∧
      Rep t kept (specRun ops items).2 ∧
      (specRun ops items).2.length ≤ items.length + ops.length := by
  induction ops generalizing l boxes items with
  | nil => exact ⟨boxes, l, rfl, h, le_rfl⟩
  | cons op ops ih =>
    rw [List.length_cons] at hfuel
    have hle := length_specStep_le op items
    have hlt : items.length < fuel := by omega
    obtain ⟨kept, t, hstep, ht⟩ := step_spec m stale op h hpresent.1 hlt
    obtain ⟨kept', t', hrun, ht', hlen⟩ := ih ht hpresent.2 (by omega)
    refine ⟨kept', t', ?_, ht', ?_⟩
    · rw [run, hstep, ok_bind]
      dsimp only
      rw [hrun, ok_bind, specRun]
    · rw [List.length_cons]
      exact hlen.trans (by omega)

/-- A loop over a list that was not initialized is refused. -/
theorem step_zeroed (m : Malloc (Element α)) (stale : Element α) (op : Op α)
    (hop : ∀ item, op ≠ .append item) :
    step m stale fuel op zeroed = .error (.fatal "foreach over uninitialized list") := by
  cases op with
  | append item => exact absurd rfl (hop item)
  | remove item =>
    rw [step, listRemove, get_zeroed]
    rfl
  | contains item =>
    rw [step, listContains, listForeach, get_zeroed]
    rfl
  | foreach block =>
    rw [step, listForeach, get_zeroed]
    rfl
  | foreachClear block =>
    rw [step, listForeachClear, listForeach, get_zeroed]
    rfl

/-- From a zeroed list on, a run gives what the same run gives on a list of items, and its memory
is a ring with these items. The loops go over them in order, the next element that is handed out is
free, and the count is that of the elements of the pool that are marked used. A run that does not
begin with an item that is appended is refused. -/
theorem run_zeroed (m : Malloc (Element α)) (stale : Element α) (op : Op α) (ops : List (Op α))
    (hfuel : (op :: ops).length < fuel) :
    ((∀ item, op ≠ .append item) → run m stale fuel (op :: ops) zeroed =
      .error (.fatal "foreach over uninitialized list")) ∧
    ∀ item, op = .append item → Present ops [item] → ∃ l boxes,
      run m stale fuel (op :: ops) zeroed = .ok ((specRun (op :: ops) []).1, l) ∧
      Ring (nextOf l) (prevOf l) getHead boxes ∧
      boxes.map (dataOf l) = (specRun (op :: ops) []).2.map some ∧
      (∀ block, (∀ visited x, block visited x ≠ .returns) → ∃ t,
        listForeach fuel block l = .ok ((specRun (op :: ops) []).2, false, t)) ∧
      (∃ p t, preAlloc m stale l = .ok (p, t) ∧ p ∉ getHead :: boxes ∧
        statusOf l p = if p < preallocSize then some .unused else none) ∧
      (∀ p < preallocSize, statusOf l p = some .used ↔ p ∈ getHead :: boxes) ∧
      l.elementPreallocCount =
        (List.range preallocSize).countP (fun p => statusOf l p = some .used) := by
  refine ⟨fun hop => ?_, ?_⟩
  · rw [run, step_zeroed m stale op hop]
    rfl
  · rintro item rfl hpresent
    rw [List.length_cons] at hfuel
    obtain ⟨p, l₁, happend, h₁⟩ := listAppend_zeroed m stale item
    have hlt : [item].length + ops.length < fuel := by
      rw [List.length_singleton]
      omega
    obtain ⟨boxes, l, hrun, hl, hlen⟩ := run_refines m stale ops h₁ hpresent hlt
    rw [List.length_singleton] at hlen
    refine ⟨l, boxes, ?_, hl.ring, hl.data, fun block hblock => ?_, ?_, fun q hq => ?_,
      hl.count_used⟩
    · rw [run, step, happend, ok_bind, ok_bind]
      dsimp only
      rw [hrun, ok_bind, specRun]
      rfl
    · have hlt' : (specRun ops [item]).2.length < fuel := by omega
      obtain ⟨kept, t, hloop, -⟩ := listForeach_spec block hl hlt'
      obtain ⟨hvisited, hreturned⟩ := walk_visited hblock [] (specRun ops [item]).2
      rw [hvisited, hreturned] at hloop
      exact ⟨t, hloop⟩
    · obtain ⟨q, t, halloc, hq, -⟩ := preAlloc_spec m stale hl (List.Subset.refl boxes)
      exact ⟨q, t, halloc, hq, status_of_not_mem hl hq⟩
    · exact status_used_iff hl hq

/-- An item is removed while the list is visited, another one by its value. -/
theorem run_zeroed_example : ∃ l, run (α := ℕ) firstFree ⟨.unused, none, none, 0⟩ 8
    [.append 5, .append 6, .append 7,
      .foreach fun _ item => if item = 6 then .removeCurrent else .next, .remove 5, .contains 6]
    zeroed = .ok ([.done, .done, .done, .visited [5, 6, 7], .done, .contained false], l) ∧
    ∃ boxes, Ring (nextOf l) (prevOf l) getHead boxes ∧ boxes.map (dataOf l) = [some 7] := by
  have hrefines := run_zeroed firstFree (⟨.unused, none, none, 0⟩ : Element ℕ) (.append 5)
    [.append 6, .append 7,
      .foreach fun _ item => if item = 6 then .removeCurrent else .next, .remove 5, .contains 6]
    (show _ < 8 by decide)
  obtain ⟨l, boxes, hrun, hring, hdata, -⟩ :=
    hrefines.2 5 rfl (by simp [Present, specStep, walk])
  exact ⟨l, hrun, boxes, hring, hdata⟩

/-- The list has to be appended to before anything else is done with it. -/
theorem contains_uninitialized : ¬ ∀ ops : List (Op ℕ), Present ops [] →
    ∃ l, run firstFree ⟨.unused, none, none, 0⟩ (ops.length + 1) ops zeroed =
      .ok ((specRun ops []).1, l) := by
  intro h
  have happend : ∀ item : ℕ, Op.contains 1 ≠ .append item := fun item heq => by cases heq
  have hremove : ∀ item : ℕ, Op.contains 1 = .remove item → item ∈ ([] : List ℕ) :=
    fun item heq => by cases heq
  obtain ⟨l, hrun⟩ := h [.contains 1] ⟨hremove, trivial⟩
  rw [run, step_zeroed firstFree _ _ happend] at hrun
  cases hrun

end Runs

end AflPlusPlus.PreallocLists
