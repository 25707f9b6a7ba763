import AflPlusPlus.SplitSwitches

/-!
# The byte tree reaches the block of the switch

Along a path of the tree the checked bytes agree between all remaining cases and the value,
and the cases that were dropped differ from the value. When the last byte is checked, the
remaining cases agree in every byte, so there is exactly one.
-/

namespace AflPlusPlus.SplitSwitches
open ControlFlow CompareInstructions

variable {σ κ : Type}

/-! ## Bytes of values -/

theorem caseByte_eq (val i : ℕ) : caseByte val i = val / 2 ^ (i * 8) % 2 ^ 8 := by
  unfold caseByte
  rw [Nat.shiftRight_eq_div_pow]
  exact Nat.and_two_pow_sub_one_eq_mod _ 8

theorem caseByte_lt (val i : ℕ) : caseByte val i < 256 := by
  rw [caseByte_eq]
  exact Nat.mod_lt _ (by decide)

theorem caseByte_succ (val i : ℕ) : caseByte val (i + 1) = caseByte (val / 2 ^ 8) i := by
  rw [caseByte_eq, caseByte_eq, Nat.div_div_eq_div_mul, ← Nat.pow_add, Nat.succ_mul, Nat.add_comm]

/-- A value of `n` bytes is determined by them. -/
theorem eq_of_caseByte_eq {n x y : ℕ} (hx : x < 2 ^ (8 * n)) (hy : y < 2 ^ (8 * n))
    (h : ∀ i < n, caseByte x i = caseByte y i) : x = y := by
  induction n generalizing x y with
  | zero => omega
  | succ n ih =>
    have hlow := h 0 (Nat.succ_pos n)
    rw [caseByte_eq, caseByte_eq, Nat.zero_mul, Nat.pow_zero, Nat.div_one, Nat.div_one] at hlow
    rw [Nat.mul_succ, Nat.pow_add, Nat.mul_comm] at hx hy
    have hhigh : x / 2 ^ 8 = y / 2 ^ 8 := by
      refine ih (Nat.div_lt_of_lt_mul hx) (Nat.div_lt_of_lt_mul hy) fun i hi => ?_
      rw [← caseByte_succ, ← caseByte_succ]
      exact h (i + 1) (Nat.succ_lt_succ hi)
    rw [← Nat.div_add_mod x (2 ^ 8), ← Nat.div_add_mod y (2 ^ 8), hhigh, hlow]

/-! ## The comparison of a node -/

theorem icmpValue_mod (p : IntPredicate) (a b : ℕ) :
    icmpValue 8 p (a % 2 ^ 8) b = icmpValue 8 p a b := by
  have hmod : BitVec.ofNat 8 (a % 2 ^ 8) = BitVec.ofNat 8 a := by
    apply BitVec.eq_of_toNat_eq
    rw [BitVec.toNat_ofNat, BitVec.toNat_ofNat, Nat.mod_mod]
  rw [icmpValue, icmpValue, hmod]

/-- The node compares the byte at `index` and leaves the registers before its own alone. -/
theorem execBody_nodeBody (width : ℕ) {val : Operand} {id : ℕ} (hval : val.Below id)
    (index : ℕ) (pred : IntPredicate) (byte : ℕ) (s : Env × σ) :
    (Operand.reg (id + 2)).value (execBody Op.eval s (nodeBody width val id index pred byte)).1 =
        (icmpValue 8 pred (caseByte (val.value s.1 % 2 ^ width) index) byte).toNat ∧
      val.value (execBody Op.eval s (nodeBody width val id index pred byte)).1 =
        val.value s.1 := by
  have hbyte : icmpValue 8 pred (caseByte (val.value s.1 % 2 ^ width) index) byte =
      icmpValue 8 pred (lshrValue width (val.value s.1) (index * 8)) byte := by
    rw [caseByte_eq, icmpValue_mod, lshrValue_eq]
  rw [hbyte]
  unfold nodeBody
  split
  · simp only [execBody_cons, execBody_nil, execInstr_lshrInst, execInstr_truncInst,
      execInstr_cmpInst]
    refine ⟨?_, ?_⟩
    · simp only [Operand.value_reg, Operand.value_const, Function.update_self, truncValue_eq,
        icmpValue_mod]
    · rw [Operand.value_update hval _ (by omega), Operand.value_update hval _ (by omega),
        Operand.value_update hval _ le_rfl]
  · simp only [execBody_cons, execBody_nil, execInstr_lshrInst, execInstr_cmpInst]
    refine ⟨?_, ?_⟩
    · simp only [Operand.value_reg, Operand.value_const, Function.update_self]
    · rw [Operand.value_update hval _ (by omega), Operand.value_update hval _ le_rfl]

/-! ## The choice of a byte -/

section Choice
variable {cases : List (CaseExpr κ)}

theorem mem_byteSet {i b : ℕ} : b ∈ byteSet cases i ↔ ∃ c ∈ cases, caseByte c.val i = b := by
  simp [byteSet]

theorem card_byteSet_le (i : ℕ) : (byteSet cases i).card ≤ 256 := by
  have hsub : byteSet cases i ⊆ Finset.range 256 := by
    intro b hb
    obtain ⟨c, -, rfl⟩ := mem_byteSet.1 hb
    exact Finset.mem_range.2 (caseByte_lt c.val i)
  simpa using Finset.card_le_card hsub

theorem card_byteSet_pos (hne : cases ≠ []) (i : ℕ) : 0 < (byteSet cases i).card := by
  obtain ⟨c, hc⟩ := List.exists_mem_of_ne_nil cases hne
  exact Finset.card_pos.2 ⟨_, mem_byteSet.2 ⟨c, hc, rfl⟩⟩

variable (cases) in
/-- The loop over the bytes finds an unchecked one as soon as there is one. -/
theorem smallest_spec {bytesChecked : List Bool}
    (hopen : ∃ i < bytesChecked.length, bytesChecked.getD i false = false) :
    (smallest cases bytesChecked).1 < bytesChecked.length ∧
      bytesChecked.getD (smallest cases bytesChecked).1 false = false ∧
      (smallest cases bytesChecked).2 = (byteSet cases (smallest cases bytesChecked).1).card := by
  suffices hloop : ∀ n, n ≤ bytesChecked.length →
      let s := (List.range n).foldl (fun s i =>
        if bytesChecked.getD i false then s
        else if (byteSet cases i).card < s.2 then (i, (byteSet cases i).card) else s) (0, 257)
      (s.1 < n ∧ bytesChecked.getD s.1 false = false ∧ s.2 = (byteSet cases s.1).card) ∨
        (s = (0, 257) ∧ ∀ i < n, bytesChecked.getD i false = true) by
    obtain ⟨i, hi, hfree⟩ := hopen
    rcases hloop bytesChecked.length le_rfl with h | ⟨-, hall⟩
    · exact h
    · rw [hall i hi] at hfree
      exact absurd hfree (by decide)
  intro n hn
  induction n with
  | zero => exact .inr ⟨rfl, fun i hi => absurd hi (Nat.not_lt_zero i)⟩
  | succ n ih =>
    have hcard : (byteSet cases n).card ≤ 256 := card_byteSet_le n
    rw [List.range_succ, List.foldl_append, List.foldl_cons, List.foldl_nil]
    have hstep := ih (Nat.le_of_succ_le hn)
    generalize (List.range n).foldl _ _ = s at hstep
    dsimp only at hstep ⊢
    cases hchecked : bytesChecked.getD n false with
    | true =>
      rw [if_pos rfl]
      rcases hstep with ⟨hlt, hrest⟩ | ⟨hs, hall⟩
      · exact .inl ⟨Nat.lt_succ_of_lt hlt, hrest⟩
      · refine .inr ⟨hs, fun i hi => ?_⟩
        rcases Nat.lt_succ_iff_lt_or_eq.1 hi with hi | rfl
        · exact hall i hi
        · exact hchecked
    | false =>
      rw [if_neg Bool.false_ne_true]
      split
      · exact .inl ⟨Nat.lt_succ_self n, hchecked, rfl⟩
      · rename_i hge
        rcases hstep with ⟨hlt, hrest⟩ | ⟨hs, -⟩
        · exact .inl ⟨Nat.lt_succ_of_lt hlt, hrest⟩
        · rw [hs] at hge
          omega

/-- With a single value at a byte, the first element of the set is that value. -/
theorem headD_of_card_one {i : ℕ} (hone : (byteSet cases i).card = 1) :
    ∀ c ∈ cases, caseByte c.val i = ((byteSet cases i).sort (· ≤ ·)).headD 0 := by
  obtain ⟨b, hb⟩ := Finset.card_eq_one.1 hone
  intro c hc
  have hmem : caseByte c.val i ∈ byteSet cases i := mem_byteSet.2 ⟨c, hc, rfl⟩
  rw [hb, Finset.mem_singleton] at hmem
  rw [hmem, hb, Finset.sort_singleton]
  rfl

/-- With several values, the pivot divides the cases into two parts that are not empty. -/
theorem pivot_divides {i : ℕ} (hmany : 2 ≤ (byteSet cases i).card) :
    let byteVector := (byteSet cases i).sort (· ≤ ·)
    (∃ c ∈ cases, caseByte c.val i < byteVector.getD (byteVector.length / 2) 0) ∧
      ∃ c ∈ cases, ¬caseByte c.val i < byteVector.getD (byteVector.length / 2) 0 := by
  have hlen : ((byteSet cases i).sort (· ≤ ·)).length = (byteSet cases i).card :=
    Finset.length_sort _
  have hsorted := (byteSet cases i).sortedLT_sort
  have hmem : ∀ b ∈ (byteSet cases i).sort (· ≤ ·), ∃ c ∈ cases, caseByte c.val i = b :=
    fun b hb => mem_byteSet.1 ((Finset.mem_sort _).1 hb)
  generalize (byteSet cases i).sort (· ≤ ·) = byteVector at hlen hsorted hmem
  have hmid : byteVector.length / 2 < byteVector.length := by omega
  dsimp only
  rw [List.getD_eq_getElem _ _ hmid]
  obtain ⟨c, hc, hfirst⟩ := hmem _ (List.getElem_mem (l := byteVector) (n := 0) (by omega))
  obtain ⟨d, hd, hpivot⟩ := hmem _ (List.getElem_mem hmid)
  refine ⟨⟨c, hc, ?_⟩, d, hd, hpivot.ge.not_gt⟩
  rw [hfirst]
  exact hsorted.strictMono_get (a := ⟨0, by omega⟩) (b := ⟨byteVector.length / 2, hmid⟩)
    (Fin.mk_lt_mk.2 (by omega))

end Choice

/-! ## Destinations -/

theorem destination_eq_default {cases : List (CaseExpr κ)} {v : ℕ} (default : κ)
    (h : ∀ c ∈ cases, c.val ≠ v) : destination cases default v = default := by
  have hnone : cases.find? (·.val == v) = none := by
    rw [List.find?_eq_none]
    intro c hc heq
    exact h c hc (beq_iff_eq.1 heq)
  rw [destination, hnone]

/-- Cases that differ from the value may be dropped. -/
theorem destination_filter {cases : List (CaseExpr κ)} {v : ℕ} (default : κ)
    {p : CaseExpr κ → Bool} (h : ∀ c ∈ cases, c.val = v → p c = true) :
    destination (cases.filter p) default v = destination cases default v := by
  have hfind : (cases.filter p).find? (·.val == v) = cases.find? (·.val == v) := by
    rw [List.find?_filter]
    refine List.find?_congr fun c hc => ?_
    by_cases hv : c.val = v
    · simp [hv, h c hc hv]
    · simp [hv]
  rw [destination, destination, hfind]

/-! ## The recursion -/

/-- What holds of the cases and the checked bytes at every call of `switchConvert`. -/
structure Remaining (width : ℕ) (cases : List (CaseExpr κ)) (bytesChecked : List Bool) :
    Prop where
  nonempty : cases ≠ []
  val_lt : ∀ c ∈ cases, c.val < 2 ^ width
  nodup : (cases.map CaseExpr.val).Nodup
  size : width = 8 * bytesChecked.length
  unchecked : ∃ i < bytesChecked.length, bytesChecked.getD i false = false
  agree : ∀ i, bytesChecked.getD i false = true →
    ∀ c ∈ cases, ∀ d ∈ cases, caseByte c.val i = caseByte d.val i

/-- The value agrees with the cases in the bytes that were checked. -/
def Follows (cases : List (CaseExpr κ)) (bytesChecked : List Bool) (v : ℕ) : Prop :=
  ∀ i, bytesChecked.getD i false = true → ∀ c ∈ cases, caseByte c.val i = caseByte v i

/-- A tree for these cases, in which every case has one leaf. -/
structure Converts (width : ℕ) (val : Operand) (cases : List (CaseExpr κ))
    (bytesChecked : List Bool) (id : ℕ) (r : NodeBlock σ κ × ℕ) : Prop where
  id_le : id ≤ r.2
  leaves : r.1.leaves.Perm (cases.map CaseExpr.bb)
  run : ∀ default s, Follows cases bytesChecked (val.value s.1 % 2 ^ width) →
    r.1.run default s = destination cases default (val.value s.1 % 2 ^ width)

section Recursion
variable {width : ℕ} {cases : List (CaseExpr κ)} {bytesChecked : List Bool} {index : ℕ}

theorem getD_set (hi : index < bytesChecked.length) (i : ℕ) :
    (bytesChecked.set index true).getD i false =
      if i = index then true else bytesChecked.getD i false := by
  rw [List.getD_eq_getElem?_getD, List.getElem?_set, List.getD_eq_getElem?_getD]
  by_cases h : i = index
  · subst h
    simp [hi]
  · simp [h, Ne.symm h]

theorem Remaining.sublist (h : Remaining width cases bytesChecked) (p : CaseExpr κ → Bool)
    (hne : ∃ c ∈ cases, p c = true) : Remaining width (cases.filter p) bytesChecked where
  nonempty := by
    obtain ⟨c, hc, hp⟩ := hne
    exact List.ne_nil_of_mem (List.mem_filter.2 ⟨hc, hp⟩)
  val_lt := fun c hc => h.val_lt c (List.mem_of_mem_filter hc)
  nodup := h.nodup.sublist (List.filter_sublist.map _)
  size := h.size
  unchecked := h.unchecked
  agree := fun i hi c hc d hd =>
    h.agree i hi c (List.mem_of_mem_filter hc) d (List.mem_of_mem_filter hd)

/-- A byte with one value has been checked, and another byte is left. -/
theorem Remaining.check (h : Remaining width cases bytesChecked)
    (hi : index < bytesChecked.length)
    (hbyte : ∀ c ∈ cases, ∀ d ∈ cases, caseByte c.val index = caseByte d.val index)
    (hleft : ¬(bytesChecked.set index true).all (fun checked => checked) = true) :
    Remaining width cases (bytesChecked.set index true) where
  nonempty := h.nonempty
  val_lt := h.val_lt
  nodup := h.nodup
  size := by rw [List.length_set]; exact h.size
  unchecked := by
    rw [List.all_eq_true] at hleft
    push Not at hleft
    obtain ⟨checked, hmem, hfalse⟩ := hleft
    obtain ⟨i, hlt, hget⟩ := List.getElem_of_mem hmem
    refine ⟨i, hlt, ?_⟩
    rw [List.getD_eq_getElem _ _ hlt, hget]
    exact Bool.eq_false_of_not_eq_true hfalse
  agree := by
    intro i hchecked
    rw [getD_set hi] at hchecked
    by_cases heq : i = index
    · rw [heq]
      exact hbyte
    · rw [if_neg heq] at hchecked
      exact h.agree i hchecked

/-- Cases that agree in every byte are one case. -/
theorem Remaining.single (h : Remaining width cases bytesChecked)
    (hi : index < bytesChecked.length)
    (hbyte : ∀ c ∈ cases, ∀ d ∈ cases, caseByte c.val index = caseByte d.val index)
    (hall : (bytesChecked.set index true).all (fun checked => checked) = true) :
    ∃ c, cases = [c] := by
  have hsame : ∀ c ∈ cases, ∀ d ∈ cases, c.val = d.val := by
    intro c hc d hd
    apply eq_of_caseByte_eq (n := bytesChecked.length)
    · rw [← h.size]
      exact h.val_lt c hc
    · rw [← h.size]
      exact h.val_lt d hd
    · intro i hlt
      have hchecked := List.all_eq_true.1 hall _
        (List.getElem_mem (l := bytesChecked.set index true) (n := i)
          (by rw [List.length_set]; exact hlt))
      rw [← List.getD_eq_getElem _ false, getD_set hi] at hchecked
      by_cases heq : i = index
      · rw [heq]
        exact hbyte c hc d hd
      · rw [if_neg heq] at hchecked
        exact h.agree i hchecked c hc d hd
  have hnodup := h.nodup
  match cases, h.nonempty with
  | [c], _ => exact ⟨c, rfl⟩
  | c :: d :: rest, _ =>
    rw [List.map_cons, List.nodup_cons] at hnodup
    refine absurd ?_ hnodup.1
    rw [hsame c List.mem_cons_self d (List.mem_cons_of_mem _ List.mem_cons_self)]
    exact List.mem_cons_self

theorem Follows.filter {v : ℕ} (h : Follows cases bytesChecked v) (p : CaseExpr κ → Bool) :
    Follows (cases.filter p) bytesChecked v :=
  fun i hi c hc => h i hi c (List.mem_of_mem_filter hc)

theorem Follows.check {v : ℕ} (h : Follows cases bytesChecked v)
    (hi : index < bytesChecked.length)
    (hbyte : ∀ c ∈ cases, caseByte c.val index = caseByte v index) :
    Follows cases (bytesChecked.set index true) v := by
  intro i hchecked
  rw [getD_set hi] at hchecked
  by_cases heq : i = index
  · rw [heq]
    exact hbyte
  · rw [if_neg heq] at hchecked
    exact h i hchecked

theorem count_set (hi : index < bytesChecked.length)
    (hfree : bytesChecked.getD index false = false) :
    (bytesChecked.set index true).count false + 1 = bytesChecked.count false := by
  rw [List.getD_eq_getElem _ _ hi] at hfree
  have hpos : 0 < bytesChecked.count false := by
    rw [List.count_pos_iff, ← hfree]
    exact List.getElem_mem hi
  rw [List.count_set hi, hfree]
  simp
  omega

variable (width index) in
/-- A node that compares a byte for equality. -/
theorem run_eqNode {val : Operand} {id : ℕ} (hval : val.Below id) (default : κ)
    (bb : NodeBlock σ κ) (byte : ℕ) (hbyte : byte < 256) (s : Env × σ) :
    ∃ s' : Env × σ, val.value s'.1 = val.value s.1 ∧
      (NodeBlock.node (nodeBody width val id index .eq byte) (.reg (id + 2)) bb
        .newDefault).run default s =
        if caseByte (val.value s.1 % 2 ^ width) index = byte then bb.run default s'
        else default := by
  obtain ⟨hcomp, hkeep⟩ := execBody_nodeBody width hval index .eq byte s
  refine ⟨_, hkeep, ?_⟩
  rw [NodeBlock.run, hcomp, icmpValue_eq_of_lt (caseByte_lt _ _) hbyte]
  by_cases heq : caseByte (val.value s.1 % 2 ^ width) index = byte
  · rw [if_pos heq, decide_eq_true heq]
    rfl
  · rw [if_neg heq, decide_eq_false heq]
    rfl

variable (width index) in
/-- A node that compares a byte with a pivot. -/
theorem run_ultNode {val : Operand} {id : ℕ} (hval : val.Below id) (default : κ)
    (lbb rbb : NodeBlock σ κ) (pivot : ℕ) (hpivot : pivot < 256) (s : Env × σ) :
    ∃ s' : Env × σ, val.value s'.1 = val.value s.1 ∧
      (NodeBlock.node (nodeBody width val id index .ult pivot) (.reg (id + 2)) lbb rbb).run
        default s =
        if caseByte (val.value s.1 % 2 ^ width) index < pivot then lbb.run default s'
        else rbb.run default s' := by
  obtain ⟨hcomp, hkeep⟩ := execBody_nodeBody width hval index .ult pivot s
  refine ⟨_, hkeep, ?_⟩
  rw [NodeBlock.run, hcomp, icmpValue_ult_of_lt (caseByte_lt _ _) hpivot]
  by_cases hlt : caseByte (val.value s.1 % 2 ^ width) index < pivot
  · rw [if_pos hlt, decide_eq_true hlt]
    rfl
  · rw [if_neg hlt, decide_eq_false hlt]
    rfl

/-- The node of the last byte, when one case is left. -/
theorem Converts.leaf {val : Operand} {id : ℕ} (hval : val.Below id) {c : CaseExpr κ}
    (h : Remaining width [c] bytesChecked) (hi : index < bytesChecked.length)
    (hall : (bytesChecked.set index true).all (fun checked => checked) = true) :
    Converts width val [c] bytesChecked id
      (.node (nodeBody (σ := σ) width val id index .eq (caseByte c.val index)) (.reg (id + 2))
        (.case c.bb) .newDefault, id + 3) where
  id_le := Nat.le_add_right id 3
  leaves := List.Perm.refl _
  run := by
    intro default s hfollows
    obtain ⟨s', -, hrun⟩ := run_eqNode width index hval default
      (.case c.bb) _ (caseByte_lt c.val index) s
    rw [hrun]
    have hv : val.value s.1 % 2 ^ width < 2 ^ width := Nat.mod_lt _ (Nat.two_pow_pos width)
    generalize val.value s.1 % 2 ^ width = v at hfollows hv
    by_cases heq : caseByte v index = caseByte c.val index
    · have hval : c.val = v := by
        have hagree := hfollows.check hi fun d hd => by
          rw [List.mem_singleton.1 hd, heq]
        rw [h.size] at hv
        have hc := h.val_lt c (List.mem_singleton_self c)
        rw [h.size] at hc
        refine eq_of_caseByte_eq hc hv fun i hlt => ?_
        refine hagree i ?_ c (List.mem_singleton_self c)
        rw [List.getD_eq_getElem _ _ (by rw [List.length_set]; exact hlt)]
        exact List.all_eq_true.1 hall _ (List.getElem_mem _)
      rw [if_pos heq, NodeBlock.run, destination, List.find?_cons_of_pos (by simp [hval])]
    · rw [if_neg heq, destination_eq_default]
      intro d hd hval
      rw [List.mem_singleton.1 hd] at hval
      exact heq (by rw [hval])

/-- A node that compares a byte all cases agree in. -/
theorem Converts.check {val : Operand} {id : ℕ} (hval : val.Below id) {byte : ℕ}
    (hi : index < bytesChecked.length) (hsmall : byte < 256)
    (hbyte : ∀ c ∈ cases, caseByte c.val index = byte) {r : NodeBlock σ κ × ℕ}
    (h : Converts width val cases (bytesChecked.set index true) (id + 3) r) :
    Converts width val cases bytesChecked id
      (.node (nodeBody width val id index .eq byte) (.reg (id + 2)) r.1 .newDefault, r.2) where
  id_le := (Nat.le_add_right id 3).trans h.id_le
  leaves := by
    rw [NodeBlock.leaves, NodeBlock.leaves, List.append_nil]
    exact h.leaves
  run := by
    intro default s hfollows
    obtain ⟨s', hkeep, hrun⟩ := run_eqNode width index hval default
      r.1 byte hsmall s
    rw [hrun]
    by_cases heq : caseByte (val.value s.1 % 2 ^ width) index = byte
    · rw [if_pos heq, ← hkeep]
      apply h.run default s'
      rw [hkeep]
      exact hfollows.check hi fun c hc => by rw [hbyte c hc, heq]
    · rw [if_neg heq, destination_eq_default]
      intro c hc hval
      exact heq (by rw [← hval, hbyte c hc])

/-- A node that divides the cases at a pivot. -/
theorem Converts.divide {val : Operand} {id : ℕ} (hval : val.Below id) {pivot : ℕ}
    (hpivot : pivot < 256) {l r : NodeBlock σ κ × ℕ}
    (hl : Converts width val (cases.filter fun c => caseByte c.val index < pivot) bytesChecked
      (id + 3) l)
    (hr : Converts width val (cases.filter fun c => ¬caseByte c.val index < pivot) bytesChecked
      l.2 r) :
    Converts width val cases bytesChecked id
      (.node (nodeBody width val id index .ult pivot) (.reg (id + 2)) l.1 r.1, r.2) where
  id_le := (Nat.le_add_right id 3).trans (hl.id_le.trans hr.id_le)
  leaves := by
    rw [NodeBlock.leaves]
    refine (hl.leaves.append hr.leaves).trans ?_
    rw [← List.map_append]
    apply List.Perm.map
    have hsplit := List.filter_append_perm (fun c => decide (caseByte c.val index < pivot)) cases
    simpa only [decide_not] using hsplit
  run := by
    intro default s hfollows
    obtain ⟨s', hkeep, hrun⟩ := run_ultNode width index hval default
      l.1 r.1 pivot hpivot s
    rw [hrun]
    by_cases hlt : caseByte (val.value s.1 % 2 ^ width) index < pivot
    · rw [if_pos hlt, hl.run default s' (by rw [hkeep]; exact hfollows.filter _), hkeep]
      refine destination_filter default fun c _ hv => ?_
      rw [hv]
      exact decide_eq_true hlt
    · rw [if_neg hlt, hr.run default s' (by rw [hkeep]; exact hfollows.filter _), hkeep]
      refine destination_filter default fun c _ hv => ?_
      rw [hv]
      exact decide_eq_true hlt

/-- Enough fuel gives a tree: every call checks a byte or has fewer cases. -/
theorem switchConvert_spec {val : Operand} (fuel : ℕ) :
    ∀ (cases : List (CaseExpr κ)) (bytesChecked : List Bool) (id : ℕ),
      Remaining width cases bytesChecked → val.Below id →
      cases.length + bytesChecked.count false ≤ fuel →
      ∃ r : NodeBlock σ κ × ℕ, switchConvert width val fuel cases bytesChecked id = some r ∧
        Converts width val cases bytesChecked id r := by
  induction fuel with
  | zero =>
    intro cases bytesChecked id h _ hfuel
    exact absurd (List.length_eq_zero_iff.1 (by omega)) h.nonempty
  | succ fuel ih =>
    intro cases bytesChecked id h hval hfuel
    obtain ⟨hi, hfree, hsize⟩ := smallest_spec cases h.unchecked
    have hopen : bytesChecked.getD (smallest cases bytesChecked).1 true = false := by
      rw [List.getD_eq_getElem _ _ hi] at hfree ⊢
      exact hfree
    have hbyteLt : ∀ b ∈ (byteSet cases (smallest cases bytesChecked).1).sort (· ≤ ·),
        b < 256 := by
      intro b hb
      obtain ⟨c, -, rfl⟩ := mem_byteSet.1 ((Finset.mem_sort _).1 hb)
      exact caseByte_lt _ _
    unfold switchConvert
    simp only [hopen, Bool.false_eq_true, if_false]
    rw [hsize]
    generalize (smallest cases bytesChecked).1 = index at *
    by_cases hone : (byteSet cases index).card = 1
    · rw [if_pos hone]
      have hbyte := headD_of_card_one hone
      have hagree : ∀ c ∈ cases, ∀ d ∈ cases, caseByte c.val index = caseByte d.val index :=
        fun c hc d hd => (hbyte c hc).trans (hbyte d hd).symm
      by_cases hall : (bytesChecked.set index true).all (fun checked => checked) = true
      · rw [if_pos hall]
        obtain ⟨c, rfl⟩ := h.single hi hagree hall
        rw [← hbyte c (List.mem_singleton_self c)]
        exact ⟨_, rfl, Converts.leaf hval h hi hall⟩
      · rw [if_neg hall]
        have hcount := count_set hi hfree
        obtain ⟨r, hr, hconv⟩ := ih cases _ (id + 3) (h.check hi hagree hall)
          (hval.mono (Nat.le_add_right id 3)) (by omega)
        rw [hr]
        refine ⟨_, rfl, hconv.check hval hi ?_ hbyte⟩
        obtain ⟨c, hc⟩ := List.exists_mem_of_ne_nil cases h.nonempty
        rw [← hbyte c hc]
        exact caseByte_lt _ _
    · rw [if_neg hone]
      have hpos := card_byteSet_pos h.nonempty index
      have hmany : 2 ≤ (byteSet cases index).card := by omega
      obtain ⟨hlow, hhigh⟩ := pivot_divides hmany
      have hpivot : ((byteSet cases index).sort (· ≤ ·)).getD
          (((byteSet cases index).sort (· ≤ ·)).length / 2) 0 < 256 := by
        rw [List.getD_eq_getElem _ _ (by rw [Finset.length_sort]; omega)]
        exact hbyteLt _ (List.getElem_mem _)
      generalize ((byteSet cases index).sort (· ≤ ·)).getD
        (((byteSet cases index).sort (· ≤ ·)).length / 2) 0 = pivot at *
      have hfewer : ∀ p : CaseExpr κ → Bool, (∃ c ∈ cases, ¬p c = true) →
          (cases.filter p).length < cases.length := by
        intro p hp
        obtain ⟨c, hc, hp⟩ := hp
        exact List.length_filter_lt_length_iff_exists.2 ⟨c, hc, hp⟩
      obtain ⟨l, hl, hlconv⟩ := ih _ bytesChecked (id + 3)
        (h.sublist (fun c => decide (caseByte c.val index < pivot)) (by simpa using hlow))
        (hval.mono (Nat.le_add_right id 3))
        (by have := hfewer (fun c => decide (caseByte c.val index < pivot)) (by simpa using hhigh)
            omega)
      obtain ⟨r, hr, hrconv⟩ := ih _ bytesChecked l.2
        (h.sublist (fun c => decide ¬caseByte c.val index < pivot) (by simpa using hhigh))
        (hval.mono ((Nat.le_add_right id 3).trans hlconv.id_le))
        (by have := hfewer (fun c => decide ¬caseByte c.val index < pivot) (by simpa using hlow)
            omega)
      rw [hl, Option.bind_eq_bind, Option.bind_some, hr, Option.bind_some]
      exact ⟨_, rfl, hlconv.divide hval hpivot hrconv⟩

end Recursion

/-- The tree of a switch exists, has one leaf for each case, and from every state reaches the
block that the switch branches to. -/
theorem split_preserves_switch (sw : SwitchInst κ) (hcases : 2 ≤ sw.cases.length)
    (hbytes : sw.width % 8 = 0) (hwidth : sw.width ≤ 64) (id : ℕ) (hid : sw.condition.Below id)
    (fuel : ℕ) (hfuel : sw.cases.length + sw.width / 8 ≤ fuel) :
    ∃ (switchBlock : NodeBlock σ κ) (id' : ℕ),
      sw.split fuel id = some (.branch switchBlock sw.default, id') ∧
      switchBlock.leaves.Perm (sw.cases.map CaseExpr.bb) ∧
      ∀ s, (Rewritten.branch switchBlock sw.default).exec s = sw.exec s := by
  have hsize : (7 + sw.width) / 8 = sw.width / 8 := by omega
  have hpos := sw.width_pos
  have hfresh : ∀ i, (List.replicate (sw.width / 8) false).getD i false = false := by
    intro i
    rw [List.getD_eq_getElem?_getD, List.getElem?_replicate]
    split <;> rfl
  have hstart : Remaining sw.width sw.cases (List.replicate (sw.width / 8) false) := by
    refine ⟨?_, sw.val_lt, sw.nodup, ?_, ⟨0, ?_, ?_⟩, ?_⟩
    · exact List.ne_nil_of_length_pos (by omega)
    · rw [List.length_replicate]
      omega
    · rw [List.length_replicate]
      omega
    · exact hfresh 0
    · intro i hi
      rw [hfresh i] at hi
      exact absurd hi Bool.false_ne_true
  obtain ⟨r, hr, hconv⟩ := switchConvert_spec (σ := σ) fuel sw.cases _ id hstart hid
    (by rw [List.count_replicate_self]; exact hfuel)
  have hnot : sw.skipped = false := by
    simp [SwitchInst.skipped, hbytes]
    omega
  refine ⟨r.1, r.2, ?_, hconv.leaves, ?_⟩
  · simp only [SwitchInst.split, hnot, hsize, hr]
    rfl
  · intro s
    apply hconv.run
    intro i hi
    rw [hfresh i] at hi
    exact absurd hi Bool.false_ne_true

/-- A switch over a 16-bit value with four cases, two of which share their low byte. -/
def switchOfWords : SwitchInst ℕ where
  width := 16
  condition := .reg 0
  cases := [⟨0x0102, 1⟩, ⟨0x0202, 2⟩, ⟨0x0203, 3⟩, ⟨0xff00, 4⟩]
  default := 0
  width_pos := by decide
  val_lt := by decide
  nodup := by decide

theorem split_preserves_switch_words :
    ∃ (switchBlock : NodeBlock Unit ℕ) (id' : ℕ),
      switchOfWords.split 6 1 = some (.branch switchBlock 0, id') ∧
      switchBlock.leaves.Perm [1, 2, 3, 4] ∧
      ∀ s, (Rewritten.branch switchBlock 0).exec s = switchOfWords.exec s :=
  split_preserves_switch switchOfWords (by decide) (by decide) (by decide) 1 Nat.one_pos 6
    (by decide)

end AflPlusPlus.SplitSwitches
