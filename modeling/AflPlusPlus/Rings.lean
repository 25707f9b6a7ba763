import Mathlib

/-!
# Circular doubly linked lists

A ring goes from its head over some boxes back to the head, with pointers in both directions. A box
is put in front of the head, and any box can be taken out, by changes of its two neighbours.
-/

namespace AflPlusPlus.Rings

variable {ι : Type*}

def Links (next prev : ι → Option ι) (a b : ι) : Prop := next a = some b ∧ prev b = some a

/-- The pointers lead from the head over the boxes back to the head. -/
structure Ring (next prev : ι → Option ι) (head : ι) (boxes : List ι) : Prop where
  chain : (head :: (boxes ++ [head])).IsChain (Links next prev)
  nodup : (head :: boxes).Nodup

section Chains
variable {next prev next' prev' : ι → Option ι} {R : ι → ι → Prop} {head a : ι}
  {boxes pre post : List ι}

/-- A chain does not depend on the pointer forward of its end and the pointer back of its
beginning. -/
theorem chain_frame (h : (a :: boxes).IsChain (Links next prev))
    (hnext : ∀ b ∈ (a :: boxes).dropLast, next' b = next b)
    (hprev : ∀ b ∈ boxes, prev' b = prev b) : (a :: boxes).IsChain (Links next' prev') := by
  induction boxes generalizing a with
  | nil => exact List.isChain_singleton a
  | cons b boxes ih =>
    rw [List.isChain_cons_cons] at h ⊢
    rw [List.dropLast_cons_cons, List.forall_mem_cons] at hnext
    rw [List.forall_mem_cons] at hprev
    refine ⟨⟨hnext.1.trans h.1.1, hprev.1.trans h.1.2⟩, ih h.2 hnext.2 hprev.2⟩

/-- A chain is cut in front of a part that is not empty. -/
theorem chain_cut : (head :: (pre ++ a :: post)).IsChain R ↔
    (head :: pre).IsChain R ∧ R (pre.getLastD head) a ∧ (a :: post).IsChain R := by
  induction pre generalizing head with
  | nil =>
    rw [List.nil_append, List.isChain_cons_cons]
    exact (and_iff_right (List.isChain_singleton head)).symm
  | cons b pre ih =>
    rw [List.cons_append, List.isChain_cons_cons, List.isChain_cons_cons, ih, and_assoc,
      List.getLastD_cons]

theorem append_singleton_eq (post : List ι) (head : ι) :
    post ++ [head] = post.headD head :: (post ++ [head]).tail := by
  cases post with
  | nil => rfl
  | cons a post => rfl

theorem getLastD_mem (pre : List ι) (head : ι) : pre.getLastD head ∈ head :: pre := by
  rcases List.eq_nil_or_concat pre with rfl | ⟨pre, b, rfl⟩
  · exact List.mem_cons_self
  · simp

theorem headD_mem (post : List ι) (head : ι) : post.headD head ∈ post ++ [head] := by
  cases post with
  | nil => exact List.mem_singleton_self head
  | cons a post => exact List.mem_cons_self

theorem dropLast_append_getLastD (pre : List ι) (head : ι) :
    head :: pre = (head :: pre).dropLast ++ [pre.getLastD head] := by
  rcases List.eq_nil_or_concat pre with rfl | ⟨pre, b, rfl⟩
  · rfl
  · rw [List.concat_eq_append, ← List.cons_append, List.dropLast_concat]
    simp

end Chains

section Ring
variable {next prev next' prev' : ι → Option ι} {head e x : ι} {boxes pre post : List ι}

theorem ring_nil (hnext : next head = some head) (hprev : prev head = some head) :
    Ring next prev head [] where
  chain := List.isChain_pair.mpr ⟨hnext, hprev⟩
  nodup := List.nodup_singleton head

theorem Ring.frame (h : Ring next prev head boxes) (hnext : ∀ b ∈ head :: boxes, next' b = next b)
    (hprev : ∀ b ∈ head :: boxes, prev' b = prev b) : Ring next' prev' head boxes where
  chain := by
    refine chain_frame h.chain (fun b hb => hnext b ?_) fun b hb => hprev b ?_
    · rwa [← List.cons_append, List.dropLast_concat] at hb
    · rw [List.mem_append, List.mem_singleton] at hb
      exact List.mem_cons.mpr hb.symm
  nodup := h.nodup

theorem Ring.next_head (h : Ring next prev head boxes) : next head = some (boxes.headD head) := by
  have hchain := h.chain
  rw [append_singleton_eq, List.isChain_cons_cons] at hchain
  exact hchain.1.1

theorem Ring.prev_head (h : Ring next prev head boxes) :
    prev head = some (boxes.getLastD head) := (chain_cut.mp h.chain).2.1.2

/-- The neighbours of a box. -/
theorem Ring.neighbours (h : Ring next prev head (pre ++ e :: post)) :
    next e = some (post.headD head) ∧ prev e = some (pre.getLastD head) := by
  have hchain := h.chain
  rw [List.append_assoc, List.cons_append, chain_cut, append_singleton_eq,
    List.isChain_cons_cons] at hchain
  exact ⟨hchain.2.2.1.1, hchain.2.1.2⟩

variable [DecidableEq ι]

/-- A box is taken out: its neighbours point to each other. -/
theorem Ring.remove (h : Ring next prev head (pre ++ e :: post)) :
    Ring (Function.update next (pre.getLastD head) (some (post.headD head)))
      (Function.update prev (post.headD head) (some (pre.getLastD head))) head (pre ++ post) := by
  have hchain := h.chain
  have hnodup := h.nodup
  rw [List.append_assoc, List.cons_append, chain_cut] at hchain
  obtain ⟨hpre, -, hpost⟩ := hchain
  have hpost' : (post ++ [head]).IsChain (Links next prev) := hpost.tail
  have hdisjoint : (head :: pre).Disjoint post := by
    rw [← List.cons_append] at hnodup
    exact fun b hb hb' => (List.disjoint_of_nodup_append hnodup) hb (List.mem_cons_of_mem e hb')
  have hnodupPre : (head :: pre).Nodup := by
    rw [← List.cons_append] at hnodup
    exact hnodup.of_append_left
  have hnodupPost : post.Nodup := by
    rw [← List.cons_append] at hnodup
    exact hnodup.of_append_right.of_cons
  have hheadPost : head ∉ post := hdisjoint List.mem_cons_self
  refine ⟨?_, ?_⟩
  · rw [List.append_assoc, append_singleton_eq, chain_cut]
    rw [append_singleton_eq] at hpost'
    refine ⟨?_, ⟨Function.update_self .., Function.update_self ..⟩, ?_⟩
    · refine chain_frame hpre (fun b hb => Function.update_of_ne ?_ ..)
        fun b hb => Function.update_of_ne ?_ ..
      · rintro rfl
        rw [dropLast_append_getLastD] at hnodupPre
        exact (List.disjoint_of_nodup_append hnodupPre) hb (List.mem_singleton_self _)
      · rintro rfl
        have hmem := headD_mem post head
        rw [List.mem_append, List.mem_singleton] at hmem
        rcases hmem with hmem | hmem
        · exact hdisjoint (List.mem_cons_of_mem _ hb) hmem
        · rw [hmem] at hb
          exact (List.nodup_cons.mp hnodupPre).1 hb
    · refine chain_frame hpost' (fun b hb => Function.update_of_ne ?_ ..)
        fun b hb => Function.update_of_ne ?_ ..
      · rintro rfl
        rw [← append_singleton_eq, List.dropLast_concat] at hb
        exact hdisjoint (getLastD_mem pre head) hb
      · rintro rfl
        have hnodupEnd : (post ++ [head]).Nodup :=
          hnodupPost.append (List.nodup_singleton _) (List.disjoint_singleton.mpr hheadPost)
        rw [append_singleton_eq] at hnodupEnd
        exact (List.nodup_cons.mp hnodupEnd).1 hb
  · rw [← List.cons_append]
    exact hnodupPre.append hnodupPost hdisjoint

/-- A new box comes in front of the head. -/
theorem Ring.append (h : Ring next prev head boxes) (hx : x ∉ head :: boxes) :
    Ring (Function.update (Function.update next x (some head)) (boxes.getLastD head) (some x))
      (Function.update (Function.update prev x (some (boxes.getLastD head))) head (some x)) head
      (boxes ++ [x]) := by
  obtain ⟨hboxes, -, -⟩ := chain_cut.mp h.chain
  have hlast := getLastD_mem boxes head
  have hxlast : x ≠ boxes.getLastD head := fun heq => hx (heq ▸ hlast)
  have hxhead : x ≠ head := fun heq => hx (heq ▸ List.mem_cons_self)
  refine ⟨?_, ?_⟩
  · rw [List.append_assoc, List.singleton_append, chain_cut]
    refine ⟨?_, ⟨Function.update_self .., ?_⟩, List.isChain_pair.mpr ⟨?_, Function.update_self ..⟩⟩
    · refine chain_frame hboxes (fun b hb => ?_) fun b hb => ?_
      · have hmem : b ∈ head :: boxes := List.mem_of_mem_dropLast hb
        have hbx : b ≠ x := fun heq => hx (heq ▸ hmem)
        rw [Function.update_of_ne, Function.update_of_ne hbx]
        rintro rfl
        have hnodup := h.nodup
        rw [dropLast_append_getLastD] at hnodup
        exact (List.disjoint_of_nodup_append hnodup) hb (List.mem_singleton_self _)
      · have hbx : b ≠ x := fun heq => hx (heq ▸ List.mem_cons_of_mem _ hb)
        have hbhead : b ≠ head := ne_of_mem_of_not_mem hb (List.nodup_cons.mp h.nodup).1
        rw [Function.update_of_ne hbhead, Function.update_of_ne hbx]
    · rw [Function.update_of_ne hxhead, Function.update_self]
    · rw [Function.update_of_ne hxlast, Function.update_self]
  · rw [← List.cons_append]
    exact h.nodup.append (List.nodup_singleton x) (List.disjoint_singleton.mpr hx)

end Ring

end AflPlusPlus.Rings
