import Mathlib

/-!
# Doubly linked lists in memory

Nodes are allocated at addresses and point to the next and the previous node. The pointer back
from the first node may be anything: it is never followed. A new node goes in front, and any node
can be taken out, which changes its neighbours.
-/

namespace AflPlusPlus.LinkedLists

variable {α : Type*}

structure Node (α : Type*) where
  val : α
  next : Option ℕ
  prev : Option ℕ

/-- The allocated nodes by their addresses. -/
abbrev Heap (α : Type*) := ℕ → Option (Node α)

/-- Write through a pointer, which must lead to a node. -/
def modify (h : Heap α) (p : Option ℕ) (f : Node α → Node α) : Option (Heap α) :=
  p.bind fun p => (h p).map fun node => Function.update h p (some (f node))

/-- Write through a pointer unless it is null. -/
def modifyUnlessNull (h : Heap α) (p : Option ℕ) (f : Node α → Node α) : Option (Heap α) :=
  if p = none then some h else modify h p f

def free (h : Heap α) (p : ℕ) : Heap α := Function.update h p none

/-- A node in front of the list, allocated at `p`, whose pointer back is left as it is. -/
def pushFront (h : Heap α) (head : Option ℕ) (p : ℕ) (x : α) (stale : Option ℕ) :
    Option (Heap α) :=
  modifyUnlessNull (Function.update h p (some ⟨x, head, stale⟩)) head
    fun node => { node with prev := some p }

/-- Take the node at `p` out of the list and free it; the new head of the list. -/
def unlink (h : Heap α) (head : Option ℕ) (p : ℕ) : Option (Heap α × Option ℕ) := do
  let node ← h p
  if head = some p then
    let h ← modifyUnlessNull h node.next fun next => { next with prev := none }
    some (free h p, node.next)
  else if node.next ≠ none then
    let h ← modify h node.prev fun prev => { prev with next := node.next }
    let h ← modify h node.next fun next => { next with prev := node.prev }
    some (free h p, head)
  else
    let h ← modifyUnlessNull h node.prev fun prev => { prev with next := none }
    some (free h p, head)

/-- From `head` up to the pointer `last` there are nodes with the given addresses and values;
`back` is what is known of the pointer back from the first of them. -/
def Segment (h : Heap α) : (Option ℕ → Prop) → Option ℕ → List (ℕ × α) → Option ℕ → Prop
  | _, head, [], last => head = last
  | back, head, (p, x) :: cells, last => head = some p ∧ ∃ node, h p = some node ∧
      node.val = x ∧ back node.prev ∧ Segment h (· = some p) node.next cells last

/-- The list at `head` has the given addresses and values. -/
structure Linked (h : Heap α) (head : Option ℕ) (cells : List (ℕ × α)) : Prop where
  segment : Segment h (fun _ => True) head cells none
  nodup : (cells.map Prod.fst).Nodup

/-- What is known of the pointer back from what follows some nodes. -/
def backFrom : (Option ℕ → Prop) → List (ℕ × α) → Option ℕ → Prop
  | back, [] => back
  | _, (p, _) :: cells => backFrom (· = some p) cells

section Segments
variable {h h' : Heap α} {back : Option ℕ → Prop} {head last : Option ℕ}
  {xs ys cells : List (ℕ × α)} {p : ℕ} {x y : α}

theorem Segment.mono {back' : Option ℕ → Prop} (hback : ∀ q, back q → back' q)
    (hs : Segment h back head cells last) : Segment h back' head cells last := by
  cases cells with
  | nil => exact hs
  | cons cell cells =>
    obtain ⟨hhead, node, hnode, hval, hprev, hrest⟩ := hs
    exact ⟨hhead, node, hnode, hval, hback _ hprev, hrest⟩

theorem Segment.frame (hs : Segment h back head cells last)
    (heq : ∀ p ∈ cells.map Prod.fst, h' p = h p) : Segment h' back head cells last := by
  induction cells generalizing back head with
  | nil => exact hs
  | cons cell cells ih =>
    obtain ⟨hhead, node, hnode, hval, hprev, hrest⟩ := hs
    simp only [List.map_cons, List.mem_cons, forall_eq_or_imp] at heq
    exact ⟨hhead, node, heq.1.trans hnode, hval, hprev, ih hrest heq.2⟩

theorem segment_append : Segment h back head (xs ++ ys) last ↔
    ∃ mid, Segment h back head xs mid ∧ Segment h (backFrom back xs) mid ys last := by
  induction xs generalizing back head with
  | nil => simp [Segment, backFrom]
  | cons cell xs ih =>
    obtain ⟨p, x⟩ := cell
    simp only [List.cons_append, Segment, backFrom, ih]
    constructor
    · rintro ⟨hhead, node, hnode, hval, hprev, mid, hleft, hright⟩
      exact ⟨mid, ⟨hhead, node, hnode, hval, hprev, hleft⟩, hright⟩
    · rintro ⟨mid, ⟨hhead, node, hnode, hval, hprev, hleft⟩, hright⟩
      exact ⟨hhead, node, hnode, hval, hprev, mid, hleft, hright⟩

/-- The list before a node, the node, and the list behind it. -/
theorem segment_middle : Segment h back head (xs ++ (p, x) :: ys) last ↔
    Segment h back head xs (some p) ∧ ∃ node, h p = some node ∧ node.val = x ∧
      backFrom back xs node.prev ∧ Segment h (· = some p) node.next ys last := by
  rw [segment_append]
  constructor
  · rintro ⟨mid, hleft, rfl, hright⟩
    exact ⟨hleft, hright⟩
  · rintro ⟨hleft, hright⟩
    exact ⟨some p, hleft, rfl, hright⟩

theorem backFrom_concat (back : Option ℕ → Prop) (xs : List (ℕ × α)) (p : ℕ) (x : α) :
    backFrom back (xs ++ [(p, x)]) = (· = some p) := by
  induction xs generalizing back with
  | nil => rfl
  | cons cell xs ih => exact ih _

/-- Every address of the list leads to a node. -/
theorem Segment.allocated (hs : Segment h back head cells last) {q : ℕ}
    (hq : q ∈ cells.map Prod.fst) : h q ≠ none := by
  induction cells generalizing back head with
  | nil => exact absurd hq (by simp)
  | cons cell cells ih =>
    obtain ⟨-, node, hnode, -, -, hrest⟩ := hs
    rw [List.map_cons, List.mem_cons] at hq
    rcases hq with rfl | hq
    · simp [hnode]
    · exact ih hrest hq

theorem modify_eq {node : Node α} (hnode : h p = some node) (f : Node α → Node α) :
    modify h (some p) f = some (Function.update h p (some (f node))) := by
  simp [modify, hnode]

/-- The first node of a list gets another pointer back. -/
theorem Segment.setPrev (hs : Segment h back head cells none)
    (hnodup : (cells.map Prod.fst).Nodup) (v : Option ℕ) :
    ∃ h', modifyUnlessNull h head (fun node => { node with prev := v }) = some h' ∧
      Segment h' (· = v) head cells none ∧ (∀ q, h q = none → h' q = none) ∧
      ∀ q, q ∉ cells.map Prod.fst → h' q = h q := by
  cases cells with
  | nil =>
    obtain rfl : head = none := hs
    exact ⟨h, rfl, rfl, fun _ => id, fun _ _ => rfl⟩
  | cons cell cells =>
    obtain ⟨rfl, node, hnode, hval, -, hrest⟩ := hs
    rw [List.map_cons, List.nodup_cons] at hnodup
    refine ⟨_, (if_neg (by simp)).trans (modify_eq hnode _), ⟨rfl, _, Function.update_self .., hval,
      rfl, hrest.frame fun q hq => ?_⟩, fun q hq => ?_, fun q hq => ?_⟩
    · exact Function.update_of_ne (ne_of_mem_of_not_mem hq hnodup.1) _ _
    · rw [Function.update_of_ne, hq]
      rintro rfl
      simp [hnode] at hq
    · simp only [List.map_cons, List.mem_cons, not_or] at hq
      exact Function.update_of_ne hq.1 _ _

/-- A new value for a node. -/
theorem Linked.setVal (hl : Linked h head (xs ++ (p, x) :: ys)) (y : α) :
    ∃ h', modify h (some p) (fun node => { node with val := y }) = some h' ∧
      Linked h' head (xs ++ (p, y) :: ys) ∧ ∀ q, h q = none → h' q = none := by
  obtain ⟨hleft, node, hnode, -, hprev, hright⟩ := segment_middle.mp hl.segment
  have hnodup := hl.nodup
  simp only [List.map_append, List.map_cons] at hnodup
  have hmid := List.nodup_middle.mp hnodup
  rw [List.nodup_cons, List.mem_append, not_or] at hmid
  have hframe : ∀ q, q ≠ p → Function.update h p (some { node with val := y }) q = h q :=
    fun q hq => Function.update_of_ne hq _ _
  refine ⟨_, modify_eq hnode _, ⟨segment_middle.mpr ⟨?_, _, Function.update_self .., rfl, hprev, ?_⟩,
    by simpa using hnodup⟩, fun q hq => ?_⟩
  · exact hleft.frame fun q hq => hframe q fun heq => hmid.1.1 (heq ▸ hq)
  · exact hright.frame fun q hq => hframe q fun heq => hmid.1.2 (heq ▸ hq)
  · rw [hframe q, hq]
    rintro rfl
    simp [hnode] at hq

/-- A list in a heap without nodes from `n` on has at most `n` nodes. -/
theorem Linked.length_le {n : ℕ} (hl : Linked h head cells) (hn : ∀ q, n ≤ q → h q = none) :
    cells.length ≤ n := by
  have hsub : (cells.map Prod.fst).toFinset ⊆ Finset.range n := by
    intro q hq
    rw [List.mem_toFinset] at hq
    by_contra hlt
    exact hl.segment.allocated hq (hn q (by simpa using hlt))
  have hcard := Finset.card_le_card hsub
  rwa [List.toFinset_card_of_nodup hl.nodup, Finset.card_range, List.length_map] at hcard

/-- A new node in front. -/
theorem Linked.pushFront (hl : Linked h head cells) (hp : h p = none) (x : α)
    (stale : Option ℕ) :
    ∃ h', LinkedLists.pushFront h head p x stale = some h' ∧ Linked h' (some p) ((p, x) :: cells) ∧
      ∀ q, q ≠ p → h q = none → h' q = none := by
  have hnew : p ∉ cells.map Prod.fst := fun hmem => hl.segment.allocated hmem hp
  have hframe : ∀ q, q ≠ p → Function.update h p (some ⟨x, head, stale⟩) q = h q :=
    fun q hq => Function.update_of_ne hq _ _
  have hold : Segment (Function.update h p (some ⟨x, head, stale⟩)) (fun _ => True) head cells
      none := hl.segment.frame fun q hq => hframe q fun heq => hnew (heq ▸ hq)
  obtain ⟨h', heq, hs, hnone, hsame⟩ := hold.setPrev hl.nodup (some p)
  have hnode : h' p = some ⟨x, head, stale⟩ := (hsame p hnew).trans (Function.update_self ..)
  refine ⟨h', heq, ⟨⟨rfl, _, hnode, rfl, trivial, hs⟩, ?_⟩, fun q hq hfree => ?_⟩
  · rw [List.map_cons, List.nodup_cons]
    exact ⟨hnew, hl.nodup⟩
  · exact hnone q ((hframe q hq).trans hfree)

/-- Without a node the list joins what was before and behind it. -/
theorem Linked.unlink (hl : Linked h head (xs ++ (p, x) :: ys)) :
    ∃ h' head', LinkedLists.unlink h head p = some (h', head') ∧ Linked h' head' (xs ++ ys) ∧
      ∀ q, h q = none → h' q = none := by
  obtain ⟨hleft, node, hnode, -, hprev, hright⟩ := segment_middle.mp hl.segment
  have hnodup := hl.nodup
  simp only [List.map_append, List.map_cons] at hnodup
  have hmid := List.nodup_middle.mp hnodup
  rw [List.nodup_cons, List.mem_append, not_or] at hmid
  obtain ⟨⟨hpx, hpy⟩, hxy⟩ := hmid
  have hfree : ∀ (g : Heap α) q, q ≠ p → free g p q = g q :=
    fun g q hq => Function.update_of_ne hq _ _
  have hout : ((xs ++ ys).map Prod.fst).Nodup := by rwa [List.map_append]
  have hnone : ∀ g : Heap α, (∀ q, h q = none → g q = none) → ∀ q, h q = none → free g p q = none := by
    intro g hg q hq
    by_cases hqp : q = p
    · rw [hqp]
      exact Function.update_self ..
    · rw [hfree g q hqp, hg q hq]
  cases xs using List.reverseRecOn with
  | nil =>
    -- the head of the list
    obtain rfl : head = some p := hleft
    obtain ⟨h', heq, hs, hkeeps, hsame⟩ := hright.setPrev (by simpa using hxy) none
    refine ⟨free h' p, node.next, ?_, ⟨?_, hout⟩, hnone h' hkeeps⟩
    · simp [LinkedLists.unlink, hnode, heq]
    · exact (hs.frame fun q hq => hfree h' q fun heq => hpy (heq ▸ hq)).mono fun _ _ => trivial
  | append_singleton xs cell _ =>
    obtain ⟨m, z⟩ := cell
    obtain ⟨hfront, before, hbefore, hval, hback, hnext⟩ := segment_middle.mp
      (show Segment h _ head (xs ++ (m, z) :: []) _ from hleft)
    rw [backFrom_concat] at hprev
    simp only [List.map_append, List.map_cons, List.map_nil, List.mem_append, List.mem_singleton,
      not_or] at hpx
    have hhead : head ≠ some p := by
      rintro rfl
      cases xs with
      | nil => exact hpx.2 (Option.some.inj hfront)
      | cons cell xs =>
        refine hpx.1 ?_
        rw [Option.some.inj hfront.1]
        simp
    rw [List.map_append, List.append_assoc] at hxy
    have hmid := List.nodup_middle.mp (show (xs.map Prod.fst ++ m :: ys.map Prod.fst).Nodup from hxy)
    rw [List.nodup_cons, List.mem_append, not_or] at hmid
    -- the node before points to what follows
    set g : Heap α := Function.update h m (some { before with next := node.next }) with hg
    have hgframe : ∀ q, q ≠ m → g q = h q := fun q hq => Function.update_of_ne hq _ _
    have hgkeeps : ∀ q, h q = none → g q = none := by
      intro q hq
      rw [hgframe q, hq]
      rintro rfl
      simp [hbefore] at hq
    have hbehind : Segment g (· = some p) node.next ys none :=
      hright.frame fun q hq => hgframe q fun heq => hmid.1.2 (heq ▸ hq)
    obtain ⟨h', heq, hs, hkeeps, hsame⟩ :=
      hbehind.setPrev (List.nodup_append.mp hmid.2).2.1 (some m)
    have hm : h' m = some { before with next := node.next } :=
      (hsame m hmid.1.2).trans (Function.update_self ..)
    have hjoined : Segment (free h' p) (fun _ => True) head (xs ++ [(m, z)] ++ ys) none := by
      rw [List.append_assoc]
      refine segment_middle.mpr ⟨?_, _, (hfree h' m fun heq => hpx.2 heq.symm).trans hm, hval,
        hback, ?_⟩
      · refine hfront.frame fun q hq => ?_
        have hqm : q ≠ m := fun heq => hmid.1.1 (heq ▸ hq)
        have hqy : q ∉ ys.map Prod.fst := by
          intro hmem
          exact (List.nodup_append.mp hmid.2).2.2 q hq q hmem rfl
        rw [hfree h' q fun heq => hpx.1 (heq ▸ hq), hsame q hqy, hgframe q hqm]
      · exact hs.frame fun q hq => hfree h' q fun heq => hpy (heq ▸ hq)
    refine ⟨free h' p, head, ?_, ⟨hjoined, hout⟩, hnone h' fun q hq => hkeeps q (hgkeeps q hq)⟩
    have hmodify : modify h node.prev (fun prev => { prev with next := node.next }) = some g := by
      rw [hprev]
      exact modify_eq hbefore _
    cases hnx : node.next with
    | none =>
      rw [hnx, modifyUnlessNull, if_pos rfl] at heq
      have hlast : modifyUnlessNull h node.prev (fun prev => { prev with next := none }) =
          some h' := by
        rw [modifyUnlessNull, if_neg (by simp [hprev]), ← heq, ← hmodify, hnx]
      simp [LinkedLists.unlink, hnode, hhead, hnx, hlast]
    | some q =>
      rw [hnx, modifyUnlessNull, if_neg (by simp), ← hprev] at heq
      rw [hnx] at hmodify
      simp [LinkedLists.unlink, hnode, hhead, hnx, hmodify, heq]

end Segments

end AflPlusPlus.LinkedLists
