import AflPlusPlus.CmpExtendEncoding
import AflPlusPlus.ColorizationSpec
import AflPlusPlus.RtnExtendEncoding

/-!
# Walks along the tainted positions

Both functions that try the operands of a comparison go through the positions of the input, and
along the list of regions from its end to its head. They visit the positions in the regions and say
at each of them how far its region reaches.
-/

namespace AflPlusPlus.Redqueen
open CheckedPrograms Colorization

/-! ## The walk -/

/-- A pointer to an element of the list of regions: those before it, from the nearest one to the
head, the element, and those behind it. -/
structure Cursor where
  before : List Tainted
  elem : Tainted
  behind : List Tainted

/-- `t->prev` -/
def Cursor.prev (t : Cursor) : Option Cursor :=
  match t.before with
  | [] => none
  | elem :: before => some ⟨before, elem, t.elem :: t.behind⟩

/-- `while (t->next) t = t->next;` -/
def lastElem (before : List Tainted) (elem : Tainted) : List Tainted → Cursor
  | [] => ⟨before, elem, []⟩
  | next :: behind => lastElem (elem :: before) next behind

section Walk
variable {m : Type → Type} [Monad m] (visit : ℕ → ℕ → m Bool)

/-- The loop over the positions from `idx` on: whether a visit finds something and leaves it. The
positions and lengths are those of `u32`. -/
def taintWalk : ℕ → ℕ → Option Cursor → m Bool
  | 0, _, _ => return false
  | n + 1, idx, none => taintWalk n (idx + 1) none
  | n + 1, idx, some t =>
    if idx < t.elem.pos then taintWalk n (idx + 1) (some t)
    else do
      let taintLen := (t.elem.pos + t.elem.len + (2 ^ 32 - idx)) % 2 ^ 32
      let next := if idx = (t.elem.pos + t.elem.len + (2 ^ 32 - 1)) % 2 ^ 32 then t.prev else some t
      if ← visit idx taintLen then return true else taintWalk n (idx + 1) next

/-- Visits in the order of a list, up to the one that finds something. -/
def visitAll : List (ℕ × ℕ) → m Bool
  | [] => return false
  | (idx, taintLen) :: places => do
    if ← visit idx taintLen then return true else visitAll places

end Walk

/-! ## The visits -/

section Visits
variable (f : Fuzzer)

def resetStatus : M Unit := modify fun s => { s with status := 0 }

/-- A call, and what follows when it finds nothing. -/
def orFound (call : M Unit) (rest : M Bool) : M Bool := do
  call
  if (← get).status = 1 then return true else rest

/-- The call at a position of the buffer. -/
def atPlace (idx taintLen : ℕ) (visit : Place f.len → M Bool) : M Bool :=
  if h : idx < f.len then visit ⟨idx, taintLen, h⟩ else return false

/-- `struct cmp_operands`, as far as it is used. -/
structure CmpOperands where
  v0 : BitVec 64
  v0128 : BitVec 64
  v1 : BitVec 64
  v1128 : BitVec 64

def CmpOperands.s128V0 (o : CmpOperands) : BitVec 128 := o.v0.setWidth 128 + (o.v0128.setWidth 128 <<< 64)
def CmpOperands.s128V1 (o : CmpOperands) : BitVec 128 := o.v1.setWidth 128 + (o.v1128.setWidth 128 <<< 64)

def SWAPA (x : BitVec 8) : BitVec 8 := (x &&& 0xf8) + ((x &&& 7) ^^^ 7)

/-- The calls of `cmp_fuzz` at a position, for one entry of the log. -/
def cmpVisit (depth : ℕ) (hattr : BitVec 8) (isN : Bool) (o origO : CmpOperands)
    (p : Place f.len) : M Bool := do
  let words := do
    orFound (onlyIf ((o.v0 ≠ origO.v0 ∨ LVL3 ≤ f.lvl) ∧ origO.v0 ≠ origO.v1)
      (cmpExtendEncoding f p depth ⟨o.v0, o.v1, origO.v0, origO.v1⟩ hattr true)) do
    resetStatus
    orFound (onlyIf ((o.v1 ≠ origO.v1 ∨ LVL3 ≤ f.lvl) ∧ origO.v0 ≠ origO.v1)
      (cmpExtendEncoding f p depth ⟨o.v1, o.v0, origO.v1, origO.v0⟩ (SWAPA hattr) true)) do
    return false
  resetStatus
  if isN then
    orFound (onlyIf (o.s128V0 ≠ origO.s128V0 ∧ origO.s128V0 ≠ origO.s128V1)
      (cmpExtendEncodingN f p ⟨o.s128V0, o.s128V1, origO.s128V0, origO.s128V1⟩ hattr true)) do
    orFound (onlyIf (o.s128V1 ≠ origO.s128V1 ∧ origO.s128V1 ≠ origO.s128V0)
      (cmpExtendEncodingN f p ⟨o.s128V1, o.s128V0, origO.s128V1, origO.s128V0⟩ (SWAPA hattr)
        true)) words
  else words

/-- The calls of `rtn_fuzz` at a position, for one entry of the log. -/
def rtnVisit (o origO : ByteWords.Mem) (left : Leftover) (p : Place f.len) : M Bool := do
  resetStatus
  orFound (rtnExtendEncoding f p ⟨0, o, origO⟩ left) do
  resetStatus
  orFound (rtnExtendEncoding f p ⟨1, o, origO⟩ left) do
  return false

/-- The walk of `cmp_fuzz` along the regions of a list that is not empty. -/
def cmpFuzzWalk (depth : ℕ) (hattr : BitVec 8) (isN : Bool) (o origO : CmpOperands)
    (taint : Tainted) (rest : List Tainted) : M Bool :=
  taintWalk (fun idx taintLen => atPlace f idx taintLen (cmpVisit f depth hattr isN o origO))
    f.len 0 (some (lastElem [] taint rest))

/-- The walk of `rtn_fuzz`. -/
def rtnFuzzWalk (o origO : ByteWords.Mem) (left : Leftover) (taint : Tainted)
    (rest : List Tainted) : M Bool :=
  taintWalk (fun idx taintLen => atPlace f idx taintLen (rtnVisit f o origO left))
    f.len 0 (some (lastElem [] taint rest))

end Visits

/-! ## What is visited -/

/-- The positions of a region, with the distance to its end. -/
def regionPlaces (t : Tainted) : List (ℕ × ℕ) :=
  (List.range t.len).map fun k => (t.pos + k, t.len - k)

/-- Those of a list of regions, from its end to its head. -/
def places (taint : List Tainted) : List (ℕ × ℕ) := taint.reverse.flatMap regionPlaces

section Places
variable {t : Tainted} {ts : List Tainted} {v : ℕ × ℕ} {len idx : ℕ}

theorem mem_regionPlaces : v ∈ regionPlaces t ↔
    (t.pos ≤ v.1 ∧ v.1 < t.pos + t.len) ∧ v.2 = t.pos + t.len - v.1 := by
  simp only [regionPlaces, List.mem_map, List.mem_range]
  constructor
  · rintro ⟨k, hk, rfl⟩
    dsimp only
    omega
  · rintro ⟨hin, hdist⟩
    refine ⟨v.1 - t.pos, by omega, Prod.ext ?_ ?_⟩
    · dsimp only
      omega
    · dsimp only
      omega

theorem mem_places : v ∈ places ts ↔
    ∃ t ∈ ts, (t.pos ≤ v.1 ∧ v.1 < t.pos + t.len) ∧ v.2 = t.pos + t.len - v.1 := by
  simp only [places, List.mem_flatMap, List.mem_reverse, mem_regionPlaces]

theorem regionPlaces_ascending (t : Tainted) :
    (regionPlaces t).Pairwise fun a b => a.1 < b.1 := by
  rw [regionPlaces, List.pairwise_map]
  apply List.pairwise_lt_range.imp
  intro a b hab
  exact Nat.add_lt_add_left hab t.pos

/-- Regions that follow each other have positions that do. -/
theorem flatMap_regionPlaces_ascending (hts : ts.Pairwise fun a b => a.pos + a.len ≤ b.pos) :
    (ts.flatMap regionPlaces).Pairwise fun a b => a.1 < b.1 := by
  rw [List.pairwise_flatMap]
  constructor
  · exact fun t _ => regionPlaces_ascending t
  · apply hts.imp
    intro a b hab v hv w hw
    rw [mem_regionPlaces] at hv hw
    omega

theorem places_ascending (h : Regions len ts) : (places ts).Pairwise fun a b => a.1 < b.1 :=
  flatMap_regionPlaces_ascending (List.pairwise_reverse.mpr h.descending)

/-- A position of an ascending list comes before the greater ones. -/
theorem filter_le_eq_cons {L : List (ℕ × ℕ)} (hL : L.Pairwise fun a b => a.1 < b.1) (hv : v ∈ L) :
    L.filter (fun w => v.1 ≤ w.1) = v :: L.filter fun w => v.1 + 1 ≤ w.1 := by
  induction L with
  | nil => exact absurd hv List.not_mem_nil
  | cons u L ih =>
    rw [List.pairwise_cons] at hL
    obtain rfl | hv := List.mem_cons.mp hv
    · rw [List.filter_cons_of_pos (by simp), List.filter_cons_of_neg (by simp)]
      congr 1
      apply List.filter_congr
      intro w hw
      have hlt := hL.1 w hw
      simp only [decide_eq_decide]
      omega
    · have hlt := hL.1 v hv
      rw [List.filter_cons_of_neg (by simpa using hlt), List.filter_cons_of_neg (by simp; omega)]
      exact ih hL.2 hv

end Places

section Walks
variable {m : Type → Type} [Monad m] {visit : ℕ → ℕ → m Bool} {n idx : ℕ} {t : Option Cursor}

/-- The regions from an element to the head. -/
def upFrom : Option Cursor → List Tainted
  | none => []
  | some t => t.elem :: t.before

theorem upFrom_prev (t : Cursor) : upFrom t.prev = t.before := by
  obtain ⟨before, elem, behind⟩ := t
  cases before with
  | nil => rfl
  | cons => rfl

theorem upFrom_lastElem (before : List Tainted) (elem : Tainted) (behind : List Tainted) :
    upFrom (some (lastElem before elem behind)) = behind.reverse ++ elem :: before := by
  induction behind generalizing before elem with
  | nil => rfl
  | cons next behind ih => rw [lastElem, ih, List.reverse_cons, List.append_assoc]; rfl

/-- Regions that are ahead of position `idx`, which may be in the first of them. -/
structure Ahead (idx stop : ℕ) (ts : List Tainted) : Prop where
  inside : ∀ r ∈ ts, 0 < r.len ∧ idx < r.pos + r.len ∧ r.pos + r.len ≤ stop
  ascending : ts.Pairwise fun a b => a.pos + a.len ≤ b.pos

theorem Ahead.later {stop : ℕ} {r : Tainted} {ts : List Tainted} (h : Ahead idx stop (r :: ts))
    (hlt : idx + 1 < r.pos + r.len) : Ahead (idx + 1) stop (r :: ts) := by
  constructor
  · intro u hu
    obtain rfl | hu' := List.mem_cons.mp hu
    · exact ⟨(h.inside u hu).1, hlt, (h.inside u hu).2.2⟩
    · have hbehind := (List.pairwise_cons.mp h.ascending).1 u hu'
      have hu := h.inside u hu
      exact ⟨hu.1, by omega, hu.2.2⟩
  · exact h.ascending

theorem Ahead.tail {stop : ℕ} {r : Tainted} {ts : List Tainted} (h : Ahead idx stop (r :: ts))
    (heq : idx + 1 = r.pos + r.len) : Ahead (idx + 1) stop ts := by
  constructor
  · intro u hu
    have hbehind := (List.pairwise_cons.mp h.ascending).1 u hu
    have hu := h.inside u (List.mem_cons_of_mem _ hu)
    exact ⟨hu.1, by omega, hu.2.2⟩
  · exact (List.pairwise_cons.mp h.ascending).2

/-- The walk visits the positions from `idx` on. -/
theorem taintWalk_eq (hlen : idx + n < 2 ^ 32) (h : Ahead idx (idx + n) (upFrom t)) :
    taintWalk visit n idx t =
      visitAll visit (((upFrom t).flatMap regionPlaces).filter fun v => idx ≤ v.1) := by
  induction n generalizing idx t with
  | zero =>
    have hnil : upFrom t = [] := by
      rw [List.eq_nil_iff_forall_not_mem]
      intro r hr
      have hr := h.inside r hr
      omega
    rw [hnil]
    rfl
  | succ n ih =>
    have hstop : idx + (n + 1) = idx + 1 + n := by omega
    rw [hstop] at h hlen
    cases t with
    | none =>
      rw [taintWalk, ih hlen ⟨fun r hr => absurd hr List.not_mem_nil, List.Pairwise.nil⟩]
      rfl
    | some t =>
      have helem := h.inside t.elem List.mem_cons_self
      rw [taintWalk]
      split
      · next hbefore =>
        rw [ih (t := some t) hlen (h.later (by omega))]
        congr 1
        apply List.filter_congr
        intro v hv
        obtain ⟨r, hr, hv⟩ := List.mem_flatMap.mp hv
        rw [mem_regionPlaces] at hv
        have hpos : t.elem.pos ≤ r.pos := by
          obtain rfl | hr := List.mem_cons.mp hr
          · exact le_rfl
          · have hbehind := (List.pairwise_cons.mp h.ascending).1 r hr
            omega
        simp only [decide_eq_decide]
        omega
      · next hin =>
        have hmem : (idx, t.elem.pos + t.elem.len - idx) ∈
            (upFrom (some t)).flatMap regionPlaces := by
          rw [List.mem_flatMap]
          refine ⟨t.elem, List.mem_cons_self, mem_regionPlaces.mpr ⟨⟨?_, ?_⟩, rfl⟩⟩
          · exact Nat.not_lt.mp hin
          · exact helem.2.1
        have htaintLen : (t.elem.pos + t.elem.len + (2 ^ 32 - idx)) % 2 ^ 32 =
            t.elem.pos + t.elem.len - idx := by omega
        have hend : (t.elem.pos + t.elem.len + (2 ^ 32 - 1)) % 2 ^ 32 =
            t.elem.pos + t.elem.len - 1 := by omega
        have hcons := filter_le_eq_cons (flatMap_regionPlaces_ascending h.ascending) hmem
        dsimp only at hcons ⊢
        rw [hcons, visitAll, htaintLen, hend]
        refine congrArg (visit idx _ >>= ·) (funext fun found => ?_)
        cases found with
        | true => rfl
        | false =>
          rw [if_neg Bool.false_ne_true, if_neg Bool.false_ne_true]
          split
          · next hlast =>
            have heq : idx + 1 = t.elem.pos + t.elem.len := by omega
            rw [ih hlen (by rw [upFrom_prev]; exact h.tail heq), upFrom_prev]
            refine congrArg (visitAll visit) ?_
            have hnone : (regionPlaces t.elem).filter (fun v => idx + 1 ≤ v.1) = [] := by
              rw [List.filter_eq_nil_iff]
              intro v hv
              rw [mem_regionPlaces] at hv
              simp only [decide_eq_true_eq]
              omega
            rw [upFrom, List.flatMap_cons, List.filter_append, hnone, List.nil_append]
          · next hmore => exact ih hlen (h.later (by omega))

/-- From the end of the list the walk visits all the positions. -/
theorem taintWalk_lastElem {len : ℕ} {elem : Tainted} {rest : List Tainted}
    (hlen : len < 2 ^ 32) (h : Regions len (elem :: rest)) :
    taintWalk visit len 0 (some (lastElem [] elem rest)) = visitAll visit (places (elem :: rest)) := by
  have hup : upFrom (some (lastElem [] elem rest)) = (elem :: rest).reverse := by
    rw [upFrom_lastElem, List.reverse_cons]
  have hahead : Ahead 0 (0 + len) (upFrom (some (lastElem [] elem rest))) := by
    rw [hup, Nat.zero_add]
    constructor
    · intro r hr
      have hr := h.inside r (List.mem_reverse.mp hr)
      omega
    · exact List.pairwise_reverse.mpr h.descending
  rw [taintWalk_eq (by omega) hahead, hup, places]
  refine congrArg (visitAll visit) (List.filter_eq_self.mpr ?_)
  intro v _
  exact decide_eq_true (Nat.zero_le v.1)

end Walks

/-- Both walks visit the tainted positions in ascending order, and no other positions. Each comes
with the distance to the end of its region. -/
theorem taintWalks_places (f : Fuzzer) (elem : Tainted) (rest : List Tainted)
    (hlen : f.len < 2 ^ 32) (h : Regions f.len (elem :: rest)) :
    ((places (elem :: rest)).map Prod.fst).Pairwise (· < ·) ∧
    (∀ p, p ∈ (places (elem :: rest)).map Prod.fst ↔ InRegions (elem :: rest) p) ∧
    (∀ v ∈ places (elem :: rest), ∃ t ∈ elem :: rest,
      (t.pos ≤ v.1 ∧ v.1 < t.pos + t.len) ∧ v.2 = t.pos + t.len - v.1) ∧
    (∀ depth hattr isN o origO, cmpFuzzWalk f depth hattr isN o origO elem rest =
      visitAll (fun idx taintLen => atPlace f idx taintLen (cmpVisit f depth hattr isN o origO))
        (places (elem :: rest))) ∧
    (∀ o origO left, rtnFuzzWalk f o origO left elem rest =
      visitAll (fun idx taintLen => atPlace f idx taintLen (rtnVisit f o origO left))
        (places (elem :: rest))) := by
  refine ⟨?_, ?_, ?_, ?_, ?_⟩
  · rw [List.pairwise_map]
    exact places_ascending h
  · intro p
    rw [List.mem_map, InRegions]
    constructor
    · rintro ⟨v, hv, rfl⟩
      obtain ⟨t, ht, hin, -⟩ := mem_places.mp hv
      exact ⟨t, ht, hin⟩
    · rintro ⟨t, ht, hin⟩
      exact ⟨(p, t.pos + t.len - p), mem_places.mpr ⟨t, ht, hin, rfl⟩, rfl⟩
  · exact fun v hv => mem_places.mp hv
  · exact fun _ _ _ _ _ => taintWalk_lastElem hlen h
  · exact fun _ _ _ => taintWalk_lastElem hlen h

/-- Two regions that touch, the second of one byte. -/
theorem taintWalks_places_adjacent :
    Regions (silent 4 LVL1).len [⟨3, 1⟩, ⟨1, 2⟩] ∧
    ∀ o origO left, rtnFuzzWalk (silent 4 LVL1) o origO left ⟨3, 1⟩ [⟨1, 2⟩] =
      visitAll (fun idx taintLen =>
        atPlace (silent 4 LVL1) idx taintLen (rtnVisit (silent 4 LVL1) o origO left))
        [(1, 2), (2, 1), (3, 1)] := by
  have h : Regions (silent 4 LVL1).len [⟨3, 1⟩, ⟨1, 2⟩] := by
    constructor
    · decide
    · simp
  exact ⟨h, (taintWalks_places (silent 4 LVL1) ⟨3, 1⟩ [⟨1, 2⟩] (by decide) h).2.2.2.2⟩

end AflPlusPlus.Redqueen
