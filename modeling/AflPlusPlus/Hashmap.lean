import AflPlusPlus.HeapCells

/-!
# The set of compared values

`hashmap.c` keeps pairs of a type and a key in chained buckets. Both are packed into one word: the
type takes three bits of the top byte, which are taken away from the key. A key of eight bytes has
bits there.
-/

namespace AflPlusPlus.Hashmap
open HeapCells

def tableSize : ℕ := 10007

/-- A `HashNode` is a cell with its key. The table is null before the first reset. -/
structure State where
  hashmap : Option (ℕ → Option ℕ)
  heap : Heap (BitVec 64)

def start : State := ⟨none, fun _ => none⟩

/-- The loops over the nodes of a bucket may be run `fuel` times. -/
def hashmapReset (fuel : ℕ) (s : State) : Option State :=
  match s.hashmap with
  | none => some { s with hashmap := some fun _ => none }
  | some table => do
    let heap ← (List.range tableSize).foldlM (fun heap i => freeChain fuel heap (table i)) s.heap
    some ⟨some fun _ => none, heap⟩

def hash (key : BitVec 64) : ℕ := key.toNat % tableSize

/-- The word that stands for a type and a key. -/
def pack (type : BitVec 8) (key : BitVec 64) : BitVec 64 :=
  (key &&& 0xf8ffffffffffffff#64) + (type.setWidth 64 <<< 56)

def hashmapSearchAndAdd (m : Malloc (Cell (BitVec 64))) (fuel : ℕ) (type : BitVec 8)
    (key : BitVec 64) (s : State) : Option (Bool × State) :=
  if type ≥ 8 then some (false, s)
  else do
    let val := pack type key
    let index := hash val
    let table ← s.hashmap
    if ← search s.heap val fuel (table index) then some (true, s)
    else
      let node := m.pick s.heap
      some (false, ⟨some (Function.update table index (some node)),
        Function.update s.heap node (some ⟨val, table index⟩)⟩)

inductive Op
  | reset
  | searchAndAdd (type : BitVec 8) (key : BitVec 64)
deriving DecidableEq

/-- One call after the other, as long as none of them fails. -/
def run (m : Malloc (Cell (BitVec 64))) (fuel : ℕ) : List Op → State → Option State
  | [], s => some s
  | .reset :: ops, s => (hashmapReset fuel s).bind (run m fuel ops)
  | .searchAndAdd type key :: ops, s =>
    (hashmapSearchAndAdd m fuel type key s).bind fun r => run m fuel ops r.2

/-! ## Packed words -/

/-- A type below 8 with a key that fits in one byte more than it says. -/
structure Pair where
  type : BitVec 8
  key : BitVec 64
  type_lt : type.toNat < 8
  fits : key.toNat < 256 ^ (type.toNat + 1)

/-- Two different keys of eight bytes that differ only in the bits that are taken for the type. -/
def Pair.Aliased (a b : Pair) : Prop :=
  a.type = 7 ∧ b.type = 7 ∧ a.key ≠ b.key ∧
    a.key &&& 0xf8ffffffffffffff#64 = b.key &&& 0xf8ffffffffffffff#64

section Pack
variable {type : BitVec 8} {key : BitVec 64} {i : ℕ}

theorem getLsbD_mask (hi : i < 64) :
    (0xf8ffffffffffffff#64).getLsbD i = decide (i < 56 ∨ 59 ≤ i) := by
  revert i
  decide

theorem getLsbD_type (htype : type.toNat < 8) (hi : 3 ≤ i) : type.getLsbD i = false := by
  have hpow : 2 ^ 3 ≤ 2 ^ i := Nat.pow_le_pow_right (by decide) hi
  exact Nat.testBit_lt_two_pow (htype.trans_le hpow)

/-- The bits of the key and those of the type do not meet. -/
theorem getLsbD_pack (htype : type.toNat < 8) (hi : i < 64) : (pack type key).getLsbD i =
    (key.getLsbD i && decide (i < 56 ∨ 59 ≤ i) || decide (56 ≤ i) && type.getLsbD (i - 56)) := by
  have hapart : (key &&& 0xf8ffffffffffffff#64) &&& (type.setWidth 64 <<< 56) = 0#64 := by
    apply BitVec.eq_of_getLsbD_eq
    intro j hj
    rw [BitVec.getLsbD_and, BitVec.getLsbD_and, getLsbD_mask hj, BitVec.getLsbD_shiftLeft,
      BitVec.getLsbD_setWidth]
    by_cases hlow : j < 56
    · simp [hlow]
    · by_cases hhigh : 59 ≤ j
      · rw [getLsbD_type htype (by omega : 3 ≤ j - 56)]
        simp
      · simp [hlow, hhigh]
  have hin : i - 56 < 64 := by omega
  rw [pack, BitVec.add_eq_or_of_and_eq_zero _ _ hapart, BitVec.getLsbD_or, BitVec.getLsbD_and,
    getLsbD_mask hi, BitVec.getLsbD_shiftLeft, BitVec.getLsbD_setWidth]
  by_cases hlow : i < 56
  · simp [hi, hlow, Nat.not_le.mpr hlow]
  · simp [hi, hin, hlow, Nat.not_lt.mp hlow]

theorem pack_and_mask (htype : type.toNat < 8) :
    pack type key &&& 0xf8ffffffffffffff#64 = key &&& 0xf8ffffffffffffff#64 := by
  apply BitVec.eq_of_getLsbD_eq
  intro i hi
  rw [BitVec.getLsbD_and, BitVec.getLsbD_and, getLsbD_pack htype hi, getLsbD_mask hi]
  by_cases hlow : i < 56
  · simp [hlow]
  · by_cases hhigh : 59 ≤ i
    · rw [getLsbD_type htype (by omega : 3 ≤ i - 56)]
      simp [hhigh]
    · simp [hlow, hhigh]

theorem type_of_pack (htype : type.toNat < 8) {j : ℕ} (hj : j < 3) :
    (pack type key).getLsbD (56 + j) = type.getLsbD j := by
  have hlow : ¬ 56 + j < 56 := by omega
  have hhigh : ¬ 59 ≤ 56 + j := by omega
  rw [getLsbD_pack htype (by omega), Nat.add_sub_cancel_left]
  simp [hhigh]

/-- A key of at most seven bytes is kept as it is. -/
theorem and_mask_of_lt (hkey : key.toNat < 2 ^ 56) : key &&& 0xf8ffffffffffffff#64 = key := by
  apply BitVec.eq_of_getLsbD_eq
  intro i hi
  rw [BitVec.getLsbD_and, getLsbD_mask hi]
  by_cases hlow : i < 56
  · simp [hlow]
  · have hpow : 2 ^ 56 ≤ 2 ^ i := Nat.pow_le_pow_right (by decide) (by omega)
    have hbit : key.getLsbD i = false := Nat.testBit_lt_two_pow (hkey.trans_le hpow)
    rw [hbit, Bool.false_and]

end Pack

/-- Two pairs have one word when they are equal or aliased. -/
theorem pack_eq_iff (a b : Pair) :
    pack a.type a.key = pack b.type b.key ↔ a.type = b.type ∧ a.key = b.key ∨ a.Aliased b := by
  constructor
  · intro h
    have htype : a.type = b.type := by
      apply BitVec.eq_of_getLsbD_eq
      intro j hj
      by_cases hlow : j < 3
      · rw [← type_of_pack a.type_lt hlow, h, type_of_pack b.type_lt hlow]
      · rw [getLsbD_type a.type_lt (by omega), getLsbD_type b.type_lt (by omega)]
    have hmask : a.key &&& 0xf8ffffffffffffff#64 = b.key &&& 0xf8ffffffffffffff#64 := by
      rw [← pack_and_mask a.type_lt, h, pack_and_mask b.type_lt]
    by_cases hkey : a.key = b.key
    · exact Or.inl ⟨htype, hkey⟩
    · by_cases hseven : a.type = 7
      · exact Or.inr ⟨hseven, htype ▸ hseven, hkey, hmask⟩
      · -- at most seven bytes
        have hlt : a.type.toNat < 7 := by
          have hle := a.type_lt
          have hne : a.type.toNat ≠ 7 := fun heq => hseven (BitVec.eq_of_toNat_eq heq)
          omega
        have hpow : 256 ^ (a.type.toNat + 1) ≤ 256 ^ 7 := Nat.pow_le_pow_right (by decide) hlt
        have ha : a.key.toNat < 2 ^ 56 := a.fits.trans_le hpow
        have hb : b.key.toNat < 2 ^ 56 := b.fits.trans_le (htype ▸ hpow)
        rw [and_mask_of_lt ha, and_mask_of_lt hb] at hmask
        exact absurd hmask hkey
  · rintro (⟨htype, hkey⟩ | ⟨ha, hb, -, hmask⟩)
    · rw [htype, hkey]
    · rw [pack, pack, ha, hb, hmask]

/-! ## The buckets -/

/-- The nodes of the table: each word of the set is in the chain of its bucket. -/
structure Holds (s : State) (table : ℕ → Option ℕ) (chains : ℕ → List (ℕ × BitVec 64))
    (vals : List (BitVec 64)) : Prop where
  hashmap_eq : s.hashmap = some table
  bounded : Bounded s.heap
  chain : ∀ i, Chain s.heap (table i) (chains i)
  nodup : ∀ i, ((chains i).map Prod.fst).Nodup
  apart : ∀ i j, i ≠ j → ∀ p ∈ (chains i).map Prod.fst, p ∉ (chains j).map Prod.fst
  owned : ∀ p, s.heap p ≠ none → ∃ i < tableSize, p ∈ (chains i).map Prod.fst
  mem_iff : ∀ i v, v ∈ (chains i).map Prod.snd ↔ v ∈ vals ∧ hash v = i
  length_le : ∀ i, (chains i).length ≤ vals.length

theorem hash_lt (key : BitVec 64) : hash key < tableSize := Nat.mod_lt _ (by decide)

variable {m : Malloc (Cell (BitVec 64))} {fuel : ℕ} {s : State} {table : ℕ → Option ℕ}
  {chains : ℕ → List (ℕ × BitVec 64)} {vals : List (BitVec 64)} {type : BitVec 8} {key : BitVec 64}

theorem holds_empty :
    Holds ⟨some fun _ => none, fun _ => none⟩ (fun _ => none) (fun _ => []) [] where
  hashmap_eq := rfl
  bounded := bounded_empty
  chain _ := rfl
  nodup _ := List.nodup_nil
  apart _ _ _ _ hp := absurd hp List.not_mem_nil
  owned _ hp := absurd rfl hp
  mem_iff i v := by simp
  length_le _ := le_rfl

/-- A word that is there already may be counted once more. -/
theorem Holds.again (h : Holds s table chains vals) {val : BitVec 64} (hval : val ∈ vals) :
    Holds s table chains (val :: vals) where
  __ := h
  mem_iff i v := by
    have hsame : v ∈ val :: vals ↔ v ∈ vals := by
      rw [List.mem_cons, or_iff_right_of_imp]
      rintro rfl
      exact hval
    rw [h.mem_iff, hsame]
  length_le i := (h.length_le i).trans (Nat.le_succ _)

/-- A new node goes in front of the chain of its bucket. -/
theorem Holds.insert (h : Holds s table chains vals) {val : BitVec 64} {node : ℕ}
    (hfree : s.heap node = none) :
    Holds ⟨some (Function.update table (hash val) (some node)),
        Function.update s.heap node (some ⟨val, table (hash val)⟩)⟩
      (Function.update table (hash val) (some node))
      (Function.update chains (hash val) ((node, val) :: chains (hash val))) (val :: vals) := by
  have hfresh : ∀ i, node ∉ (chains i).map Prod.fst :=
    fun i hmem => (h.chain i).allocated hmem hfree
  have hkept : ∀ i, Chain (Function.update s.heap node (some ⟨val, table (hash val)⟩)) (table i)
      (chains i) := by
    intro i
    refine (h.chain i).frame fun p hp => Function.update_of_ne ?_ _ _
    exact ne_of_mem_of_not_mem hp (hfresh i)
  constructor
  case hashmap_eq => rfl
  case bounded => exact h.bounded.update _ _
  case chain =>
    intro i
    by_cases hi : i = hash val
    · subst hi
      rw [Function.update_self, Function.update_self]
      exact ⟨rfl, _, Function.update_self .., hkept _⟩
    · rw [Function.update_of_ne hi, Function.update_of_ne hi]
      exact hkept i
  case nodup =>
    intro i
    by_cases hi : i = hash val
    · subst hi
      rw [Function.update_self, List.map_cons, List.nodup_cons]
      exact ⟨hfresh _, h.nodup _⟩
    · rw [Function.update_of_ne hi]
      exact h.nodup i
  case apart =>
    intro i j hij p hp
    by_cases hi : i = hash val
    · subst hi
      rw [Function.update_self, List.map_cons, List.mem_cons] at hp
      rw [Function.update_of_ne hij.symm]
      rcases hp with rfl | hp
      · exact hfresh j
      · exact h.apart _ j hij p hp
    · rw [Function.update_of_ne hi] at hp
      by_cases hj : j = hash val
      · subst hj
        rw [Function.update_self, List.map_cons, List.mem_cons, not_or]
        exact ⟨ne_of_mem_of_not_mem hp (hfresh i), h.apart i _ hij p hp⟩
      · rw [Function.update_of_ne hj]
        exact h.apart i j hij p hp
  case owned =>
    intro p hp
    by_cases hnode : p = node
    · refine ⟨hash val, hash_lt val, ?_⟩
      rw [Function.update_self, hnode]
      exact List.mem_cons_self
    · dsimp only at hp
      rw [Function.update_of_ne hnode] at hp
      obtain ⟨i, hi, hmem⟩ := h.owned p hp
      refine ⟨i, hi, ?_⟩
      by_cases hii : i = hash val
      · subst hii
        rw [Function.update_self]
        exact List.mem_cons_of_mem _ hmem
      · rw [Function.update_of_ne hii]
        exact hmem
  case mem_iff =>
    intro i v
    by_cases hi : i = hash val
    · subst hi
      rw [Function.update_self, List.map_cons, List.mem_cons, List.mem_cons, h.mem_iff]
      constructor
      · rintro (rfl | ⟨hv, hhash⟩)
        · exact ⟨Or.inl rfl, rfl⟩
        · exact ⟨Or.inr hv, hhash⟩
      · rintro ⟨hv, hhash⟩
        exact hv.imp_right fun hv => ⟨hv, hhash⟩
    · rw [Function.update_of_ne hi, h.mem_iff, List.mem_cons]
      refine and_congr_left fun hhash => (or_iff_right ?_).symm
      rintro rfl
      exact hi hhash.symm
  case length_le =>
    intro i
    by_cases hi : i = hash val
    · subst hi
      rw [Function.update_self]
      exact Nat.succ_le_succ (h.length_le _)
    · rw [Function.update_of_ne hi]
      exact (h.length_le i).trans (Nat.le_succ _)

/-- A word is found when it is in the set, and is added otherwise. -/
theorem Holds.searchAndAdd (h : Holds s table chains vals) (m : Malloc (Cell (BitVec 64)))
    (key : BitVec 64) (htype : type.toNat < 8) (hfuel : vals.length < fuel) : ∃ t table' chains',
      hashmapSearchAndAdd m fuel type key s = some (decide (pack type key ∈ vals), t) ∧
        Holds t table' chains' (pack type key :: vals) := by
  have hnot : ¬ type ≥ 8 := Nat.not_le.mpr htype
  have hsearch := (h.chain (hash (pack type key))).search (pack type key)
    ((h.length_le _).trans_lt hfuel)
  have hfound : decide (pack type key ∈ (chains (hash (pack type key))).map Prod.snd) =
      decide (pack type key ∈ vals) := by
    apply decide_eq_decide.mpr
    rw [h.mem_iff]
    exact and_iff_left rfl
  rw [hfound] at hsearch
  rw [hashmapSearchAndAdd, if_neg hnot]
  simp only [h.hashmap_eq, Option.bind_eq_bind, Option.bind_some, hsearch]
  by_cases hmem : pack type key ∈ vals
  · refine ⟨s, table, chains, ?_, h.again hmem⟩
    rw [if_pos (decide_eq_true hmem), decide_eq_true hmem]
  · refine ⟨_, _, _, ?_, h.insert (m.pick_free _ h.bounded)⟩
    rw [if_neg (by rwa [decide_eq_true_iff]), decide_eq_false hmem]

/-- The buckets are freed one after the other, each chain as a whole. -/
theorem Holds.free (h : Holds s table chains vals) (hfuel : vals.length < fuel) (n : ℕ) :
    (List.range n).foldlM (fun heap i => freeChain fuel heap (table i)) s.heap =
      some fun p => if ∃ i < n, p ∈ (chains i).map Prod.fst then none else s.heap p := by
  induction n with
  | zero =>
    have hnone : ∀ p, ¬ ∃ i < 0, p ∈ (chains i).map Prod.fst :=
      fun p ⟨i, hi, _⟩ => Nat.not_lt_zero i hi
    simp only [hnone, if_false]
    rfl
  | succ n ih =>
    rw [List.range_succ, List.foldlM_append, ih]
    have hkept : Chain (fun p => if ∃ i < n, p ∈ (chains i).map Prod.fst then none else s.heap p)
        (table n) (chains n) := by
      refine (h.chain n).frame fun p hp => if_neg ?_
      rintro ⟨i, hi, hmem⟩
      exact h.apart i n hi.ne p hmem hp
    have hfree := hkept.free (h.nodup n) ((h.length_le n).trans_lt hfuel)
    rw [Option.bind_eq_bind, Option.bind_some, List.foldlM_cons, hfree, Option.bind_eq_bind,
      Option.bind_some, List.foldlM_nil]
    refine congrArg some (funext fun p => ?_)
    by_cases hn : p ∈ (chains n).map Prod.fst
    · rw [if_pos hn, if_pos ⟨n, Nat.lt_succ_self n, hn⟩]
    · rw [if_neg hn]
      refine if_congr ?_ rfl rfl
      constructor
      · exact fun ⟨i, hi, hmem⟩ => ⟨i, Nat.lt_succ_of_lt hi, hmem⟩
      · rintro ⟨i, hi, hmem⟩
        refine ⟨i, Nat.lt_of_le_of_ne (Nat.le_of_lt_succ hi) ?_, hmem⟩
        rintro rfl
        exact hn hmem

/-- The table is empty afterwards, and no node is left. -/
theorem Holds.reset (h : Holds s table chains vals) (hfuel : vals.length < fuel) :
    hashmapReset fuel s = some ⟨some fun _ => none, fun _ => none⟩ := by
  have hnone : (fun p => if ∃ i < tableSize, p ∈ (chains i).map Prod.fst then none else s.heap p) =
      fun _ => none := by
    funext p
    by_cases hp : s.heap p = none
    · rw [hp, ite_self]
    · exact if_pos (h.owned p hp)
  rw [hashmapReset, h.hashmap_eq]
  simp only [h.free hfuel, hnone, Option.bind_eq_bind, Option.bind_some]

/-! ## Runs -/

/-- Either there was no reset yet, or the table holds at most `n` words. -/
def Reached (n : ℕ) (s : State) : Prop :=
  s = start ∨ ∃ table chains vals, Holds s table chains vals ∧ vals.length ≤ n

theorem Reached.mono {n k : ℕ} (h : Reached n s) (hnk : n ≤ k) : Reached k s := by
  obtain rfl | ⟨table, chains, vals, hs, hlen⟩ := h
  · exact Or.inl rfl
  · exact Or.inr ⟨table, chains, vals, hs, hlen.trans hnk⟩

theorem Reached.reset {n : ℕ} (h : Reached n s) (hfuel : n < fuel) :
    hashmapReset fuel s = some ⟨some fun _ => none, fun _ => none⟩ := by
  obtain rfl | ⟨table, chains, vals, hs, hlen⟩ := h
  · rfl
  · exact hs.reset (hlen.trans_lt hfuel)

theorem Reached.searchAndAdd {n : ℕ} (h : Reached n s) (hfuel : n < fuel) {r : Bool × State}
    (hcall : hashmapSearchAndAdd m fuel type key s = some r) : Reached (n + 1) r.2 := by
  by_cases hlarge : type ≥ 8
  · rw [hashmapSearchAndAdd, if_pos hlarge, Option.some_inj] at hcall
    rw [← hcall]
    exact h.mono (Nat.le_succ n)
  · obtain rfl | ⟨table, chains, vals, hs, hlen⟩ := h
    · rw [hashmapSearchAndAdd, if_neg hlarge] at hcall
      exact absurd hcall (Option.some_ne_none r).symm
    · obtain ⟨t, table', chains', heq, ht⟩ :=
        hs.searchAndAdd m key (Nat.not_le.mp hlarge) (hlen.trans_lt hfuel)
      rw [heq, Option.some_inj] at hcall
      rw [← hcall]
      exact Or.inr ⟨_, _, _, ht, Nat.succ_le_succ hlen⟩

theorem Reached.run {n : ℕ} {ops : List Op} {t : State} (h : Reached n s)
    (hfuel : n + ops.length < fuel) (hrun : run m fuel ops s = some t) :
    Reached (n + ops.length) t := by
  induction ops generalizing n s with
  | nil =>
    rw [Hashmap.run, Option.some_inj] at hrun
    exact hrun ▸ h
  | cons op ops ih =>
    rw [List.length_cons] at hfuel ⊢
    have hless : n < fuel := by omega
    cases op with
    | reset =>
      rw [Hashmap.run, h.reset hless, Option.bind_some] at hrun
      have hempty : Reached n ⟨some fun _ => none, fun _ => none⟩ :=
        Or.inr ⟨_, _, _, holds_empty, Nat.zero_le n⟩
      exact (ih hempty (by omega) hrun).mono (by omega)
    | searchAndAdd type key =>
      rw [Hashmap.run, Option.bind_eq_some_iff] at hrun
      obtain ⟨r, hcall, hrest⟩ := hrun
      exact (ih (h.searchAndAdd hless hcall) (by omega) hrest).mono (by omega)

/-- The call that a pair stands for. -/
def Pair.op (a : Pair) : Op := .searchAndAdd a.type a.key

def Pair.word (a : Pair) : BitVec 64 := pack a.type a.key

theorem Holds.run (h : Holds s table chains vals) (m : Malloc (Cell (BitVec 64)))
    (calls : List Pair) (hfuel : vals.length + calls.length < fuel) : ∃ t table' chains',
      run m fuel (calls.map Pair.op) s = some t ∧
        Holds t table' chains' ((calls.map Pair.word).reverse ++ vals) := by
  induction calls generalizing s table chains vals with
  | nil => exact ⟨s, table, chains, rfl, h⟩
  | cons call calls ih =>
    rw [List.length_cons] at hfuel
    obtain ⟨s', table', chains', hcall, hs'⟩ :=
      h.searchAndAdd m call.key call.type_lt (by omega : vals.length < fuel)
    obtain ⟨t, table'', chains'', hrun, ht⟩ := ih hs' (by rw [List.length_cons]; omega)
    refine ⟨t, table'', chains'', ?_, ?_⟩
    · rw [List.map_cons, Pair.op, Hashmap.run, hcall, Option.bind_some, hrun]
    · rw [List.map_cons, List.reverse_cons, List.append_assoc]
      exact ht

/-- After a reset and some calls, a pair is found when a pair with the same word was passed since
the reset. -/
theorem searchAndAdd_since_reset (m : Malloc (Cell (BitVec 64))) {before : List Op}
    (hrun : run m fuel before start = some s) (calls : List Pair) (call : Pair)
    (hfuel : before.length + calls.length < fuel) :
    ∃ s' t, run m fuel (.reset :: calls.map Pair.op) s = some s' ∧
      hashmapSearchAndAdd m fuel call.type call.key s' =
        some (decide (∃ c ∈ calls, c.word = call.word), t) := by
  have hstart : Reached 0 start := Or.inl rfl
  have hbefore : 0 + before.length < fuel := by omega
  have hs : Reached (0 + before.length) s := hstart.run hbefore hrun
  have hempty : ([] : List (BitVec 64)).length + calls.length < fuel := by
    rw [List.length_nil]
    omega
  obtain ⟨s', table, chains, hcalls, hs'⟩ := holds_empty.run m calls hempty
  have hvals : ((calls.map Pair.word).reverse ++ []).length < fuel := by
    rw [List.append_nil, List.length_reverse, List.length_map]
    omega
  obtain ⟨t, -, -, hcall, -⟩ := hs'.searchAndAdd m call.key call.type_lt hvals
  refine ⟨s', t, ?_, ?_⟩
  · rw [Hashmap.run, hs.reset (by omega), Option.bind_some, hcalls]
  · rw [hcall, List.append_nil]
    have hmem : pack call.type call.key ∈ (calls.map Pair.word).reverse ↔
        ∃ c ∈ calls, c.word = call.word := by
      rw [List.mem_reverse, List.mem_map]
      rfl
    rw [decide_eq_decide.mpr hmem]

/-- A call returns true exactly for a pair that was passed since the reset, unless it was not passed
and another key of eight bytes was that differs only in the bits taken for the type. -/
theorem searchAndAdd_iff (m : Malloc (Cell (BitVec 64))) (fuel : ℕ) (before : List Op) (s : State)
    (hrun : run m fuel before start = some s) (calls : List Pair) (call : Pair)
    (hfuel : before.length + calls.length < fuel) :
    ∃ s' r t, run m fuel (.reset :: calls.map Pair.op) s = some s' ∧
      hashmapSearchAndAdd m fuel call.type call.key s' = some (r, t) ∧
      ((r = true ↔ ∃ c ∈ calls, c.type = call.type ∧ c.key = call.key) ↔
        ((∃ c ∈ calls, c.type = call.type ∧ c.key = call.key) ∨
          ¬ ∃ c ∈ calls, c.Aliased call)) := by
  obtain ⟨s', t, hcalls, hcall⟩ := searchAndAdd_since_reset m hrun calls call hfuel
  refine ⟨s', _, t, hcalls, hcall, ?_⟩
  have hword : (∃ c ∈ calls, c.word = call.word) ↔
      (∃ c ∈ calls, c.type = call.type ∧ c.key = call.key) ∨ ∃ c ∈ calls, c.Aliased call := by
    simp only [Pair.word, pack_eq_iff, and_or_left, exists_or]
  rw [decide_eq_true_iff, hword]
  by_cases hseen : ∃ c ∈ calls, c.type = call.type ∧ c.key = call.key
  · exact iff_of_true (iff_of_true (Or.inl hseen) hseen) (Or.inl hseen)
  · rw [or_iff_right hseen, or_iff_right hseen]
    exact iff_false_right hseen

/-- A key of one byte. -/
def letter : Pair := ⟨0, 65, by decide, by decide⟩

/-- Keys of eight bytes that differ only in bit 56. -/
def wide (bit : Bool) : Pair :=
  ⟨7, if bit then 0x0100000000000000#64 else 0, by decide, by cases bit <;> decide⟩

theorem searchAndAdd_iff_twice : ∃ s' r t,
    run firstFree 2 (.reset :: [letter].map Pair.op) start = some s' ∧
      hashmapSearchAndAdd firstFree 2 letter.type letter.key s' = some (r, t) ∧ r = true := by
  obtain ⟨s', r, t, hrun, hcall, hiff⟩ :=
    searchAndAdd_iff firstFree 2 [] start rfl [letter] letter (by decide)
  have hseen : ∃ c ∈ [letter], c.type = letter.type ∧ c.key = letter.key :=
    ⟨letter, List.mem_singleton_self _, rfl, rfl⟩
  exact ⟨s', r, t, hrun, hcall, (hiff.mpr (Or.inl hseen)).mpr hseen⟩

theorem before_empty (fuel : ℕ) : run firstFree fuel [] start = some start := rfl

/-- The second key was never passed and is found. -/
theorem searchAndAdd_aliased : ∃ s' t,
    run firstFree 2 (.reset :: [wide false].map Pair.op) start = some s' ∧
      hashmapSearchAndAdd firstFree 2 (wide true).type (wide true).key s' = some (true, t) ∧
        ¬ ∃ c ∈ [wide false], c.type = (wide true).type ∧ c.key = (wide true).key := by
  obtain ⟨s', t, hrun, hcall⟩ := searchAndAdd_since_reset firstFree (before_empty 2)
    [wide false] (wide true) (by decide)
  have hword : (wide false).word = (wide true).word := by decide
  have hfound : ∃ c ∈ [wide false], c.word = (wide true).word :=
    ⟨_, List.mem_singleton_self _, hword⟩
  refine ⟨s', t, hrun, ?_, ?_⟩
  · rw [hcall, decide_eq_true hfound]
  · rintro ⟨c, hc, -, hkey⟩
    rw [List.mem_singleton.mp hc] at hkey
    exact absurd hkey (by decide)

end AflPlusPlus.Hashmap
