import AflPlusPlus.ExtractAndSetEnv

/-!
# Pairs of names and values in one string

A string of pairs, each with its value quoted or not, is taken apart again: every pair is set, in
order.
-/

namespace AflPlusPlus.ExtractAndSetEnv
open ByteWords CheckedBlocks BlockTexts CkAlloc TextLines

/-! ## Spellings -/

def isNameStart (c : Byte) : Bool :=
  (chr 'A' ≤ c && c ≤ chr 'Z') || (chr 'a' ≤ c && c ≤ chr 'z') || c == chr '_'

def isQuote (c : Byte) : Bool := c == chr '\'' || c == chr '"'

/-- How a value may be written: between quotes that it does not contain, or as it is. -/
def Spells (value : List Byte) : Option Byte → Prop
  | some q => isQuote q ∧ q ∉ value
  | none => chr ' ' ∉ value ∧ ∃ c cs, value = c :: cs ∧ ¬ isQuote c

structure Pair where
  first : Byte
  others : List Byte
  value : List Byte
  quote : Option Byte
  first_start : isNameStart first
  others_part : ∀ c ∈ others, isNameStart c ∨ isdigit c
  value_zero : 0 ∉ value
  spells : Spells value quote

def Pair.name (a : Pair) : List Byte := a.first :: a.others

def Pair.valueText (a : Pair) : List Byte :=
  match a.quote with
  | some q => q :: (a.value ++ [q])
  | none => a.value

def Pair.text (a : Pair) : List Byte := a.name ++ chr '=' :: a.valueText

def blanks (n : ℕ) : List Byte := List.replicate n (chr ' ')

/-- The pairs with one more blank between them than the number says. -/
def joined (first : Pair) : List (ℕ × Pair) → ℕ → List Byte
  | [], trailing => first.text ++ blanks trailing
  | (k, next) :: others, trailing =>
    first.text ++ chr ' ' :: (blanks k ++ joined next others trailing)

/-! ## The loops over characters -/

section Scans
variable {p : Block Byte} {i n fuel last : ℕ} {c closingSym : Byte} {cs name value : List Byte}

theorem skipBlanks_eq (h : At p i (blanks n ++ c :: cs)) (hc : c ≠ chr ' ') (hfuel : n < fuel) :
    skipBlanks p fuel i = .ok (i + n) := by
  induction n generalizing i fuel with
  | zero =>
    cases fuel with
    | zero => exact absurd hfuel (Nat.not_lt_zero _)
    | succ fuel =>
      have hload : p.load i = some c := h.head
      simp [skipBlanks, hload, checked, bind, Except.bind, hc]
  | succ n ih =>
    cases fuel with
    | zero => exact absurd hfuel (Nat.not_lt_zero _)
    | succ fuel =>
      have hload : p.load i = some (chr ' ') := h.head
      have hrest := ih h.tail (Nat.lt_of_succ_lt_succ hfuel)
      simp [skipBlanks, hload, checked, bind, Except.bind, hrest]
      omega

theorem nameChar_ne {c : Byte} (hc : isNameChar c) : ¬(c = chr '=' ∨ c = chr ' ') := by
  revert c
  decide +kernel

theorem isNameChar_of_part {c : Byte} (hc : isNameStart c ∨ isdigit c) : isNameChar c := by
  revert c
  decide +kernel

theorem scanName_eq (h : At p i (name ++ chr '=' :: cs)) (hname : ∀ c ∈ name, isNameChar c)
    (hlast : i + name.length ≤ last) (hfuel : name.length < fuel) :
    scanName p last fuel i = .ok (some (i + name.length)) := by
  induction name generalizing i fuel with
  | nil =>
    cases fuel with
    | zero => exact absurd hfuel (Nat.not_lt_zero _)
    | succ fuel =>
      have hload : p.load i = some (chr '=') := h.head
      simp [scanName, hload, checked, bind, Except.bind]
  | cons c name ih =>
    rw [List.forall_mem_cons] at hname
    rw [List.length_cons] at hlast hfuel
    cases fuel with
    | zero => exact absurd hfuel (Nat.not_lt_zero _)
    | succ fuel =>
      have hload : p.load i = some c := h.head
      have hrest := ih h.tail hname.2 (by omega) (Nat.lt_of_succ_lt_succ hfuel)
      rw [scanName, if_pos (by omega), hload]
      simp only [checked, bind, Except.bind]
      rw [if_neg (nameChar_ne hname.1), if_pos hname.1, hrest, List.length_cons]
      congr 2
      omega

/-- The loop stops at the closing symbol, or at the end of the string. -/
theorem scanValue_eq (h : At p i (value ++ c :: cs)) (hvalue : closingSym ∉ value)
    (hlast : i + value.length ≤ last) (hstop : c = closingSym ∨ i + value.length = last)
    (hfuel : value.length < fuel) :
    scanValue p last closingSym fuel i = .ok (i + value.length) := by
  induction value generalizing i fuel with
  | nil =>
    cases fuel with
    | zero => exact absurd hfuel (Nat.not_lt_zero _)
    | succ fuel =>
      have hload : p.load i = some c := h.head
      rw [scanValue]
      split
      · next hin =>
        have hc : c = closingSym := hstop.resolve_right hin.ne
        simp [hload, checked, bind, Except.bind, hc]
      · rfl
  | cons d value ih =>
    rw [List.mem_cons, not_or] at hvalue
    rw [List.length_cons] at hlast hstop hfuel
    cases fuel with
    | zero => exact absurd hfuel (Nat.not_lt_zero _)
    | succ fuel =>
      have hload : p.load i = some d := h.head
      have hrest := ih h.tail hvalue.2 (by omega) (hstop.imp_right (by omega))
        (Nat.lt_of_succ_lt_succ hfuel)
      rw [scanValue, if_pos (by omega), hload]
      simp only [checked, bind, Except.bind]
      rw [if_neg (Ne.symm hvalue.1), hrest, List.length_cons]
      congr 1
      omega

end Scans

/-! ## One pair -/

section Pair
variable {s : State} {fuel last key : ℕ} {name value cs tail : List Byte} {c : Byte}

/-- The text is still to be read; after it the string ends. -/
def Ready (last : ℕ) (s : State) (text : List Byte) : Prop :=
  At s.p s.rest (text ++ [0]) ∧ s.rest + text.length = last

/-- What is left behind a pair: the text after it, without the blank that was taken for the
terminator of a value. -/
def Left (last : ℕ) (s : State) (tail : List Byte) : Prop :=
  Ready last s tail ∨ (∃ tail', tail = chr ' ' :: tail' ∧ Ready last s tail') ∨
    (tail = [] ∧ last ≤ s.rest)

/-- The call for a pair was made. -/
def Called (s t : State) (name value : List Byte) : Prop :=
  t.env = s.env ++ [(name, value)] ∧ t.numPairs = s.numPairs + 1

theorem setValue_eq (fuel last key : ℕ) (s : State) (hname : At s.p key (name ++ [0]))
    (hzero : 0 ∉ name)
    (hkey : key + name.length < s.rest) (h : At s.p s.rest (value ++ c :: cs))
    (hvalue : s.closingSym ∉ value) (hvalueZero : 0 ∉ value)
    (hlast : s.rest + value.length ≤ last)
    (hstop : c = s.closingSym ∨ s.closingSym = chr ' ' ∧ s.rest + value.length = last)
    (hfuel : value.length < fuel) : ∃ t, setValue fuel last key s.rest s = .ok (.again t) ∧
      t.rest = s.rest + value.length + 1 ∧ At t.p t.rest cs ∧ Called s t name value := by
  have hscan := scanValue_eq h hvalue hlast (hstop.imp_right And.right) hfuel
  obtain ⟨htext, hend⟩ := at_append.mp h
  have hload : s.p.load (s.rest + value.length) = some c := hend.head
  have hstore := Block.store_eq hend.lt_size (0 : Byte)
  generalize hp : ({ s.p with cell := Function.update s.p.cell (s.rest + value.length) 0 } :
    Block Byte) = p at hstore
  -- both strings are in the copy when they are read
  have hnameAt : stringAt p 0 key = some name := by
    refine stringAt_eq (hname.store hstore (Or.inr ?_)) hzero
    rw [List.length_append, List.length_singleton]
    omega
  have hvalueAt : stringAt p 0 s.rest = some value := by
    have hkept := htext.store hstore (Or.inr le_rfl)
    exact stringAt_terminated (at_append.mpr ⟨hkept, load_store_self hstore, trivial⟩) hvalueZero
  have hrest : At p (s.rest + value.length + 1) cs :=
    hend.tail.store hstore (Or.inl (Nat.lt_succ_self _))
  refine ⟨⟨p, s.rest + value.length + 1, s.closingSym, s.numPairs + 1, s.env ++ [(name, value)]⟩,
    ?_, rfl, hrest, rfl, rfl⟩
  rw [setValue, hscan]
  simp only [bind, Except.bind, hload, checked, hstore, hnameAt, hvalueAt]
  rw [if_neg]
  rintro ⟨hquote, hne⟩
  exact hstop.elim hne fun hblank => hquote hblank.1

theorem quote_ne {q : Byte} (hq : isQuote q) : q ≠ chr ' ' ∧ q ≠ 0 := by
  revert q
  decide +kernel

theorem isQuote_iff {c : Byte} : isQuote c = true ↔ c = chr '\'' ∨ c = chr '"' := by
  rw [isQuote, Bool.or_eq_true, beq_iff_eq, beq_iff_eq]

/-- From the end of the name on, the value is read and the pair is set. -/
theorem openValue_eq (a : Pair) (s : State) (hname : At s.p key a.name)
    (hrest : s.rest = key + a.name.length) (hzero : 0 ∉ a.name) (h : Ready last s (chr '=' :: (a.valueText ++ tail)))
    (htail : tail = [] ∨ ∃ tail', tail = chr ' ' :: tail') (hfuel : a.value.length < fuel) :
    ∃ t, openValue fuel last key s = .ok (.again t) ∧ Left last t tail ∧
      Called s t a.name a.value := by
  obtain ⟨hat, hlen⟩ := h
  rw [List.cons_append] at hat
  have hload : s.p.load s.rest = some (chr '=') := hat.head
  have hstore := Block.store_eq hat.lt_size (0 : Byte)
  generalize hp : ({ s.p with cell := Function.update s.p.cell s.rest 0 } : Block Byte) = p
    at hstore
  have hnameAt : At p key (a.name ++ [0]) := by
    refine at_append.mpr ⟨hname.store hstore (Or.inr hrest.ge), ?_, trivial⟩
    rw [← hrest]
    exact load_store_self hstore
  have hvalueAt : At p (s.rest + 1) (a.valueText ++ tail ++ [0]) :=
    hat.tail.store hstore (Or.inl (Nat.lt_succ_self _))
  have hspells := a.spells
  rw [openValue, hload]
  simp only [checked, bind, Except.bind, hstore]
  rw [if_neg (not_not.mpr rfl)]
  cases hquote : a.quote with
  | some q =>
    obtain ⟨hq, hnot⟩ : isQuote q ∧ q ∉ a.value := by
      rw [hquote] at hspells
      exact hspells
    rw [Pair.valueText, hquote] at hvalueAt hlen
    simp only [List.cons_append, List.append_assoc, List.length_cons, List.length_append,
      List.length_nil] at hvalueAt hlen
    have hopen : p.load (s.rest + 1) = some q := hvalueAt.head
    obtain ⟨t, heq, htrest, htat, hcalled⟩ := setValue_eq fuel last key
      { s with p := p, rest := s.rest + 1 + 1, closingSym := q } hnameAt hzero
      (by simp only; omega) hvalueAt.tail hnot a.value_zero (by simp only; omega) (Or.inl rfl) hfuel
    refine ⟨t, ?_, Or.inl ⟨htat, ?_⟩, hcalled⟩
    · rw [if_neg (by omega), hopen]
      simp only
      rw [if_neg (quote_ne hq).1, if_pos (isQuote_iff.mp hq), if_neg (by omega)]
      exact heq
    · rw [htrest]
      simp only
      omega
  | none =>
    obtain ⟨hblank, d, ds, hvalue, hd⟩ :
        chr ' ' ∉ a.value ∧ ∃ c cs, a.value = c :: cs ∧ ¬ isQuote c := by
      rw [hquote] at hspells
      exact hspells
    rw [Pair.valueText, hquote] at hvalueAt hlen
    simp only [List.append_assoc, List.length_cons, List.length_append] at hvalueAt hlen
    have hopen : p.load (s.rest + 1) = some d := by
      rw [hvalue] at hvalueAt
      exact hvalueAt.head
    have hdblank : d ≠ chr ' ' := by
      rintro rfl
      exact hblank (hvalue ▸ List.mem_cons_self)
    have hpos : 0 < a.value.length := by
      rw [hvalue]
      exact Nat.succ_pos _
    have hopens : ¬(d = chr '\'' ∨ d = chr '"') := fun h => hd (isQuote_iff.mpr h)
    rw [if_neg (by omega), hopen]
    simp only
    rw [if_neg hdblank, if_neg hopens]
    -- the terminator of the value is the end of the string or the first blank behind it
    rcases htail with rfl | ⟨tail', rfl⟩
    · rw [List.length_nil] at hlen
      obtain ⟨t, heq, htrest, -, hcalled⟩ := setValue_eq fuel last key
        { s with p := p, rest := s.rest + 1, closingSym := chr ' ' } hnameAt hzero
        (by simp only; omega) hvalueAt hblank a.value_zero (by simp only; omega)
        (Or.inr ⟨rfl, by simp only; omega⟩) hfuel
      refine ⟨t, heq, Or.inr (Or.inr ⟨rfl, ?_⟩), hcalled⟩
      rw [htrest]
      simp only
      omega
    · rw [List.length_cons] at hlen
      obtain ⟨t, heq, htrest, htat, hcalled⟩ := setValue_eq fuel last key
        { s with p := p, rest := s.rest + 1, closingSym := chr ' ' } hnameAt hzero
        (by simp only; omega) hvalueAt hblank a.value_zero (by simp only; omega) (Or.inl rfl) hfuel
      refine ⟨t, heq, Or.inr (Or.inl ⟨tail', rfl, htat, ?_⟩), hcalled⟩
      rw [htrest]
      simp only
      omega

theorem first_ne {c : Byte} (hc : isNameStart c) :
    c ≠ chr ' ' ∧ ¬(c = chr '=' ∨ (chr '0' ≤ c ∧ c ≤ chr '9')) := by
  revert c
  decide +kernel

theorem namePart_ne_zero {c : Byte} (hc : isNameStart c ∨ isdigit c) : c ≠ 0 := by
  revert c
  decide +kernel

theorem Pair.part_of_mem (a : Pair) : ∀ c ∈ a.name, isNameStart c ∨ isdigit c := by
  intro c hc
  rw [Pair.name, List.mem_cons] at hc
  rcases hc with rfl | hc
  · exact Or.inl a.first_start
  · exact a.others_part c hc

theorem Pair.value_length_le (a : Pair) : a.value.length ≤ a.valueText.length := by
  rw [Pair.valueText]
  split
  · rw [List.length_cons, List.length_append]
    omega
  · exact le_rfl

/-- One round of the loop sets the pair that comes next. -/
theorem body_eq (a : Pair) {n : ℕ} (h : Ready last s (blanks n ++ (a.text ++ tail)))
    (htail : tail = [] ∨ ∃ tail', tail = chr ' ' :: tail')
    (hfuel : (blanks n ++ (a.text ++ tail)).length < fuel) :
    ∃ t, body fuel last s = .ok (.again t) ∧ Left last t tail ∧ Called s t a.name a.value := by
  obtain ⟨hat, hlen⟩ := h
  have hvalue := a.value_length_le
  have hpos : 0 < a.name.length := Nat.succ_pos _
  rw [List.append_assoc, List.append_assoc, Pair.text, List.append_assoc, List.cons_append] at hat
  simp only [Pair.text, List.length_append, List.length_cons, blanks, List.length_replicate]
    at hlen hfuel
  have hskip : skipBlanks s.p fuel s.rest = .ok (s.rest + n) :=
    skipBlanks_eq hat (first_ne a.first_start).1 (by omega)
  have hkey := (at_append.mp hat).2
  rw [blanks, List.length_replicate] at hkey
  have hload : s.p.load (s.rest + n) = some a.first := hkey.head
  have hscan := scanName_eq hkey (fun c hc => isNameChar_of_part (a.part_of_mem c hc))
    (by omega : s.rest + n + a.name.length ≤ last) (by omega : a.name.length < fuel)
  obtain ⟨hname, hrest⟩ := at_append.mp hkey
  have hzero : 0 ∉ a.name := fun hmem => namePart_ne_zero (a.part_of_mem 0 hmem) rfl
  have hready : Ready last { s with rest := s.rest + n + a.name.length }
      (chr '=' :: (a.valueText ++ tail)) := by
    refine ⟨?_, ?_⟩
    · rw [List.cons_append, List.append_assoc]
      exact hrest
    · rw [List.length_cons, List.length_append]
      simp only
      omega
  have hvalueFuel : a.value.length < fuel := by omega
  obtain ⟨t, heq, hleft, hcalled⟩ := openValue_eq a { s with rest := s.rest + n + a.name.length }
    hname rfl hzero hready htail hvalueFuel
  refine ⟨t, ?_, hleft, hcalled⟩
  rw [body, hskip]
  simp only [bind, Except.bind, hload, checked]
  rw [if_neg (by omega), if_neg (first_ne a.first_start).2, hscan]
  exact heq

end Pair

/-! ## The whole string -/

section Loop
variable {s : State} {fuel last n : ℕ}

theorem loop_blanks {k : ℕ} (h : Ready last s (blanks k)) (hpairs : s.numPairs ≠ 0) (hn : 0 < n)
    (hfuel : k < fuel) : loop fuel last n s = .ok (true, s.env) := by
  obtain ⟨hat, hlen⟩ := h
  rw [blanks, List.length_replicate] at hlen
  have hskip : skipBlanks s.p fuel s.rest = .ok (s.rest + k) :=
    skipBlanks_eq hat (by decide) hfuel
  cases n with
  | zero => exact absurd hn (Nat.lt_irrefl 0)
  | succ n =>
    rw [loop]
    split
    · simp only [body, hskip, bind, Except.bind]
      rw [if_pos (by omega)]
      simp [hpairs]
    · simp [hpairs]

/-- Nothing but blanks is left, or nothing at all. -/
theorem loop_trailing {k : ℕ} (h : Left last s (blanks k)) (hpairs : s.numPairs ≠ 0) (hn : 0 < n)
    (hfuel : k < fuel) : loop fuel last n s = .ok (true, s.env) := by
  rcases h with hready | ⟨tail', htail, hready⟩ | ⟨-, hlast⟩
  · exact loop_blanks hready hpairs hn hfuel
  · cases k with
    | zero => exact absurd htail.symm (List.cons_ne_nil _ _)
    | succ k =>
      rw [blanks, List.replicate_succ, List.cons.injEq] at htail
      rw [← htail.2] at hready
      exact loop_blanks hready hpairs hn (by omega)
  · cases n with
    | zero => exact absurd hn (Nat.lt_irrefl 0)
    | succ n =>
      rw [loop, if_neg (by omega)]
      simp [hpairs]

/-- The calls for the pairs, in order. -/
def calls (first : Pair) (others : List (ℕ × Pair)) : List (List Byte × List Byte) :=
  (first :: others.map Prod.snd).map fun a => (a.name, a.value)

theorem loop_joined {first : Pair} {others : List (ℕ × Pair)} {lead trailing : ℕ}
    (h : Ready last s (blanks lead ++ joined first others trailing))
    (hn : (blanks lead ++ joined first others trailing).length < n)
    (hfuel : (blanks lead ++ joined first others trailing).length < fuel) :
    loop fuel last n s = .ok (true, s.env ++ calls first others) := by
  induction others generalizing s n first lead with
  | nil =>
    have htail : blanks trailing = [] ∨ ∃ tail', blanks trailing = chr ' ' :: tail' := by
      cases trailing with
      | zero => exact Or.inl rfl
      | succ k => exact Or.inr ⟨blanks k, rfl⟩
    have hin : s.rest < last := by
      have hlen := h.2
      simp only [joined, Pair.text, Pair.name, List.length_append, List.length_cons] at hlen
      omega
    obtain ⟨t, hbody, hleft, henv, hpairs⟩ := body_eq first h htail hfuel
    simp only [joined, Pair.text, Pair.name, List.length_append, List.length_cons, blanks,
      List.length_replicate] at hn hfuel
    cases n with
    | zero => exact absurd hn (Nat.not_lt_zero _)
    | succ n =>
      rw [loop, if_pos hin, hbody]
      simp only [bind, Except.bind]
      rw [loop_trailing hleft (hpairs ▸ Nat.succ_ne_zero _) (by omega) (by omega), henv]
      rfl
  | cons next others ih =>
    obtain ⟨k, next⟩ := next
    have hin : s.rest < last := by
      have hlen := h.2
      simp only [joined, Pair.text, Pair.name, List.length_append, List.length_cons] at hlen
      omega
    obtain ⟨t, hbody, hleft, henv, -⟩ := body_eq first h (Or.inr ⟨_, rfl⟩) hfuel
    simp only [joined, Pair.text, Pair.name, List.length_append, List.length_cons, blanks,
      List.length_replicate] at hn hfuel
    have hcalls : s.env ++ calls first ((k, next) :: others) = t.env ++ calls next others := by
      rw [henv, List.append_assoc]
      rfl
    cases n with
    | zero => exact absurd hn (Nat.not_lt_zero _)
    | succ n =>
      rw [loop, if_pos hin, hbody, hcalls]
      simp only [bind, Except.bind]
      -- the blank behind the pair may have become a terminator
      rcases hleft with hready | ⟨tail', htail, hready⟩ | ⟨htail, -⟩
      · have hblanks : Ready last t (blanks (k + 1) ++ joined next others trailing) := hready
        refine ih hblanks ?_ ?_
        · simp only [List.length_append, blanks, List.length_replicate]
          omega
        · simp only [List.length_append, blanks, List.length_replicate]
          omega
      · rw [List.cons.injEq] at htail
        rw [← htail.2] at hready
        refine ih hready ?_ ?_
        · simp only [List.length_append, blanks, List.length_replicate]
          omega
        · simp only [List.length_append, blanks, List.length_replicate]
          omega
      · exact absurd htail (List.cons_ne_nil _ _)

end Loop

section Copy
variable {str : List Byte} {fuel : ℕ}

theorem ckStrdup_abort (h : maxAlloc < (str.length + 1) % 2 ^ 32) :
    extractAndSetEnv fuel (some str) = .error .abort := by
  have hcopy : ckStrdup str = none := if_pos h
  rw [extractAndSetEnv, hcopy]
  rfl

/-- The copy has the characters and the terminator. -/
theorem at_copy (str : List Byte) : At ⟨str.length + 1, fun i => str.getD i 0⟩ 0 (str ++ [(0 : Byte)]) := by
  apply at_of_cells
  intro k hk
  rw [List.length_append, List.length_singleton] at hk
  refine ⟨by simpa using hk, ?_⟩
  rw [Nat.zero_add, List.getElem_append]
  split
  · next hin => exact List.getD_eq_getElem str 0 hin
  · next hout =>
    rw [List.getElem_singleton]
    exact List.getD_eq_default _ _ (Nat.not_lt.mp hout)

end Copy

theorem Pair.zero_notMem (a : Pair) : 0 ∉ a.text := by
  have hname : 0 ∉ a.name := fun hmem => namePart_ne_zero (a.part_of_mem 0 hmem) rfl
  have hvalue : 0 ∉ a.valueText := by
    have hspells := a.spells
    have hzero := a.value_zero
    rw [Pair.valueText]
    split
    · next q hquote =>
      rw [hquote] at hspells
      have hq : (0 : Byte) ≠ q := (quote_ne hspells.1).2.symm
      simp only [List.mem_cons, List.mem_append, List.not_mem_nil, hq, hzero, or_self,
        not_false_eq_true]
    · exact hzero
  have hequals : (0 : Byte) ≠ chr '=' := by decide
  simp only [Pair.text, List.mem_cons, List.mem_append, hname, hvalue, hequals, or_self,
    not_false_eq_true]

theorem zero_notMem_joined (first : Pair) (others : List (ℕ × Pair)) (trailing : ℕ) :
    0 ∉ joined first others trailing := by
  have hblank : ∀ n, (0 : Byte) ∉ blanks n := fun n hmem =>
    absurd (List.eq_of_mem_replicate hmem) (by decide)
  have hone : (0 : Byte) ≠ chr ' ' := by decide
  induction others generalizing first with
  | nil =>
    simp only [joined, List.mem_append, first.zero_notMem, hblank, or_self, not_false_eq_true]
  | cons next others ih =>
    simp only [joined, List.mem_append, List.mem_cons, first.zero_notMem, hblank, hone, ih, or_self,
      not_false_eq_true]

/-- A string of pairs is taken apart: each pair is set, in order. -/
theorem extractAndSetEnv_eq (first : Pair) (others : List (ℕ × Pair)) (lead trailing : ℕ)
    (hsize : (blanks lead ++ joined first others trailing).length + 1 ≤ maxAlloc) (fuel : ℕ)
    (hfuel : (blanks lead ++ joined first others trailing).length < fuel) :
    extractAndSetEnv fuel (some (blanks lead ++ joined first others trailing)) =
      .ok (true, calls first others) := by
  generalize htext : blanks lead ++ joined first others trailing = text at hsize hfuel ⊢
  have hzero : 0 ∉ text := by
    rw [← htext, List.mem_append, not_or]
    exact ⟨fun hmem => absurd (List.eq_of_mem_replicate hmem) (by decide),
      zero_notMem_joined first others trailing⟩
  have hlast := stringAt_terminated (at_copy text) hzero
  have hready : Ready text.length ⟨⟨text.length + 1, fun i => text.getD i 0⟩, 0, chr ' ', 0, []⟩
      (blanks lead ++ joined first others trailing) := by
    rw [htext]
    exact ⟨at_copy text, Nat.zero_add _⟩
  have hshort : (blanks lead ++ joined first others trailing).length < fuel := htext ▸ hfuel
  have hloop := loop_joined hready hshort hshort
  rw [extractAndSetEnv, ckStrdup_eq hsize]
  simp only [bind, Except.bind, allocated, hlast, checked, hloop, List.nil_append]

/-- `A=' "'`. -/
def quotedBlank : Pair where
  first := chr 'A'
  others := []
  value := [chr ' ', chr '"']
  quote := some (chr '\'')
  first_start := by decide
  others_part := by decide
  value_zero := by decide
  spells := ⟨by decide, by decide⟩

/-- `b1=x`. -/
def plain : Pair where
  first := chr 'b'
  others := [chr '1']
  value := [chr 'x']
  quote := none
  first_start := by decide
  others_part := by decide
  value_zero := by decide
  spells := ⟨by decide, _, _, rfl, by decide⟩

theorem extractAndSetEnv_eq_two :
    extractAndSetEnv 16 (some (blanks 1 ++ joined quotedBlank [(1, plain)] 1)) =
      .ok (true, calls quotedBlank [(1, plain)]) :=
  extractAndSetEnv_eq quotedBlank [(1, plain)] 1 1 (by decide) 16 (by decide)

/-- A value of `n` characters. -/
def repeated (n : ℕ) : Pair where
  first := chr 'A'
  others := []
  value := List.replicate n (chr 'x')
  quote := some (chr '"')
  first_start := by decide
  others_part := by decide
  value_zero hmem := absurd (List.eq_of_mem_replicate hmem) (by decide)
  spells := ⟨by decide, fun hmem => absurd (List.eq_of_mem_replicate hmem) (by decide)⟩

theorem length_repeated (n : ℕ) : (blanks 0 ++ joined (repeated n) [] 0).length = n + 4 := by
  simp only [blanks, joined, Pair.text, Pair.name, Pair.valueText, repeated, List.length_append,
    List.length_cons, List.length_replicate, List.length_nil]
  omega

/-- The copy of the string is refused. -/
theorem extractAndSetEnv_oversized :
    ∃ (first : Pair) (others : List (ℕ × Pair)) (lead trailing : ℕ), ∀ fuel,
      extractAndSetEnv fuel (some (blanks lead ++ joined first others trailing)) =
        .error .abort := by
  refine ⟨repeated maxAlloc, [], 0, 0, fun fuel => ckStrdup_abort ?_⟩
  rw [length_repeated]
  decide

end AflPlusPlus.ExtractAndSetEnv
