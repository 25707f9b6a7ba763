import AflPlusPlus.CmpExtendEncoding

/-!
# Numbers that are replaced in a text

The number at a position gives way to another one, and the rest of the input moves. The input
that is run keeps the length of the buffer all the same.
-/

namespace AflPlusPlus.Redqueen
open ByteWords MemoryPatches NumberTexts TextLines

/-- A digit at the start becomes a blank. -/
def spaceFirst : Buffer → Buffer
  | [] => []
  | b :: s => (if isdigit b then chr ' ' else b) :: s

/-- The buffer with a text in the place of `oldLen` bytes. -/
def asciiExpected (buf : Mem) (len idx : ℕ) (text : Buffer) (oldLen : ℕ) : Buffer :=
  bytes idx buf ++ text ++ spaceFirst (bytes (len - idx - oldLen) (window buf (idx + oldLen)))

/-- The text and the length of the number that it replaces, in a state of the buffer. -/
def asciiFound (f : Fuzzer) (idx : ℕ) (o : Operands 64) (s : State) : Option (Buffer × ℕ) :=
  (asciiReplacement (bytes (f.len - idx) (window s.buf idx)) s.erange o.pattern o.repl).1

section Bounds
variable {parse : List Byte → Parsed} {isLimit : ℤ → Bool} {text : List Byte} {erange : Bool}
  {r : ℤ × ℕ}

/-- A number ends inside the text. -/
theorem strnto_stop_le (hparse : ∀ s, (parse s).stop ≤ s.length)
    (h : (strnto parse isLimit text erange).1 = some r) : r.2 ≤ text.length := by
  have hsplit : (text.takeWhile (· = chr ' ')).length + (text.dropWhile (· = chr ' ')).length =
      text.length := by
    rw [← List.length_append, List.takeWhile_append_dropWhile]
  have hcstring : (cstring ((text.dropWhile (· = chr ' ')).take 63)).length ≤
      (text.dropWhile (· = chr ' ')).length := by
    apply (List.takeWhile_sublist _).length_le.trans
    exact (List.take_sublist _ _).length_le
  have hstop := hparse (cstring ((text.dropWhile (· = chr ' ')).take 63))
  unfold strnto at h
  dsimp only at h
  split at h
  · simp at h
  · split at h
    · simp at h
    · obtain rfl := Option.some.inj h
      dsimp only
      omega

theorem asciiReplacement_oldLen_le {pattern repl : BitVec 64} {new : Buffer} {oldLen : ℕ}
    (h : (asciiReplacement text erange pattern repl).1 = some (new, oldLen)) :
    oldLen ≤ text.length := by
  unfold asciiReplacement at h
  split at h
  · next num old erange' heq =>
    rw [Option.ite_none_right_eq_some] at h
    obtain ⟨-, h⟩ := h
    have hle := strnto_stop_le strtoll_stop_le (congrArg Prod.fst heq)
    simp only [Option.some.injEq, Prod.mk.injEq] at h
    omega
  · split at h
    · next unum old erange' heq =>
      rw [Option.ite_none_right_eq_some] at h
      obtain ⟨-, h⟩ := h
      have hle := strnto_stop_le strtoull_stop_le (congrArg Prod.fst heq)
      simp only [Option.some.injEq, Prod.mk.injEq] at h
      omega
    · simp at h

end Bounds

section NewBuf
variable {scratch buf : Mem} {len idx oldLen k : ℕ} {text : Buffer}

theorem asciiNewBuf_head (hk : k < idx) : asciiNewBuf scratch buf len idx text oldLen k = buf k := by
  unfold asciiNewBuf
  split
  all_goals
    repeat rw [patch_of_not_mem (by omega)]
    rw [patch_of_mem (by omega), Nat.sub_zero]

theorem asciiNewBuf_text (hk : k < text.length) :
    asciiNewBuf scratch buf len idx text oldLen (idx + k) = text.getD k 0 := by
  unfold asciiNewBuf
  split
  all_goals
    repeat rw [patch_of_not_mem (by omega)]
    rw [patch_of_mem (by omega), Nat.add_sub_cancel_left]

theorem asciiNewBuf_tail (hk : k < len - idx - oldLen) :
    asciiNewBuf scratch buf len idx text oldLen (idx + text.length + k) =
      if k = 0 ∧ isdigit (buf (idx + oldLen)) then chr ' ' else buf (idx + oldLen + k) := by
  have hbehind : ∀ m : Mem, ∀ j < len - idx - oldLen, patch m (idx + text.length)
      (len - idx - oldLen) (window buf (idx + oldLen)) (idx + text.length + j) =
        buf (idx + oldLen + j) := by
    intro m j hj
    rw [patch_of_mem (by omega), Nat.add_sub_cancel_left, window_apply]
  have hfirst := fun m => hbehind m 0 (by omega)
  simp only [Nat.add_zero] at hfirst
  unfold asciiNewBuf
  rw [hfirst]
  by_cases hdigit : isdigit (buf (idx + oldLen))
  · rw [if_pos hdigit]
    by_cases hzero : k = 0
    · subst hzero
      rw [patch_of_mem (by omega), if_pos ⟨rfl, hdigit⟩]
    · rw [patch_of_not_mem (by omega), hbehind _ k hk, if_neg fun h => hzero h.1]
  · rw [if_neg hdigit, hbehind _ k hk, if_neg fun h => hdigit h.2]

theorem spaceFirst_bytes (n : ℕ) (m : Mem) : spaceFirst (bytes n m) =
    bytes n fun k => if k = 0 ∧ isdigit (m 0) then chr ' ' else m k := by
  cases n with
  | zero => rfl
  | succ n => simp [bytes, List.range_succ_eq_map, spaceFirst, Function.comp_def]

/-- Head, text and tail follow one another. -/
theorem bytes_asciiNewBuf (scratch : Mem) :
    bytes (idx + text.length + (len - idx - oldLen))
      (asciiNewBuf scratch buf len idx text oldLen) = asciiExpected buf len idx text oldLen := by
  rw [asciiExpected, bytes_add, bytes_add, spaceFirst_bytes]
  congr 1
  · congr 1
    · exact bytes_congr fun k hk => asciiNewBuf_head hk
    · conv_rhs => rw [← bytes_getD text]
      apply bytes_congr
      intro k hk
      rw [window_apply, asciiNewBuf_text hk]
  · apply bytes_congr
    intro k hk
    rw [window_apply, asciiNewBuf_tail hk]
    rfl

end NewBuf

/-- The input that is run is the buffer with the other number, unless the numbers differ in
length. -/
theorem asciiCandidate_iff (f : Fuzzer) (p : Place f.len) (o : Operands 64) (s : State) :
    (∀ c, (asciiCandidate f p.idx o s).1 = some c → ∃ text oldLen,
      asciiFound f p.idx o s = some (text, oldLen) ∧
        c = asciiExpected s.buf f.len p.idx text oldLen) ↔
    ∀ text oldLen, asciiFound f p.idx o s = some (text, oldLen) → text.length = oldLen := by
  obtain ⟨idx, -, hidx⟩ := p
  dsimp only
  have hcandidate : (asciiCandidate f idx o s).1 = (asciiFound f idx o s).map fun r =>
      bytes f.len (asciiNewBuf (f.scratch s.runs) s.buf f.len idx r.1 r.2) := rfl
  have hold : ∀ text oldLen, asciiFound f idx o s = some (text, oldLen) →
      oldLen ≤ f.len - idx := by
    intro text oldLen hfound
    simpa using asciiReplacement_oldLen_le hfound
  rw [hcandidate]
  constructor
  · intro h text oldLen hfound
    rw [hfound] at h
    obtain ⟨text', oldLen', heq, hexpected⟩ := h _ rfl
    simp only [Option.some.injEq, Prod.mk.injEq] at heq
    obtain ⟨rfl, rfl⟩ := heq
    have hle := hold text oldLen hfound
    rw [← bytes_asciiNewBuf (f.scratch s.runs)] at hexpected
    have hlen := congrArg List.length hexpected
    simp only [length_bytes] at hlen
    omega
  · intro h c hc
    obtain ⟨⟨text, oldLen⟩, hfound, rfl⟩ := Option.map_eq_some_iff.mp hc
    refine ⟨text, oldLen, hfound, ?_⟩
    have hle := hold text oldLen hfound
    rw [← bytes_asciiNewBuf (f.scratch s.runs), h text oldLen hfound]
    congr 1
    omega

/-- The text `"0 "`, with the options under which numbers are replaced. -/
def transforming : Fuzzer := { silent 2 LVL3 with cmplogEnableTransform := true }
def zeroBlank : State where
  buf k := [chr '0', chr ' '].getD k 0
  cbuf _ := 0
  hshape := 4

/-- With `10` for `0` it is run as `"10"`: the blank is lost. -/
theorem blank_lost : ¬∀ c, (asciiCandidate transforming 0 ⟨0, 10, 1, 10⟩ zeroBlank).1 = some c →
    ∃ text oldLen, asciiFound transforming 0 ⟨0, 10, 1, 10⟩ zeroBlank = some (text, oldLen) ∧
      c = asciiExpected zeroBlank.buf transforming.len 0 text oldLen := by
  intro h
  have hcandidate : (asciiCandidate transforming 0 ⟨0, 10, 1, 10⟩ zeroBlank).1 =
      some [chr '1', chr '0'] := by
    decide +kernel
  have hfound : asciiFound transforming 0 ⟨0, 10, 1, 10⟩ zeroBlank =
      some ([chr '1', chr '0'], 1) := by
    decide +kernel
  obtain ⟨text, oldLen, heq, hexpected⟩ := h _ hcandidate
  rw [hfound] at heq
  simp only [Option.some.injEq, Prod.mk.injEq] at heq
  obtain ⟨rfl, rfl⟩ := heq
  revert hexpected
  decide +kernel

end AflPlusPlus.Redqueen
