import AflPlusPlus.CompareTransform

/-!
# When the unrolled code agrees with the library

The unrolled code tests whether the other array starts with certain characters, and so does the
library function. The two tests agree on every array exactly when the characters are the
same up to case: without a size they always are, while with a size the pass forgets the
NUL behind a constant string and whatever `memcmp` would find there.
-/

namespace AflPlusPlus.CompareTransform
open ByteWords CStrings

/-! ## Running the blocks -/

theorem meaning_fold (f : CmpFunction) (b : Byte) :
    f.meaning.fold b = if f.isCaseInsensitive then tolower b else b := by
  cases f <;> rfl

theorem meaning_endsAtNul (f : CmpFunction) : f.meaning.endsAtNul = !f.isMemcmp := by
  cases f <;> rfl

namespace UnrolledCode
variable {code : UnrolledCode} {size : ℕ} {varStr : List Byte}

theorem runBlocks_cmpAdded (i : ℕ) (c : Byte) (rest : List UnrolledBlock) :
    code.runBlocks size varStr (.cmpAdded i c :: rest) = varStr[i]?.bind fun load =>
      if code.isub load c = 0 then code.runBlocks size varStr rest
      else some (code.isub load c).toInt := by
  cases rest with
  | nil =>
    refine congrArg _ (funext fun load => ?_)
    split
    · next h => rw [h]; rfl
    · rfl
  | cons block rest => rfl

theorem isub_eq_zero_iff {f : CmpFunction} (hcase : code.isCaseInsensitive = f.isCaseInsensitive)
    (load char : Byte) :
    code.isub load (f.meaning.fold char) = 0 ↔ f.meaning.fold load = f.meaning.fold char := by
  rw [isub, hcase, ← meaning_fold f load]
  split
  · rw [sub_eq_zero, eq_comm]
  · rw [sub_eq_zero]

/-- The difference that the blocks compute for the characters of `d`, once folded. -/
def difference (code : UnrolledCode) (d : Byte × Byte) : ℤ :=
  (if code.hasStr1 then d.2 - d.1 else d.1 - d.2).toInt

theorem isub_toInt {f : CmpFunction} (hcase : code.isCaseInsensitive = f.isCaseInsensitive)
    (load char : Byte) : (code.isub load (f.meaning.fold char)).toInt =
      code.difference (f.meaning.fold load, f.meaning.fold char) := by
  rw [isub, hcase, ← meaning_fold f load, difference]

theorem difference_ne_zero {d : Byte × Byte} (h : d.1 ≠ d.2) : code.difference d ≠ 0 := by
  intro hzero
  have hsub : (if code.hasStr1 then d.2 - d.1 else d.1 - d.2) = 0 := BitVec.eq_of_toInt_eq hzero
  split at hsub
  · exact h (sub_eq_zero.1 hsub).symm
  · exact h (sub_eq_zero.1 hsub)

/-- One character is compared, and then those of `t` by the blocks that follow. -/
theorem runBlocks_cmpAdded_spec {f : CmpFunction} {i : ℕ} {char : Byte} {t : List Byte}
    {rest : List UnrolledBlock} (hcase : code.isCaseInsensitive = f.isCaseInsensitive)
    (hload : (varStr.drop i).map f.meaning.fold <+: (char :: t).map f.meaning.fold →
      (char :: t).length ≤ (varStr.drop i).length)
    (hrest : ((varStr.drop (i + 1)).map f.meaning.fold <+: t.map f.meaning.fold →
        t.length ≤ (varStr.drop (i + 1)).length) →
      code.runBlocks size varStr rest = some
        ((firstDifference f.meaning.fold (varStr.drop (i + 1)) t).elim 0 code.difference)) :
    code.runBlocks size varStr (.cmpAdded i (f.meaning.fold char) :: rest) = some
      ((firstDifference f.meaning.fold (varStr.drop i) (char :: t)).elim 0 code.difference) := by
  have hi : i < varStr.length := by
    by_contra hge
    rw [List.drop_eq_nil_of_le (Nat.le_of_not_lt hge)] at hload
    exact absurd (hload List.nil_prefix) (by simp)
  rw [runBlocks_cmpAdded, List.getElem?_eq_getElem hi, Option.bind_some]
  rw [List.drop_eq_getElem_cons hi] at hload ⊢
  simp only [List.map_cons, List.cons_prefix_cons, List.length_cons] at hload
  rw [firstDifference]
  by_cases heq : f.meaning.fold varStr[i] = f.meaning.fold char
  · rw [if_pos ((isub_eq_zero_iff hcase _ _).2 heq), if_pos heq]
    exact hrest fun h => Nat.le_of_succ_le_succ (hload ⟨heq, h⟩)
  · rw [if_neg fun h => heq ((isub_eq_zero_iff hcase _ _).1 h), if_neg heq, isub_toInt hcase,
      Option.elim_some]

end UnrolledCode

/-- The characters that the blocks compare, from the index `i` on. -/
def checked (operand2 : Option SizeArg) (size : ℕ) (str : List Byte) (i : ℕ) : List Byte :=
  match operand2 with
  | some .dynamic => str.take (size - i)
  | _ => str

section Blocks
variable {f : CmpFunction} {char : Byte} {str : List Byte} {i : ℕ}

theorem unrollBlocks_cons_dynamic : unrollBlocks f (some .dynamic) (char :: str) i =
    .lenCheck i :: .cmpAdded i (f.meaning.fold char) ::
      unrollBlocks f (some .dynamic) str (i + 1) := by
  rw [meaning_fold]
  rfl

theorem unrollBlocks_cons_const {len : ℕ} :
    unrollBlocks f (some (.const len)) (char :: str) i =
      .cmpAdded i (f.meaning.fold char) :: unrollBlocks f (some (.const len)) str (i + 1) := by
  rw [meaning_fold]
  rfl

theorem unrollBlocks_cons_none : unrollBlocks f none (char :: str) i =
    .cmpAdded i (f.meaning.fold char) :: unrollBlocks f none str (i + 1) := by
  rw [meaning_fold]
  rfl

end Blocks

/-- The unrolled code yields the difference of the first characters that differ from the checked
ones, and loads nothing behind the array when their number is not larger than that of an
array they start with. -/
theorem runBlocks_spec {code : UnrolledCode} {f : CmpFunction} (operand2 : Option SizeArg)
    (size : ℕ) (varStr : List Byte) (hcase : code.isCaseInsensitive = f.isCaseInsensitive)
    (str : List Byte) (i : ℕ) (hi : operand2 = some .dynamic → i ≤ size)
    (hload : (varStr.drop i).map f.meaning.fold <+:
      (checked operand2 size str i).map f.meaning.fold →
        (checked operand2 size str i).length ≤ (varStr.drop i).length) :
    code.runBlocks size varStr (unrollBlocks f operand2 str i) =
      some ((firstDifference f.meaning.fold (varStr.drop i)
        (checked operand2 size str i)).elim 0 code.difference) := by
  induction str generalizing i with
  | nil =>
    have hnil : checked operand2 size [] i = [] := by
      unfold checked
      split <;> simp
    rw [hnil, firstDifference_nil]
    rfl
  | cons char str ih =>
    match operand2 with
    | some .dynamic =>
      have hle := hi rfl
      by_cases hsize : size = i
      · have hnil : checked (some .dynamic) size (char :: str) i = [] := by
          simp [checked, hsize]
        rw [unrollBlocks_cons_dynamic, UnrolledCode.runBlocks, if_pos hsize, hnil,
          firstDifference_nil, Option.elim_none]
      · have hsucc : checked (some .dynamic) size (char :: str) i =
            char :: checked (some .dynamic) size str (i + 1) := by
          obtain ⟨k, hk⟩ : ∃ k, size - i = k + 1 := ⟨size - (i + 1), by omega⟩
          have hk' : size - (i + 1) = k := by omega
          rw [checked, checked, hk, hk', List.take_succ_cons]
        rw [hsucc] at hload ⊢
        rw [unrollBlocks_cons_dynamic, UnrolledCode.runBlocks, if_neg hsize]
        exact UnrolledCode.runBlocks_cmpAdded_spec hcase hload
          (ih (i + 1) fun _ => by omega)
    | some (.const len) =>
      rw [unrollBlocks_cons_const]
      exact UnrolledCode.runBlocks_cmpAdded_spec hcase hload (ih (i + 1) nofun)
    | none =>
      rw [unrollBlocks_cons_none]
      exact UnrolledCode.runBlocks_cmpAdded_spec hcase hload (ih (i + 1) nofun)

/-! ## The characters that decide -/

/-- The known string, with the NUL that functions without a size compare. -/
def terminated (f : CmpFunction) (str : List Byte) : List Byte :=
  if ¬f.isSizedcmp ∧ str.getLast? ≠ some 0 then str ++ [0] else str

theorem tmpConstStr_eq (f : CmpFunction) (str : List Byte) : tmpConstStr f str =
    if f.meaning.endsAtNul then (terminated f str).take ((terminated f str).idxOf 0 + 1)
    else terminated f str := by
  have htake : tmpConstStr f str = if ¬f.isMemcmp ∧ 0 ∈ terminated f str
      then (terminated f str).take ((terminated f str).idxOf 0 + 1)
      else terminated f str := rfl
  rw [htake, meaning_endsAtNul]
  by_cases hmem : 0 ∈ terminated f str
  · by_cases hmemcmp : f.isMemcmp = true
    · simp [hmemcmp]
    · rw [if_pos ⟨hmemcmp, hmem⟩, if_pos (by simpa using hmemcmp)]
  · rw [List.idxOf_eq_length hmem, List.take_of_length_le (Nat.le_succ _)]
    simp

section Call
variable {call : CallInst} {f : CmpFunction} {code : UnrolledCode} {size : ℕ} {varStr : List Byte}

/-- With the limits of the size and of the constant, the unrolled code tests for the characters
that decide when the known string is compared. -/
theorem checked_eq_decisive (str : List Byte) : checked call.operand2 size
      ((tmpConstStr f str).take (unrollLen call.operand2 (tmpConstStr f str).length)) 0 =
    f.meaning.decisive (call.limit size) (terminated f str) := by
  rw [Comparison.decisive_eq, ← tmpConstStr_eq]
  generalize tmpConstStr f str = constStr
  unfold CallInst.limit
  match call.operand2 with
  | none => exact List.take_length
  | some .dynamic =>
    change (constStr.take constStr.length).take size = constStr.take size
    rw [List.take_length]
  | some (.const len) =>
    change List.take (if len < constStr.length then len else constStr.length) constStr =
      List.take len constStr
    split
    · rfl
    · rw [List.take_length, List.take_of_length_le (by omega)]

/-- What the pass made of a call. -/
theorem transform_eq_some (h : call.transform = some code) (hf : call.select = some f) :
    code.isCaseInsensitive = f.isCaseInsensitive ∧
      code.blocks = unrollBlocks f call.operand2 ((tmpConstStr f call.known.contents).take
        (unrollLen call.operand2 (tmpConstStr f call.known.contents).length)) 0 := by
  rw [CallInst.transform, hf, Option.bind_eq_bind, Option.bind_some] at h
  dsimp only at h
  split at h
  · exact absurd h (by simp)
  · rw [← Option.some.inj h]
    exact ⟨rfl, rfl⟩

/-- The unrolled code never leaves a readable array, and yields the difference of the first
characters that differ from the decisive ones of the string that the pass knows. -/
theorem run_eq (h : call.transform = some code) (hf : call.select = some f)
    (hx : f.meaning.Readable (call.limit size) varStr) :
    code.run size varStr = some ((firstDifference f.meaning.fold varStr (f.meaning.decisive
      (call.limit size) (terminated f call.known.contents))).elim 0 code.difference) := by
  obtain ⟨hcase, hblocks⟩ := transform_eq_some h hf
  have hrun := runBlocks_spec call.operand2 size varStr hcase
    ((tmpConstStr f call.known.contents).take
      (unrollLen call.operand2 (tmpConstStr f call.known.contents).length)) 0
    (fun _ => Nat.zero_le size)
  rw [checked_eq_decisive, List.drop_zero, ← hblocks] at hrun
  exact hrun (Comparison.decisive_length_le hx)

theorem run_spec (h : call.transform = some code) (hf : call.select = some f)
    (hx : f.meaning.Readable (call.limit size) varStr) :
    ∃ r, code.run size varStr = some r ∧ (r = 0 ↔
      (f.meaning.decisive (call.limit size) (terminated f call.known.contents)).map
        f.meaning.fold <+: varStr.map f.meaning.fold) := by
  refine ⟨_, run_eq h hf hx, ?_⟩
  rw [← firstDifference_eq_none_iff (Comparison.decisive_length_le hx)]
  cases hd : firstDifference f.meaning.fold varStr (f.meaning.decisive (call.limit size)
    (terminated f call.known.contents)) with
  | none => simp
  | some d =>
    exact iff_of_false (UnrolledCode.difference_ne_zero (firstDifference_ne hd)) nofun

theorem libc_spec (hs : f.meaning.Readable (call.limit size) call.known.memory)
    (hx : f.meaning.Readable (call.limit size) varStr) :
    ∃ r, call.libc f size varStr = some r ∧ (r = 0 ↔
      (f.meaning.decisive (call.limit size) call.known.memory).map f.meaning.fold <+:
        varStr.map f.meaning.fold) := by
  obtain ⟨r, hr, hzero⟩ := Comparison.compare_spec hs hx
  unfold CallInst.libc
  split
  · rw [Comparison.compare_swap, hr]
    exact ⟨-r, rfl, neg_eq_zero.trans hzero⟩
  · exact ⟨r, hr, hzero⟩

/-- With a size, the call looks at no more characters than the constant string has before its
NUL. An initializer has the same decisive characters at the start and where the argument
points. -/
def CallInst.WithinConstant (call : CallInst) (f : CmpFunction) (size : ℕ) : Prop :=
  match call.known with
  | .constantString bytes => ∀ n, call.limit size = some n → n ≤ (bytes.takeWhile (· ≠ 0)).length
  | .initializer data offset =>
    (f.meaning.decisive (call.limit size) data).map f.meaning.fold =
      (f.meaning.decisive (call.limit size) (data.drop offset)).map f.meaning.fold

theorem isSizedcmp_of_select (hf : call.select = some f) :
    f.isSizedcmp = (call.limit size).isSome := by
  rw [CallInst.select, Option.bind_eq_bind, Option.bind_eq_some_iff] at hf
  obtain ⟨g, -, hg⟩ := hf
  rw [CallInst.limit, Option.isSome_map]
  split at hg
  · exact absurd hg (by simp)
  · next hsize =>
    have hfg : g = f := by
      split at hg
      · split at hg
        · exact absurd hg (by simp)
        · exact Option.some.inj hg
      · split at hg
        · exact absurd hg (by simp)
        · exact Option.some.inj hg
      · exact Option.some.inj hg
    rw [← hfg]
    exact (not_not.1 hsize).symm

theorem not_memcmp_of_not_sized (h : f.isSizedcmp = false) : f.meaning.endsAtNul = true := by
  cases f
  all_goals first
    | rfl
    | exact absurd h (by decide)

/-- A string with a known initializer needs no further NUL. -/
theorem decisive_terminated {limit : Option ℕ} {data : List Byte}
    (hsized : f.isSizedcmp = limit.isSome) (hnul : f.meaning.endsAtNul = true → limit = none →
      0 ∈ data) :
    f.meaning.decisive limit (terminated f data) = f.meaning.decisive limit data := by
  unfold terminated
  split
  · next h =>
    have hlimit : limit = none := by
      rw [← Option.not_isSome_iff_eq_none, ← hsized]
      exact h.1
    have hends := not_memcmp_of_not_sized (by simpa using h.1)
    have hmem := hnul hends hlimit
    have hlt := List.idxOf_lt_length_of_mem hmem
    rw [Comparison.decisive_eq, Comparison.decisive_eq, if_pos hends, if_pos hends,
      List.idxOf_append_of_mem hmem, List.take_append_of_le_length (by omega)]
  · rfl

theorem zero_not_mem_takeWhile (bytes : List Byte) : 0 ∉ bytes.takeWhile (· ≠ 0) := by
  intro h
  simpa using List.mem_takeWhile_imp h

/-- The characters before the NUL decide everything unless the size reaches the NUL. -/
theorem decisive_constantString_iff {limit : Option ℕ} {bytes : List Byte}
    (hsized : f.isSizedcmp = limit.isSome) (hs : f.meaning.Readable limit bytes) :
    (f.meaning.decisive limit (terminated f (bytes.takeWhile (· ≠ 0)))).map f.meaning.fold =
        (f.meaning.decisive limit bytes).map f.meaning.fold ↔
      ∀ n, limit = some n → n ≤ (bytes.takeWhile (· ≠ 0)).length := by
  have hfront := zero_not_mem_takeWhile bytes
  have hhead : ∀ b rest, bytes.dropWhile (· ≠ 0) = b :: rest → b = 0 := by
    intro b rest h
    have hb := List.head?_dropWhile_not (· ≠ (0 : Byte)) bytes
    rw [h] at hb
    simpa using hb
  have hbytes : bytes.takeWhile (· ≠ 0) ++ bytes.dropWhile (· ≠ 0) = bytes :=
    List.takeWhile_append_dropWhile
  generalize bytes.takeWhile (· ≠ 0) = front at hfront hbytes
  generalize bytes.dropWhile (· ≠ 0) = rest at hhead hbytes
  subst hbytes
  cases limit with
  | none =>
    refine iff_of_true ?_ nofun
    have hends := not_memcmp_of_not_sized hsized
    have hmem : (0 : Byte) ∈ front ++ rest := by
      rcases hs with ⟨-, h⟩ | ⟨n, h, -⟩
      · exact h
      · exact absurd h (by simp)
    obtain ⟨b, rest, rfl⟩ : ∃ b rest', rest = b :: rest' := by
      refine List.exists_cons_of_ne_nil fun hnil => hfront ?_
      rwa [hnil, List.append_nil] at hmem
    have hlast : front.getLast? ≠ some 0 := fun h => hfront (List.mem_of_getLast? h)
    rw [hhead b rest rfl, terminated, if_pos ⟨by simp [hsized], hlast⟩,
      Comparison.decisive_append hfront, Comparison.decisive_append hfront,
      Comparison.decisive_cons (by simp), Comparison.decisive_cons (by simp), hends]
    rfl
  | some n =>
    have hterm : terminated f front = front := by
      rw [terminated, hsized]
      simp
    have hfrontOnly : f.meaning.decisive (some n) (front ++ []) = _ :=
      Comparison.decisive_append hfront
    rw [List.append_nil, Comparison.decisive_nil, List.append_nil] at hfrontOnly
    rw [hterm, Comparison.decisive_append hfront, hfrontOnly, List.map_append, eq_comm,
      List.append_right_eq_self, List.map_eq_nil_iff, Option.map_some]
    constructor
    · intro hnil m hm
      obtain rfl := Option.some.inj hm
      by_contra hlt
      have hne : rest ≠ [] := by
        rintro rfl
        rw [List.append_nil] at hs
        rcases hs with ⟨-, h⟩ | ⟨m, hm, h⟩
        · exact hfront h
        · obtain rfl := Option.some.inj hm
          exact hlt h
      obtain ⟨b, rest, rfl⟩ := List.exists_cons_of_ne_nil hne
      rw [Comparison.decisive_cons (by simp; omega)] at hnil
      split at hnil
      · exact absurd hnil (by simp)
      · exact absurd hnil (by simp)
    · intro h
      rw [Nat.sub_eq_zero_of_le (h n rfl), Comparison.decisive_zero]

theorem withinConstant_iff (hf : call.select = some f)
    (hs : f.meaning.Readable (call.limit size) call.known.memory) :
    (f.meaning.decisive (call.limit size) (terminated f call.known.contents)).map f.meaning.fold =
        (f.meaning.decisive (call.limit size) call.known.memory).map f.meaning.fold ↔
      call.WithinConstant f size := by
  have hsized : f.isSizedcmp = (call.limit size).isSome := isSizedcmp_of_select hf
  unfold CallInst.WithinConstant
  cases hknown : call.known with
  | constantString bytes =>
    rw [hknown] at hs
    exact decisive_constantString_iff hsized hs
  | initializer data offset =>
    rw [hknown] at hs
    dsimp only [KnownArg.contents, KnownArg.memory]
    rw [decisive_terminated hsized]
    intro _ hlimit
    rcases hs with ⟨-, h⟩ | ⟨n, h, -⟩
    · exact List.mem_of_mem_drop h
    · rw [hlimit] at h
      exact absurd h (by simp)

end Call

/-- The unrolled code of a call yields zero for the same arrays as the library function exactly
when the call stays within the constant. -/
theorem unrolled_agrees_iff (call : CallInst) (f : CmpFunction) (code : UnrolledCode) (size : ℕ)
    (hf : call.select = some f) (hcode : call.transform = some code)
    (hconst : f.meaning.Readable (call.limit size) call.known.memory) :
    (∀ varStr, f.meaning.Readable (call.limit size) varStr →
      ∃ r l, code.run size varStr = some r ∧ call.libc f size varStr = some l ∧
        (r = 0 ↔ l = 0)) ↔
      call.WithinConstant f size := by
  rw [← withinConstant_iff hf hconst, ← Comparison.prefix_tests_agree_iff hconst]
  refine forall_congr' fun varStr => imp_congr_right fun hx => ?_
  obtain ⟨r, hr, hrzero⟩ := run_spec hcode hf hx
  obtain ⟨l, hl, hlzero⟩ := libc_spec hconst hx
  rw [← hrzero, ← hlzero, hr, hl]
  constructor
  · rintro ⟨r', l', hr', hl', h⟩
    rw [Option.some.inj hr', Option.some.inj hl']
    exact h
  · intro h
    exact ⟨r, l, rfl, rfl, h⟩

/-- The string literal `"avocado"`. -/
def avocado : List Byte := [0x61, 0x76, 0x6f, 0x63, 0x61, 0x64, 0x6f, 0]

/-- `strncasecmp(input, "avocado", len)`. -/
def avocadoCall (len : ℕ) : CallInst where
  callee := "strncasecmp"
  hasStr1 := false
  known := .constantString avocado
  operand2 := some (.const len)

/-- The code for `strncasecmp(input, "avocado", 7)` agrees with the function. -/
theorem unrolled_agrees_avocado : ∃ code, (avocadoCall 7).transform = some code ∧
    ∀ varStr, Comparison.caseless.Readable (some 7) varStr →
      ∃ r l, code.run 7 varStr = some r ∧
        (avocadoCall 7).libc .strncasecmp 7 varStr = some l ∧ (r = 0 ↔ l = 0) := by
  refine ⟨_, rfl, ?_⟩
  refine (unrolled_agrees_iff (avocadoCall 7) .strncasecmp _ 7 (by decide) rfl
    (.inr ⟨7, rfl, by decide⟩)).2 ?_
  intro n hn
  obtain rfl : 7 = n := Option.some.inj hn
  decide

/-- With the size nine, the word that goes on behind the constant is taken for it. -/
theorem unrolled_differs_avocados : ∃ code, (avocadoCall 9).transform = some code ∧
    (avocadoCall 9).select = some .strncasecmp ∧
    CmpFunction.strncasecmp.meaning.Readable ((avocadoCall 9).limit 9)
      (avocadoCall 9).known.memory ∧
    CmpFunction.strncasecmp.meaning.Readable ((avocadoCall 9).limit 9)
      (avocado.dropLast ++ [0x73, 0]) ∧
    code.run 9 (avocado.dropLast ++ [0x73, 0]) = some 0 ∧
    (avocadoCall 9).libc .strncasecmp 9 (avocado.dropLast ++ [0x73, 0]) = some 0x73 :=
  ⟨_, rfl, by decide, .inl ⟨rfl, by decide⟩, .inl ⟨rfl, by decide⟩, by decide, by decide⟩

end AflPlusPlus.CompareTransform
