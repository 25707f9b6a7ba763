import AflPlusPlus.DictionaryFiles

/-!
# Tokens through a dictionary file

What `dict2file` writes for a token is read back by `load_extras_file` as the same token, but for
a final NUL that the writer leaves out.
-/

namespace AflPlusPlus.DictionaryFiles
open ByteWords CStrings TextLines

variable {b : Byte} {s mem : List Byte} {len : ℕ} {binary : Bool}

/-! ## Decoding what was written -/

theorem literal_plain (b : Byte) (h : literal b = true) :
    ¬ ((1 ≤ b ∧ b ≤ 31) ∨ 128 ≤ b) ∧ b ≠ chr '\\' ∧ b ≠ chr '"' ∧ b ≠ 0 := by
  revert b
  decide

theorem escape_digits (b : Byte) :
    isxdigit (hexdigits.getD (b.toNat / 16) 0) = true ∧
      isxdigit (hexdigits.getD (b.toNat % 16) 0) = true ∧
      BitVec.ofNat 8 (16 * hexValue (hexdigits.getD (b.toNat / 16) 0) +
        hexValue (hexdigits.getD (b.toNat % 16) 0)) = b := by
  revert b
  decide

theorem decode_nil : decode [] = ([], []) := by
  rw [decode]

theorem decode_literal (h : literal b = true) :
    decode (b :: s) = (b :: (decode s).1, (decode s).2) := by
  obtain ⟨hcontrol, hbackslash, -, -⟩ := literal_plain b h
  rw [decode.eq_def]
  dsimp only
  rw [if_neg hcontrol, if_neg hbackslash]

theorem decode_escape (b : Byte) (s : List Byte) :
    decode (escape b ++ s) = (b :: (decode s).1, (decode s).2) := by
  obtain ⟨hhigh, hlow, hvalue⟩ := escape_digits b
  rw [escape, List.cons_append, List.cons_append, List.cons_append, List.cons_append,
    List.nil_append, decode.eq_def]
  dsimp only
  rw [if_neg (by decide), if_pos rfl, if_neg (by decide), if_neg, hvalue]
  rw [hhigh, hlow]
  decide

/-- A final NUL is the only byte of the token that is not written literally, and the token has
neither the size of an integer nor of a pointer. -/
def FinalNulOnly (mem : List Byte) : Prop :=
  mem.getLast? = some 0 ∧ (∀ b ∈ mem.dropLast, literal b = true) ∧ mem.length ≠ 4 ∧ mem.length ≠ 8

instance (mem : List Byte) : Decidable (FinalNulOnly mem) :=
  inferInstanceAs (Decidable (_ ∧ _))

/-- The loop leaves a final NUL out only behind literal bytes. -/
theorem decode_dict2fileLoop : (decode (dict2fileLoop len binary mem)).1 =
    if binary = false ∧ (mem.getLast? = some 0 ∧ (∀ b ∈ mem.dropLast, literal b = true) ∧
      len ≠ 4 ∧ len ≠ 8) then mem.dropLast else mem := by
  induction mem generalizing binary with
  | nil => simp [dict2fileLoop, decode_nil]
  | cons b mem ih =>
    rw [dict2fileLoop]
    by_cases hb : literal b = true
    · rw [if_pos hb, decode_literal hb]
      dsimp only
      rw [ih]
      cases mem with
      | nil =>
        have hzero := (literal_plain b hb).2.2.2
        rw [if_neg (by simp), if_neg (by simpa using fun _ h => absurd h hzero)]
      | cons c mem =>
        rw [List.dropLast_cons_cons, List.getLast?_cons_cons]
        simp only [List.forall_mem_cons, hb, true_and]
        split_ifs <;> rfl
    · rw [if_neg hb]
      by_cases hkept : mem ≠ [] ∨ b ≠ 0 ∨ binary = true ∨ len = 4 ∨ len = 8
      · rw [if_pos hkept, decode_escape]
        dsimp only
        rw [ih, if_neg (by simp), if_neg]
        rintro ⟨hbinary, hlast, hliteral, h4, h8⟩
        cases mem with
        | nil => simp_all
        | cons c mem => exact hb (hliteral b (by simp))
      · rw [if_neg hkept]
        push Not at hkept
        obtain ⟨rfl, rfl, hbinary, h4, h8⟩ := hkept
        simp [dict2fileLoop, decode_nil, h4, h8, hbinary]

/-! ## Finding what was written -/

theorem printed (b : Byte) (h : isprint b = true) : b ≠ 0 ∧ b ≠ chr '\n' := by
  revert b
  decide

theorem escape_isprint (b : Byte) : (escape b).all isprint = true := by
  revert b
  decide

theorem dict2fileLoop_isprint : ∀ b ∈ dict2fileLoop len binary mem, isprint b = true := by
  induction mem generalizing binary with
  | nil => simp [dict2fileLoop]
  | cons b mem ih =>
    rw [dict2fileLoop]
    split_ifs with hb hkept
    · rw [literal, Bool.and_eq_true, Bool.and_eq_true] at hb
      exact List.forall_mem_cons.mpr ⟨hb.1.1, ih⟩
    · exact List.forall_mem_append.mpr ⟨List.all_eq_true.mp (escape_isprint b), ih⟩
    · exact ih

theorem dict2fileLoop_length_le : (dict2fileLoop len binary mem).length ≤ 4 * mem.length := by
  induction mem generalizing binary with
  | nil => simp [dict2fileLoop]
  | cons b mem ih =>
    have htail := @ih true
    have hsame := @ih binary
    rw [dict2fileLoop, List.length_cons]
    split_ifs
    · rw [List.length_cons]
      omega
    · rw [List.length_append, escape]
      simp only [List.length_cons, List.length_nil]
      omega
    · omega

theorem findKeyword_line {dictLevel : ℤ} {body : List Byte} (h : ∀ b ∈ body, isprint b = true) :
    findKeyword dictLevel ([chr '"'] ++ body ++ [chr '"', chr '\n']) =
      if body = [] then .malformed .emptyKeyword else .quoted body := by
  have hstring : cstring ([chr '"'] ++ body ++ [chr '"', chr '\n']) =
      [chr '"'] ++ body ++ [chr '"', chr '\n'] := by
    refine List.takeWhile_eq_self_iff.mpr ?_
    intro b hb
    rw [List.mem_append, List.mem_append] at hb
    rcases hb with (hb | hb) | hb
    · rw [List.mem_singleton.mp hb]
      decide
    · simpa using (printed b (h b hb)).1
    · revert b
      decide
  have htrim : trim ([chr '"'] ++ body ++ [chr '"', chr '\n']) =
      chr '"' :: body ++ [chr '"'] := by
    have hleft : ([chr '"'] ++ body ++ [chr '"', chr '\n']).dropWhile isspace =
        chr '"' :: body ++ [chr '"'] ++ [chr '\n'] := by
      rw [List.singleton_append, List.cons_append, List.dropWhile_cons_of_neg (by decide)]
      simp
    rw [trim, hleft, List.rdropWhile_concat_pos _ _ _ (by decide),
      List.rdropWhile_concat_neg _ _ _ (by decide)]
  rw [findKeyword, hstring, htrim, if_neg (by simp; decide),
    if_neg (not_not.mpr List.getLast?_concat), List.dropLast_concat, skipLabel,
    List.dropWhile_cons_of_neg (by decide), skipLevel, if_neg (by decide)]
  dsimp only
  rw [openKeyword, skipNumber, if_neg (by decide), skipEquals,
    List.dropWhile_cons_of_neg (by decide)]
  simp only [ne_eq, not_true_eq_false, if_false]

/-! ## The round trip -/

/-- What comes back of a token. -/
def readBack (mem : List Byte) : List (List Byte) :=
  if FinalNulOnly mem then (if mem.dropLast = [] then [] else [mem.dropLast]) else [mem]

theorem dict2fileLoop_eq_nil (hmem : mem ≠ []) (h : dict2fileLoop mem.length false mem = []) :
    FinalNulOnly mem ∧ mem.dropLast = [] := by
  have hdecoded := @decode_dict2fileLoop mem mem.length false
  rw [h, decode_nil] at hdecoded
  split_ifs at hdecoded with hcond
  · exact ⟨hcond.2, hdecoded.symm⟩
  · exact absurd hdecoded.symm hmem

theorem dict2fileLoop_ne_nil (h : dict2fileLoop mem.length false mem ≠ []) :
    ¬ (FinalNulOnly mem ∧ mem.dropLast = []) := by
  rintro ⟨⟨hlast, -⟩, hdrop⟩
  match mem, hdrop with
  | [], _ => simp at hlast
  | [b], _ =>
    obtain rfl : b = 0 := by simpa using hlast
    exact h (by decide)
  | b :: c :: mem, hdrop => simp at hdrop

theorem readBack_length_le (hmax : mem.length ≤ maxAutoExtra) :
    ¬ (if FinalNulOnly mem then mem.dropLast else mem).length > maxDictFile := by
  have hconst : maxAutoExtra ≤ maxDictFile := by decide
  split_ifs
  · rw [List.length_dropLast]
    omega
  · omega

theorem line_extras {dictLevel : BitVec 32} {curLine : ℕ} {loaded : Loaded}
    (hmem : mem ≠ []) (hmax : mem.length ≤ maxAutoExtra) :
    (loaded.line dictLevel curLine (dict2file mem)).extras = loaded.extras ++ readBack mem := by
  rw [Loaded.line, dict2file, findKeyword_line dict2fileLoop_isprint, readBack]
  by_cases hbody : dict2fileLoop mem.length false mem = []
  · obtain ⟨hnul, hdrop⟩ := dict2fileLoop_eq_nil hmem hbody
    rw [if_pos hbody, if_pos hnul, if_pos hdrop, List.append_nil]
    rfl
  · have hdecoded : (decode (dict2fileLoop mem.length false mem)).1 =
        if FinalNulOnly mem then mem.dropLast else mem := by
      rw [decode_dict2fileLoop]
      exact if_congr (and_iff_right rfl) rfl rfl
    have hnot := dict2fileLoop_ne_nil hbody
    rw [if_neg hbody]
    dsimp only
    rw [hdecoded, Loaded.keep]
    rw [if_neg (readBack_length_le hmax)]
    split_ifs with hnul hdrop
    · exact absurd ⟨hnul, hdrop⟩ hnot
    · rfl
    · rfl

theorem loadLines_cons {dictLevel : BitVec 32} {curLine : ℕ} {loaded : Loaded}
    (hmax : mem.length ≤ maxAutoExtra) (file : List Byte) :
    loadLines dictLevel curLine loaded (dict2file mem ++ file) =
      loadLines dictLevel (curLine + 1) (loaded.line dictLevel (curLine + 1) (dict2file mem))
        file := by
  have hline : dict2file mem ++ file =
      chr '"' :: (dict2fileLoop mem.length false mem ++ [chr '"']) ++ chr '\n' :: file := by
    simp [dict2file]
  have hchars : ∀ b ∈ chr '"' :: (dict2fileLoop mem.length false mem ++ [chr '"']),
      b ≠ chr '\n' := by
    refine List.forall_mem_cons.mpr ⟨by decide, List.forall_mem_append.mpr ⟨?_, by decide⟩⟩
    exact fun b hb => (printed b (dict2fileLoop_isprint b hb)).2
  have hroom : (chr '"' :: (dict2fileLoop mem.length false mem ++ [chr '"'])).length <
      maxLine - 1 := by
    have hbody := @dict2fileLoop_length_le mem mem.length false
    have hlong : 4 * maxAutoExtra + 2 < maxLine - 1 := by decide
    rw [List.length_cons, List.length_append, List.length_singleton]
    omega
  rw [hline, List.cons_append, loadLines]
  rw [← List.cons_append, fgets_line hchars hroom, dict2file]
  simp

/-- The induction is on the tokens, each of which accounts for one round of the loop. -/
theorem loadLines_extras {dictLevel : BitVec 32} {curLine : ℕ} {loaded : Loaded}
    {mems : List (List Byte)} (h : ∀ mem ∈ mems, 1 ≤ mem.length ∧ mem.length ≤ maxAutoExtra) :
    (loadLines dictLevel curLine loaded (mems.flatMap dict2file)).extras =
      loaded.extras ++ mems.flatMap readBack := by
  induction mems generalizing curLine loaded with
  | nil => simp [loadLines]
  | cons mem mems ih =>
    obtain ⟨⟨hpos, hmax⟩, htail⟩ := List.forall_mem_cons.mp h
    rw [List.flatMap_cons, loadLines_cons hmax, ih htail,
      line_extras (List.ne_nil_of_length_pos hpos) hmax, List.flatMap_cons, List.append_assoc]

theorem loadExtrasFile_dict2file {mems : List (List Byte)}
    (h : ∀ mem ∈ mems, 1 ≤ mem.length ∧ mem.length ≤ maxAutoExtra) (dictLevel : BitVec 32)
    (loaded : Loaded) :
    (loadExtrasFile dictLevel (mems.flatMap dict2file) loaded).extras =
      loaded.extras ++ mems.flatMap readBack :=
  loadLines_extras h

/-- A quote, a lone NUL and a word with a final NUL. -/
def threeTokens : List (List Byte) := [[chr '"', 0xff], [0], [chr 'G', chr 'E', chr 'T', 0, 0]]

theorem loadExtrasFile_threeTokens :
    (loadExtrasFile 0 (threeTokens.flatMap dict2file) ⟨[], 32, 0, []⟩).extras =
      threeTokens.flatMap readBack :=
  loadExtrasFile_dict2file (by decide) 0 ⟨[], 32, 0, []⟩

example : threeTokens.flatMap readBack = [[chr '"', 0xff], [chr 'G', chr 'E', chr 'T', 0, 0]] := by
  decide

end AflPlusPlus.DictionaryFiles
