import AflPlusPlus.DictionaryFiles

/-!
# What a dictionary file may append

Between the quotes of a line stands a text that the decoder shrinks. A text in which nothing is
left is still appended, as a token of length 0: only a line without a text is complained about.
-/

namespace AflPlusPlus.DictionaryFiles
open ByteWords CStrings TextLines

/-! ## The texts between the quotes -/

/-- The buffers that `fgets` delivers. -/
def fileLines : List Byte → List (List Byte)
  | [] => []
  | b :: file =>
    let r := fgets (maxLine - 1) (b :: file)
    r.1 :: fileLines r.2
termination_by file => file.length
decreasing_by exact fgets_length_lt _ b file

def Keyword.text : Keyword → Option (List Byte)
  | .quoted s => some s
  | _ => none

/-- What stands between the quotes of the lines that come to the decoder. The buffer for a text
is as long as the text. -/
def quotedTexts (dictLevel : BitVec 32) (file : List Byte) : List (List Byte) :=
  (fileLines file).filterMap (fun buf => (findKeyword dictLevel.toInt buf).text)

/-- What the decoder writes for the texts, as far as it is not too big. -/
def fileTokens (dictLevel : BitVec 32) (file : List Byte) : List (List Byte) :=
  ((quotedTexts dictLevel file).map (fun text => (decode text).1)).filter
    (fun keyword => keyword.length ≤ maxDictFile)

variable {dictLevel : BitVec 32} {curLine : ℕ} {text file buf : List Byte} {s : Loaded}

theorem keep_extras (keyword : List Byte) : (s.keep curLine keyword).extras =
    s.extras ++ [keyword].filter (fun keyword => keyword.length ≤ maxDictFile) := by
  rw [Loaded.keep]
  split
  · next hbig => simp [Loaded.warn, Nat.not_le.mpr hbig]
  · next hfits => simp [Nat.not_lt.mp hfits]

theorem line_fileTokens : (s.line dictLevel curLine buf).extras =
    s.extras ++ (((findKeyword dictLevel.toInt buf).text.toList).map
      (fun text => (decode text).1)).filter (fun keyword => keyword.length ≤ maxDictFile) := by
  rw [Loaded.line]
  cases findKeyword dictLevel.toInt buf with
  | skipped => simp [Keyword.text]
  | malformed complaint => simp [Keyword.text, Loaded.warn]
  | quoted text => exact keep_extras (decode text).1

/-- The induction is on the lines. -/
theorem loadLines_fileTokens :
    (loadLines dictLevel curLine s file).extras = s.extras ++ fileTokens dictLevel file := by
  induction curLine, s, file using loadLines.induct dictLevel with
  | case1 curLine s => simp [loadLines, fileTokens, quotedTexts, fileLines]
  | case2 curLine s b file r ih =>
    have htexts : quotedTexts dictLevel (b :: file) =
        (findKeyword dictLevel.toInt r.1).text.toList ++ quotedTexts dictLevel r.2 := by
      rw [quotedTexts, fileLines, List.filterMap_cons]
      cases (findKeyword dictLevel.toInt r.1).text with
      | none => rfl
      | some text => rfl
    rw [loadLines, ih, line_fileTokens, fileTokens, fileTokens, htexts, List.map_append,
      List.filter_append, List.append_assoc]

/-! ## A text in which nothing is left -/

/-- The characters that the decoder jumps over with a warning. -/
def NonPrintable (b : Byte) : Prop := (1 ≤ b ∧ b ≤ 31) ∨ 128 ≤ b

instance (b : Byte) : Decidable (NonPrintable b) := inferInstanceAs (Decidable (_ ∨ _))

/-- Only backslashes that do not follow each other stand among the characters that are jumped
over. -/
def Blank (text : List Byte) : Prop :=
  (∀ b ∈ text, NonPrintable b ∨ b = chr '\\') ∧
    text.IsChain (fun b c => ¬ (b = chr '\\' ∧ c = chr '\\'))

instance (text : List Byte) : Decidable (Blank text) := inferInstanceAs (Decidable (_ ∧ _))

theorem blank_cons {b : Byte} : Blank (b :: text) ↔
    (NonPrintable b ∨ b = chr '\\' ∧ text.head? ≠ some (chr '\\')) ∧ Blank text := by
  have hplain : ¬ NonPrintable (chr '\\') := by decide
  rw [Blank, Blank, List.forall_mem_cons, List.isChain_cons]
  by_cases hb : b = chr '\\'
  · subst hb
    simp only [hplain, Option.mem_def, true_and, false_or, ne_eq, or_true]
    grind
  · simp [hb, and_assoc]

theorem not_blank_second {d : Byte} (h : d = chr '\\' ∨ d = chr '"' ∨ d = chr 'x') :
    ¬ Blank (chr '\\' :: d :: text) := by
  have hquote : ¬ NonPrintable (chr '"') ∧ chr '"' ≠ chr '\\' := by decide
  have hx : ¬ NonPrintable (chr 'x') ∧ chr 'x' ≠ chr '\\' := by decide
  have hplain : ¬ NonPrintable (chr '\\') := by decide
  rw [blank_cons, blank_cons]
  rcases h with rfl | rfl | rfl
  · simp [hplain]
  · simp [hquote]
  · simp [hx]

/-- What a round of the decoder makes of `text`: it jumps over one character, or it writes one. -/
def Round (text : List Byte) (written : List Byte) : Prop :=
  match text with
  | [] => written = []
  | c :: s =>
    ((NonPrintable c ∨ c = chr '\\' ∧ s.head? ≠ some (chr '\\')) ∧ written = (decode s).1) ∨
      ∃ b rest, written = b :: (decode rest).1 ∧ rest.length ≤ s.length ∧ ¬ Blank (c :: s)

/-- An escape that is neither `\\\\` nor `\\"`. -/
theorem decode_escaped (d : Byte) (s : List Byte) (hd : ¬ (d = chr '\\' ∨ d = chr '"')) :
    Round (chr '\\' :: d :: s) (decode (chr '\\' :: d :: s)).1 := by
  have hskip : NonPrintable (chr '\\') ∨
      chr '\\' = chr '\\' ∧ (d :: s).head? ≠ some (chr '\\') := by
    right
    simpa using fun h => hd (Or.inl h)
  rw [decode.eq_def]
  dsimp only
  rw [if_neg (by decide), if_pos rfl, if_neg hd]
  split
  · next high low rest =>
    split
    · exact Or.inl ⟨hskip, rfl⟩
    · next hhex =>
      right
      refine ⟨_, rest, rfl, ?_, not_blank_second ?_⟩
      · simp only [List.length_cons]
        omega
      · push Not at hhex
        exact Or.inr (Or.inr hhex.1)
  · exact Or.inl ⟨hskip, rfl⟩

theorem decode_round (text : List Byte) : Round text (decode text).1 := by
  cases text with
  | nil => simp [decode, Round]
  | cons c s =>
    by_cases hcontrol : (1 ≤ c ∧ c ≤ 31) ∨ 128 ≤ c
    · rw [decode.eq_def]
      dsimp only
      rw [if_pos hcontrol]
      exact Or.inl ⟨Or.inl hcontrol, rfl⟩
    by_cases hc : c = chr '\\'
    · subst hc
      cases s with
      | nil =>
        rw [decode, if_neg (by decide), if_pos rfl]
        exact Or.inl ⟨Or.inr ⟨rfl, by simp⟩, by rw [decode]⟩
      | cons d s =>
        by_cases hd : d = chr '\\' ∨ d = chr '"'
        · rw [decode.eq_def]
          dsimp only
          rw [if_neg (by decide), if_pos rfl, if_pos hd]
          right
          refine ⟨d, s, rfl, Nat.le_succ _, not_blank_second ?_⟩
          rcases hd with hd | hd
          · exact Or.inl hd
          · exact Or.inr (Or.inl hd)
        · exact decode_escaped d s hd
    · rw [decode.eq_def]
      dsimp only
      rw [if_neg hcontrol, if_neg hc]
      right
      refine ⟨c, s, rfl, le_rfl, ?_⟩
      rw [blank_cons]
      rintro ⟨h | h, -⟩
      · exact hcontrol h
      · exact hc h.1

/-- What is written fits into a buffer of the length of the text. -/
theorem decode_length_le (text : List Byte) : (decode text).1.length ≤ text.length := by
  induction h : text.length using Nat.strong_induction_on generalizing text with
  | h n ih =>
    cases text with
    | nil => simp [decode]
    | cons c s =>
      rw [List.length_cons] at h
      rcases decode_round (c :: s) with ⟨-, hwritten⟩ | ⟨b, rest, hwritten, hrest, -⟩
      · have htail := ih s.length (by omega) s rfl
        rw [hwritten]
        omega
      · have htail := ih rest.length (by omega) rest rfl
        rw [hwritten, List.length_cons]
        omega

theorem decode_eq_nil_iff : (decode text).1 = [] ↔ Blank text := by
  induction text with
  | nil => simp [decode, Blank]
  | cons c s ih =>
    rcases decode_round (c :: s) with ⟨hskip, hwritten⟩ | ⟨b, rest, hwritten, -, hblank⟩
    · rw [hwritten, ih, blank_cons, and_iff_right hskip]
    · rw [hwritten]
      simp [hblank]

/-! ## The tokens of a file -/

/-- The decoder keeps to its buffers, and what the file appends to the table are tokens of 1 to
`maxDictFile` bytes. -/
def AppendsTokens (dictLevel : BitVec 32) (file : List Byte) (s : Loaded) : Prop :=
  (∀ text ∈ quotedTexts dictLevel file, (decode text).1.length ≤ text.length) ∧
    ∃ tokens, (loadExtrasFile dictLevel file s).extras = s.extras ++ tokens ∧
      ∀ token ∈ tokens, 1 ≤ token.length ∧ token.length ≤ maxDictFile

theorem fileTokens_sizes_iff : (∀ token ∈ fileTokens dictLevel file,
    1 ≤ token.length ∧ token.length ≤ maxDictFile) ↔
      ∀ text ∈ quotedTexts dictLevel file, ¬ Blank text := by
  constructor
  · intro h text htext hblank
    have hnil := decode_eq_nil_iff.mpr hblank
    have htoken : [] ∈ fileTokens dictLevel file := by
      rw [fileTokens, List.mem_filter, ← hnil]
      exact ⟨List.mem_map_of_mem htext, by simp [hnil]⟩
    exact absurd (h [] htoken).1 (by simp)
  · intro h token htoken
    rw [fileTokens, List.mem_filter, List.mem_map] at htoken
    obtain ⟨⟨text, htext, rfl⟩, hsize⟩ := htoken
    have hleft : (decode text).1 ≠ [] := fun hnil => h text htext (decode_eq_nil_iff.mp hnil)
    exact ⟨List.length_pos_of_ne_nil hleft, of_decide_eq_true hsize⟩

theorem appendsTokens_iff (dictLevel : BitVec 32) (file : List Byte) (s : Loaded) :
    AppendsTokens dictLevel file s ↔ ∀ text ∈ quotedTexts dictLevel file, ¬ Blank text := by
  rw [← fileTokens_sizes_iff, AppendsTokens, and_iff_right (fun text _ => decode_length_le text),
    loadExtrasFile, loadLines_fileTokens]
  constructor
  · rintro ⟨tokens, htokens, hsizes⟩
    rw [List.append_cancel_left htokens]
    exact hsizes
  · intro hsizes
    exact ⟨fileTokens dictLevel file, rfl, hsizes⟩

/-- A line with a lone backslash between its quotes. -/
theorem lone_backslash_appended :
    ¬ AppendsTokens 0 [chr '"', chr '\\', chr '"', chr '\n'] ⟨[], 128, 0, []⟩ := by
  rintro ⟨-, tokens, htokens, hsizes⟩
  have hempty : (loadExtrasFile 0 [chr '"', chr '\\', chr '"', chr '\n'] ⟨[], 128, 0, []⟩).extras =
      [[]] := by
    decide +kernel
  rw [hempty] at htokens
  rw [List.nil_append] at htokens
  exact absurd (hsizes [] (htokens ▸ List.mem_singleton_self [])).1 (by decide)

end AflPlusPlus.DictionaryFiles
