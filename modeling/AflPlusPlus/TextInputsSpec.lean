import AflPlusPlus.TextInputs

/-!
# What the classifier says of text

The scanner takes one character of well-formed text in each round. The size that it counts the
characters against ends as their number, so the percentage is 100.
-/

namespace AflPlusPlus.TextInputs
open ByteWords ByteBuffers TextLines

variable {c : Counts} {buf rest : Buffer} {char : Char} {chars : List Char}

/-! ## Well-formed text -/

/-- The UTF-8 encoding of a character. -/
def encodeChar (char : Char) : Buffer := (String.utf8EncodeChar char).map UInt8.toBitVec

def encode (chars : List Char) : Buffer := chars.flatMap encodeChar

/-- Tab, newline, carriage return, printable ASCII, or a character of more bytes. -/
def TextChar (char : Char) : Prop :=
  char = '\t' ∨ char = '\n' ∨ char = '\r' ∨ (' ' ≤ char ∧ char ≤ '~') ∨ 128 ≤ char.toNat

instance (char : Char) : Decidable (TextChar char) := inferInstanceAs (Decidable (_ ∨ _))

def IsText (buf : Buffer) : Prop := ∃ chars, (∀ char ∈ chars, TextChar char) ∧ buf = encode chars

theorem encodeChar_one (h : char.toNat < 0x80) :
    encodeChar char = [BitVec.ofNat 8 char.toNat] := by
  have hle : char.val.toNat ≤ 0x7f := Nat.le_of_lt_succ h
  rw [encodeChar, String.utf8EncodeChar]
  simp only [hle, if_true]
  rfl

theorem encodeChar_two (hmin : 0x80 ≤ char.toNat) (hmax : char.toNat < 0x800) :
    encodeChar char = [BitVec.ofNat 8 (char.toNat / 64 % 0x20 + 0xc0),
      BitVec.ofNat 8 (char.toNat % 0x40 + 0x80)] := by
  have hgt : ¬ char.val.toNat ≤ 0x7f := Nat.not_le.mpr hmin
  have hle : char.val.toNat ≤ 0x7ff := Nat.le_of_lt_succ hmax
  rw [encodeChar, String.utf8EncodeChar]
  simp only [hgt, hle, if_true, if_false]
  rfl

theorem encodeChar_three (hmin : 0x800 ≤ char.toNat) (hmax : char.toNat < 0x10000) :
    encodeChar char = [BitVec.ofNat 8 (char.toNat / 4096 % 0x10 + 0xe0),
      BitVec.ofNat 8 (char.toNat / 64 % 0x40 + 0x80), BitVec.ofNat 8 (char.toNat % 0x40 + 0x80)] := by
  have hgt : ¬ char.val.toNat ≤ 0x7f := by
    have hval : 0x800 ≤ char.val.toNat := hmin
    omega
  have hgt' : ¬ char.val.toNat ≤ 0x7ff := Nat.not_le.mpr hmin
  have hle : char.val.toNat ≤ 0xffff := Nat.le_of_lt_succ hmax
  rw [encodeChar, String.utf8EncodeChar]
  simp only [hgt, hgt', hle, if_true, if_false]
  rfl

theorem encodeChar_four (hmin : 0x10000 ≤ char.toNat) :
    encodeChar char = [BitVec.ofNat 8 (char.toNat / 262144 % 0x08 + 0xf0),
      BitVec.ofNat 8 (char.toNat / 4096 % 0x40 + 0x80),
      BitVec.ofNat 8 (char.toNat / 64 % 0x40 + 0x80), BitVec.ofNat 8 (char.toNat % 0x40 + 0x80)] := by
  have hval : 0x10000 ≤ char.val.toNat := hmin
  have hgt : ¬ char.val.toNat ≤ 0x7f := by omega
  have hgt' : ¬ char.val.toNat ≤ 0x7ff := by omega
  have hgt'' : ¬ char.val.toNat ≤ 0xffff := by omega
  rw [encodeChar, String.utf8EncodeChar]
  simp only [hgt, hgt', hgt'', if_false]
  rfl

/-! ## One round of the scanner -/

theorem lead_not_ascii (c : Counts) (b : Byte) (h : 0xC2 ≤ b) :
    plain b = false ∧ c.countAscii b = c := by
  have hbyte : ∀ b : Byte, 0xC2 ≤ b → plain b = false ∧ (isascii b || isprint b) = false := by
    decide
  rw [Counts.countAscii, (hbyte b h).2]
  exact ⟨(hbyte b h).1, rfl⟩

theorem plain_of_textChar (h : TextChar char) (hascii : char.toNat < 0x80) :
    plain (BitVec.ofNat 8 char.toNat) = true := by
  rcases h with rfl | rfl | rfl | ⟨hmin, hmax⟩ | hmulti
  · decide
  · decide
  · decide
  · have hlow : 0x20 ≤ char.toNat := hmin
    have hhigh : char.toNat ≤ 0x7E := hmax
    have hmod : char.toNat % 256 = char.toNat := Nat.mod_eq_of_lt (by omega)
    simp [plain, BitVec.le_def, hmod, hlow, hhigh]
  · omega

theorem scan_two {a b : ℕ} (ha : 0xC2 ≤ a ∧ a ≤ 0xDF) (hb : 0x80 ≤ b ∧ b ≤ 0xBF) :
    scan c (BitVec.ofNat 8 a :: BitVec.ofNat 8 b :: rest) =
      scan ⟨c.ascii, c.utf8 + 1, c.comp - 1⟩ rest := by
  have hlead : (0xC2 : Byte) ≤ BitVec.ofNat 8 a := by
    rw [BitVec.le_def, BitVec.toNat_ofNat, Nat.mod_eq_of_lt (by omega)]
    exact ha.1
  obtain ⟨hplain, hascii⟩ := lead_not_ascii c _ hlead
  have htwo : twoBytes (BitVec.ofNat 8 a :: BitVec.ofNat 8 b :: rest) = true := by
    simp [twoBytes, byteAt, BitVec.le_def]
    omega
  rw [scan, hplain, hascii, htwo]
  rfl

theorem scan_three {a b d : ℕ} (ha : 0xE0 ≤ a ∧ a ≤ 0xEF) (hb : 0x80 ≤ b ∧ b ≤ 0xBF)
    (hd : 0x80 ≤ d ∧ d ≤ 0xBF) (hoverlong : a = 0xE0 → 0xA0 ≤ b) (hsurrogate : a = 0xED → b ≤ 0x9F) :
    scan c (BitVec.ofNat 8 a :: BitVec.ofNat 8 b :: BitVec.ofNat 8 d :: rest) =
      scan ⟨c.ascii, c.utf8 + 1, c.comp - 2⟩ rest := by
  have hlead : (0xC2 : Byte) ≤ BitVec.ofNat 8 a := by
    rw [BitVec.le_def, BitVec.toNat_ofNat, Nat.mod_eq_of_lt (by omega)]
    exact le_trans (by decide) ha.1
  obtain ⟨hplain, hascii⟩ := lead_not_ascii c _ hlead
  have htwo : twoBytes (BitVec.ofNat 8 a :: BitVec.ofNat 8 b :: BitVec.ofNat 8 d :: rest) =
      false := by
    simp [twoBytes, byteAt, BitVec.le_def]
    omega
  have hthree : threeBytes (BitVec.ofNat 8 a :: BitVec.ofNat 8 b :: BitVec.ofNat 8 d :: rest) =
      true := by
    simp [threeBytes, byteAt, BitVec.le_def, ← BitVec.toNat_inj]
    omega
  rw [scan, hplain, hascii, htwo, hthree]
  rfl

theorem scan_four {a b d e : ℕ} (ha : 0xF0 ≤ a ∧ a ≤ 0xF4) (hb : 0x80 ≤ b ∧ b ≤ 0xBF)
    (hd : 0x80 ≤ d ∧ d ≤ 0xBF) (he : 0x80 ≤ e ∧ e ≤ 0xBF) (hoverlong : a = 0xF0 → 0x90 ≤ b)
    (hplanes : a = 0xF4 → b ≤ 0x8F) :
    scan c (BitVec.ofNat 8 a :: BitVec.ofNat 8 b :: BitVec.ofNat 8 d :: BitVec.ofNat 8 e :: rest) =
      scan ⟨c.ascii, c.utf8 + 1, c.comp - 3⟩ rest := by
  have hlead : (0xC2 : Byte) ≤ BitVec.ofNat 8 a := by
    rw [BitVec.le_def, BitVec.toNat_ofNat, Nat.mod_eq_of_lt (by omega)]
    exact le_trans (by decide) ha.1
  obtain ⟨hplain, hascii⟩ := lead_not_ascii c _ hlead
  have htwo : twoBytes (BitVec.ofNat 8 a :: BitVec.ofNat 8 b :: BitVec.ofNat 8 d ::
      BitVec.ofNat 8 e :: rest) = false := by
    simp [twoBytes, byteAt, BitVec.le_def]
    omega
  have hthree : threeBytes (BitVec.ofNat 8 a :: BitVec.ofNat 8 b :: BitVec.ofNat 8 d ::
      BitVec.ofNat 8 e :: rest) = false := by
    simp [threeBytes, byteAt, BitVec.le_def, ← BitVec.toNat_inj]
    omega
  have hfour : fourBytes (BitVec.ofNat 8 a :: BitVec.ofNat 8 b :: BitVec.ofNat 8 d ::
      BitVec.ofNat 8 e :: rest) = true := by
    simp [fourBytes, byteAt, BitVec.le_def, ← BitVec.toNat_inj]
    omega
  rw [scan, hplain, hascii, htwo, hthree, hfour]
  rfl

/-- Well-formed text is taken one character in each round. -/
theorem scan_encodeChar (h : TextChar char) : scan c (encodeChar char ++ rest) =
    scan ⟨c.ascii + if char.toNat < 0x80 then 1 else 0, c.utf8 + 1,
      c.comp - ((encodeChar char).length - 1)⟩ rest := by
  have hvalid : char.toNat < 0xd800 ∨ 0xdfff < char.toNat ∧ char.toNat < 0x110000 := char.valid
  rcases Nat.lt_or_ge char.toNat 0x80 with h1 | h1
  · rw [encodeChar_one h1, List.singleton_append, scan, if_pos (plain_of_textChar h h1), if_pos h1]
    simp
  rw [if_neg (Nat.not_lt.mpr h1), Nat.add_zero]
  rcases Nat.lt_or_ge char.toNat 0x800 with h2 | h2
  · rw [encodeChar_two h1 h2]
    exact scan_two (by omega) (by omega)
  rcases Nat.lt_or_ge char.toNat 0x10000 with h3 | h3
  · rw [encodeChar_three h2 h3]
    exact scan_three (by omega) (by omega) (by omega) (by omega) (by omega)
  · rw [encodeChar_four h3]
    exact scan_four (by omega) (by omega) (by omega) (by omega) (by omega) (by omega)

theorem scan_encode (h : ∀ char ∈ chars, TextChar char) : scan c (encode chars) =
    ⟨c.ascii + chars.countP (fun char => char.toNat < 0x80), c.utf8 + chars.length,
      c.comp - ((encode chars).length - chars.length)⟩ := by
  induction chars generalizing c with
  | nil => simp [encode, scan]
  | cons char chars ih =>
    obtain ⟨hchar, hchars⟩ := List.forall_mem_cons.mp h
    rw [encode, List.flatMap_cons, scan_encodeChar hchar, ← encode, ih hchars]
    simp only [Counts.mk.injEq, List.countP_cons, List.length_cons, List.length_append,
      decide_eq_true_eq]
    refine ⟨by omega, by omega, ?_⟩
    push_cast
    ring

/-! ## The size that is left -/

theorem countAscii_comp (c : Counts) (b : Byte) : (c.countAscii b).comp = c.comp := by
  rw [Counts.countAscii]
  split <;> rfl

/-- A round takes off the bytes behind the first one of a character. -/
theorem scan_cons (c : Counts) (b : Byte) (buf : Buffer) : ∃ c' n,
    scan c (b :: buf) = scan c' (buf.drop n) ∧ n ≤ 3 ∧ n ≤ buf.length ∧ c'.comp = c.comp - n := by
  rw [scan]
  dsimp only
  split_ifs with hplain htwo hthree hfour
  · exact ⟨_, 0, rfl, by omega, by omega, by simp⟩
  · rw [twoBytes, Bool.and_eq_true, List.length_cons, decide_eq_true_eq] at htwo
    refine ⟨_, 1, rfl, by omega, by omega, ?_⟩
    rw [countAscii_comp, Nat.cast_one]
  · rw [threeBytes, Bool.and_eq_true, List.length_cons, decide_eq_true_eq] at hthree
    refine ⟨_, 2, rfl, by omega, by omega, ?_⟩
    rw [countAscii_comp, Nat.cast_ofNat]
  · rw [fourBytes, Bool.and_eq_true, List.length_cons, decide_eq_true_eq] at hfour
    refine ⟨_, 3, rfl, by omega, by omega, ?_⟩
    rw [countAscii_comp, Nat.cast_ofNat]
  · refine ⟨_, 0, rfl, by omega, by omega, ?_⟩
    rw [countAscii_comp, Nat.cast_zero, sub_zero]

/-- Four bytes of the buffer are gone for three that are taken off. -/
theorem scan_comp (c : Counts) (buf : Buffer) :
    4 * c.comp - 3 * buf.length ≤ 4 * (scan c buf).comp := by
  induction h : buf.length using Nat.strong_induction_on generalizing c buf with
  | h len ih =>
    cases buf with
    | nil =>
      rw [scan]
      omega
    | cons b buf =>
      obtain ⟨c', n, hscan, hthree, hn, hcomp⟩ := scan_cons c b buf
      rw [List.length_cons] at h
      have hrest := ih (buf.drop n).length (by rw [List.length_drop]; omega) c' (buf.drop n) rfl
      rw [List.length_drop] at hrest
      rw [hscan]
      omega

/-! ## The classes -/

theorem quotient_eq {a b : ℕ} (h : b ≠ 0) (ha : a < 2 ^ 32) :
    quotient (a : ℕ) (b : ℕ) = some (a / b) := by
  have hb : (b : ℤ) ≠ 0 := Nat.cast_ne_zero.mpr h
  have hle : a / b < 2 ^ 32 := (Nat.div_le_self a b).trans_lt ha
  rw [quotient, if_neg hb, ← Int.ofNat_tdiv, BitVec.ofInt_natCast, BitVec.toNat_ofNat,
    Nat.mod_eq_of_lt hle]

theorem classify_isSome {len : ℕ} (hcomp : c.comp ≠ 0) (hlen : len ≠ 0) :
    (classify c len).isSome := by
  have hlen' : (len : ℤ) ≠ 0 := Nat.cast_ne_zero.mpr hlen
  rw [classify, quotient, if_neg hcomp, Option.bind_some, quotient, if_neg hlen',
    Option.bind_some]
  split_ifs <;> rfl

theorem readLen_pos {qLen : ℕ} (h : ¬ (qLen < aflTxtMinLen ∨ qLen < aflTxtMaxLen)) :
    0 < readLen qLen := by
  have hmin : 0 < aflTxtMinLen ∧ 0 < maxFile - 1 := by decide
  rw [readLen]
  split <;> omega

/-- No division traps, whatever the file holds. -/
theorem checkIfText_isSome (qLen : ℕ) (file : Option (List Byte)) :
    (checkIfText qLen file).isSome := by
  rw [checkIfText.eq_def]
  split
  · rfl
  · next hguard =>
    have hpos : 0 < readLen qLen := readLen_pos hguard
    cases file with
    | none => rfl
    | some file =>
      dsimp only
      split
      · rfl
      · next hread =>
        have hleft := scan_comp ⟨0, 0, (file.take (readLen qLen)).length⟩ (file.take (readLen qLen))
        dsimp only at hleft
        exact classify_isSome (by omega) hpos.ne'

theorem classify_text {ascii utf8 len : ℕ} (hutf8 : 0 < utf8) (hascii : ascii ≤ utf8)
    (hlen : utf8 ≤ len) (hmax : len < maxFile) : classify ⟨ascii, utf8, utf8⟩ len = some 2 := by
  have hsmall : maxFile * 100 < 2 ^ 32 := by decide
  have hpercent : aflTxtMinPercent ≤ 100 := by decide
  have hle : ascii * 100 / len ≤ 100 := by
    apply Nat.div_le_of_le_mul
    exact Nat.mul_le_mul_right 100 (hascii.trans hlen)
  rw [classify]
  dsimp only
  rw [Nat.mod_eq_of_lt (by omega), Nat.mod_eq_of_lt (by omega), quotient_eq hutf8.ne' (by omega),
    quotient_eq (by omega) (by omega), Option.bind_some, Option.bind_some,
    Nat.mul_div_cancel_left 100 hutf8]
  exact if_pos ⟨hle, hpercent⟩

theorem length_le_encode : chars.length ≤ (encode chars).length := by
  induction chars with
  | nil => simp
  | cons char chars ih =>
    have hchar : 0 < (encodeChar char).length := by
      rw [encodeChar, List.length_map, String.length_utf8EncodeChar]
      exact char.utf8Size_pos
    rw [encode, List.flatMap_cons, ← encode, List.length_append, List.length_cons]
    omega

/-- What the sibling for a buffer counts in text are its characters. -/
theorem checkIfTextBuf_text (h : ∀ char ∈ chars, TextChar char) :
    checkIfTextBuf (encode chars) = chars.length % 2 ^ 8 := by
  have hascii : chars.countP (fun char => char.toNat < 0x80) ≤ chars.length :=
    List.countP_le_length
  rw [checkIfTextBuf, scan_encode h]
  dsimp only
  rw [Nat.zero_add, Nat.zero_add]
  split
  · rfl
  · next hge => rw [le_antisymm hascii (Nat.not_lt.mp hge)]

theorem checkIfText_longest (h : IsText buf) (hlen : buf.length = aflTxtMaxLen) :
    checkIfText buf.length (some buf) = some 2 := by
  have hconst : ¬ (aflTxtMaxLen < aflTxtMinLen ∨ aflTxtMaxLen < aflTxtMaxLen) := by decide
  have hread : readLen aflTxtMaxLen = aflTxtMaxLen := by decide
  have hfits : 0 < aflTxtMaxLen ∧ aflTxtMaxLen < maxFile := by decide
  obtain ⟨chars, hchars, rfl⟩ := h
  have hpos : 0 < chars.length := by
    apply List.length_pos_of_ne_nil
    rintro rfl
    rw [encode, List.flatMap_nil, List.length_nil] at hlen
    omega
  have htake : (encode chars).take aflTxtMaxLen = encode chars :=
    List.take_of_length_le hlen.le
  rw [hlen, checkIfText.eq_def, if_neg hconst, hread]
  dsimp only
  rw [htake, if_neg (not_not.mpr hlen), scan_encode hchars, Nat.zero_add, Nat.zero_add,
    sub_sub_cancel]
  apply classify_text hpos List.countP_le_length
  · exact hlen ▸ length_le_encode
  · exact hfits.2

theorem checkIfText_short {qLen : ℕ} (file : Option (List Byte)) (h : qLen < aflTxtMaxLen) :
    checkIfText qLen file = some 0 := by
  rw [checkIfText.eq_def, if_pos (Or.inr h)]

/-- Text of a length between the limits is classified as UTF-8. -/
def ClassifiesText (buf : Buffer) : Prop :=
  IsText buf → aflTxtMinLen ≤ buf.length → buf.length ≤ aflTxtMaxLen →
    checkIfText buf.length (some buf) = some 2

/-- The guard lets only the longest of these inputs through. -/
theorem classifiesText_iff (buf : Buffer) (qLen : ℕ) (file : Option (List Byte)) :
    (ClassifiesText buf ↔
      ¬ (IsText buf ∧ aflTxtMinLen ≤ buf.length ∧ buf.length < aflTxtMaxLen)) ∧
    (checkIfText qLen file).isSome := by
  constructor
  · constructor
    · rintro h ⟨htext, hmin, hmax⟩
      have hclass := h htext hmin hmax.le
      rw [checkIfText_short _ hmax] at hclass
      exact absurd hclass (by decide)
    · intro h htext hmin hmax
      apply checkIfText_longest htext
      by_contra hne
      exact h ⟨htext, hmin, lt_of_le_of_ne hmax hne⟩
  · exact checkIfText_isSome qLen file

/-- Twelve letters. -/
theorem twelve_letters_not_text : ¬ ClassifiesText (List.replicate 12 (chr 'a')) := by
  intro h
  have hchar : TextChar 'a' := Or.inr (Or.inr (Or.inr (Or.inl (by decide))))
  have htext : IsText (List.replicate 12 (chr 'a')) := by
    refine ⟨List.replicate 12 'a', ?_, by decide +kernel⟩
    intro char hmem
    rwa [List.eq_of_mem_replicate hmem]
  have hlen : (List.replicate 12 (chr 'a')).length = 12 := List.length_replicate
  have hclass := h htext (by rw [hlen, aflTxtMinLen]) (by rw [hlen, aflTxtMaxLen]; omega)
  rw [checkIfText_short _ (by rw [hlen, aflTxtMaxLen]; omega)] at hclass
  exact absurd hclass (by decide)

end AflPlusPlus.TextInputs
