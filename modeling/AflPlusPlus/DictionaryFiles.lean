import AflPlusPlus.CStrings
import AflPlusPlus.TextLines

/-!
# Dictionary files

The compiler pass `AFLdict2filePass` writes each token that it finds as a line of a dictionary
file. The fuzzer reads the lines back with `load_extras_file`, which also accepts the labels,
levels and comments that people write.
-/

namespace AflPlusPlus.DictionaryFiles
open ByteWords CStrings TextLines

def maxAutoExtra : ℕ := 32

def maxLine : ℕ := 8192

def maxDictFile : ℕ := 128

def hexdigits : List Byte := ['0', '1', '2', '3', '4', '5', '6', '7', '8', '9', 'a', 'b', 'c',
  'd', 'e', 'f'].map chr

/-! ## Writing -/

/-- What `sprintf` makes of a byte and the format `\\x%02x`. -/
def escape (b : Byte) : List Byte :=
  [chr '\\', chr 'x', hexdigits.getD (b.toNat / 16) 0, hexdigits.getD (b.toNat % 16) 0]

def literal (b : Byte) : Bool := isprint b && b != chr '\\' && b != chr '"'

/-- The loop of `dict2file` over the bytes that are left: what it adds to the line. -/
def dict2fileLoop (len : ℕ) (binary : Bool) : List Byte → List Byte
  | [] => []
  | b :: mem =>
    if literal b then b :: dict2fileLoop len binary mem
    else if mem ≠ [] ∨ b ≠ 0 ∨ binary ∨ len = 4 ∨ len = 8 then
      escape b ++ dict2fileLoop len true mem
    else dict2fileLoop len true mem

/-- The line that is written for a token. -/
def dict2file (mem : List Byte) : List Byte :=
  [chr '"'] ++ dict2fileLoop mem.length false mem ++ [chr '"', chr '\n']

/-! ## Reading -/

inductive Complaint
  | malformedValue
  | malformedKeyword
  | emptyKeyword
  | nonPrintable
  | invalidEscaping
  | keywordTooBig
deriving DecidableEq

structure Warning where
  complaint : Complaint
  curLine : ℕ
deriving DecidableEq

/-- What `load_extras_file` changes: the table of the user's tokens, the range of their sizes,
and what it printed. -/
structure Loaded where
  extras : List (List Byte)
  minLen : ℕ
  maxLen : ℕ
  warnings : List Warning
deriving DecidableEq

def trim (s : List Byte) : List Byte := (s.dropWhile isspace).rdropWhile isspace

def skipLabel (s : List Byte) : List Byte := s.dropWhile (fun b => isalnum b || b == chr '_')

/-- If `@number` follows, parse that. There is no result when the level is too high. -/
def skipLevel (dictLevel : ℤ) : List Byte → Option (List Byte)
  | [] => some []
  | b :: s =>
    if b = chr '@' then
      if atoi s > dictLevel then none else some (s.dropWhile isdigit)
    else some (b :: s)

/-- Skip `[number]`. -/
def skipNumber : List Byte → List Byte
  | [] => []
  | b :: s =>
    if b = chr '[' then
      match s.dropWhile isdigit with
      | [] => []
      | c :: rest => if c = chr ']' then rest else c :: rest
    else b :: s

def skipEquals (s : List Byte) : List Byte := s.dropWhile (fun b => isspace b || b == chr '=')

/-- What stands in a line. -/
inductive Keyword
  | skipped
  | malformed (complaint : Complaint)
  | quoted (s : List Byte)
deriving DecidableEq

/-- The string after its label, up to the quote at its end. -/
def openKeyword (s : List Byte) : Keyword :=
  match skipEquals (skipNumber s) with
  | [] => .malformed .malformedKeyword
  | b :: s =>
    if b ≠ chr '"' then .malformed .malformedKeyword
    else if s = [] then .malformed .emptyKeyword
    else .quoted s

def findKeyword (dictLevel : ℤ) (buf : List Byte) : Keyword :=
  let s := trim (cstring buf)
  if s = [] ∨ s.head? = some (chr '#') then .skipped
  else if s.getLast? ≠ some (chr '"') then .malformed .malformedValue
  else
    match skipLevel dictLevel (skipLabel s.dropLast) with
    | none => .skipped
    | some s => openKeyword s

/-- The index of a digit among `hexdigits`. -/
def hexValue (b : Byte) : ℕ := hexdigits.idxOf (tolower b)

/-- The characters between the quotes, with `\\xNN`, `\\\\` and `\\"` replaced, and the warnings
on the way. -/
def decode : List Byte → List Byte × List Complaint
  | [] => ([], [])
  | c :: s =>
    if (1 ≤ c ∧ c ≤ 31) ∨ 128 ≤ c then
      let r := decode s
      (r.1, .nonPrintable :: r.2)
    else if c = chr '\\' then
      match s with
      | [] => ([], [.invalidEscaping])
      | d :: s =>
        if d = chr '\\' ∨ d = chr '"' then
          let r := decode s
          (d :: r.1, r.2)
        else
          match s with
          | high :: low :: rest =>
            if d ≠ chr 'x' ∨ !isxdigit high ∨ !isxdigit low then
              let r := decode (d :: high :: low :: rest)
              (r.1, .invalidEscaping :: r.2)
            else
              let r := decode rest
              (BitVec.ofNat 8 (16 * hexValue high + hexValue low) :: r.1, r.2)
          | short =>
            let r := decode (d :: short)
            (r.1, .invalidEscaping :: r.2)
    else
      let r := decode s
      (c :: r.1, r.2)
termination_by s => s.length

def Loaded.warn (s : Loaded) (curLine : ℕ) (complaints : List Complaint) : Loaded :=
  { s with warnings := s.warnings ++ complaints.map (fun c => ⟨c, curLine⟩) }

/-- Keep a decoded keyword, unless it is too big. -/
def Loaded.keep (s : Loaded) (curLine : ℕ) (keyword : List Byte) : Loaded :=
  let klen := keyword.length
  if klen > maxDictFile then s.warn curLine [.keywordTooBig]
  else { s with
    extras := s.extras ++ [keyword], minLen := min s.minLen klen, maxLen := max s.maxLen klen }

/-- One round of the loop, for the line that `fgets` delivered. -/
def Loaded.line (dictLevel : BitVec 32) (curLine : ℕ) (buf : List Byte) (s : Loaded) : Loaded :=
  match findKeyword dictLevel.toInt buf with
  | .skipped => s
  | .malformed complaint => s.warn curLine [complaint]
  | .quoted text =>
    let r := decode text
    (s.warn curLine r.2).keep curLine r.1

/-- The loop, after `curLine` lines. -/
def loadLines (dictLevel : BitVec 32) (curLine : ℕ) (s : Loaded) : List Byte → Loaded
  | [] => s
  | b :: file =>
    let r := fgets (maxLine - 1) (b :: file)
    loadLines dictLevel (curLine + 1) (s.line dictLevel (curLine + 1) r.1) r.2
termination_by file => file.length
decreasing_by exact fgets_length_lt _ b file

def loadExtrasFile (dictLevel : BitVec 32) (file : List Byte) (s : Loaded) : Loaded :=
  loadLines dictLevel 0 s file

end AflPlusPlus.DictionaryFiles
