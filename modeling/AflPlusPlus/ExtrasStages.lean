import AflPlusPlus.ByteBuffers
import AflPlusPlus.Limits
import AflPlusPlus.Overlays

/-!
# The deterministic stages with dictionary tokens

The stages of `fuzz_one_original` that write a token over the input or insert it, once with the
user's tokens and once with those that the fuzzer has found itself.
-/

namespace AflPlusPlus.ExtrasStages
open ByteWords ByteBuffers Overlays

/-! ## Tokens over the input -/

/-- A call of `common_fuzz_stuff` with `out_buf`, after a write of the given token. -/
structure OverExec where
  stageCurByte : ℕ
  extra : ℕ
  buf : Buffer
  deriving DecidableEq

structure OverState where
  outBuf : Buffer
  lastLen : ℕ := 0
  execs : List OverExec := []

section Over
variable (inBuf : Buffer) (extras : List Buffer) (skipEffMap : ℕ → Bool) (skips : ℕ → ℕ → Bool)

/-- One token at offset `i`. The last of the three reasons to go on is the `memcmp`. -/
def tryExtra (i j : ℕ) (extra : Buffer) (s : OverState) : OverState :=
  if skips i j ∨ extra.length > s.outBuf.length - i ∨
      extra = (s.outBuf.drop i).take extra.length then s
  else
    let outBuf := overlay s.outBuf i extra
    ⟨outBuf, extra.length, s.execs ++ [⟨i, j, outBuf⟩]⟩

/-- The tokens from the `j`-th on at offset `i`. -/
def tryExtras (i : ℕ) : ℕ → List Buffer → OverState → OverState
  | _, [], s => s
  | j, extra :: rest, s => tryExtras i (j + 1) rest (tryExtra skips i j extra s)

/-- All tokens at one offset. What the last of them has covered is restored. -/
def overOffset (s : OverState) (i : ℕ) : OverState :=
  if skipEffMap i then
    let s := tryExtras skips i 0 extras { s with lastLen := 0 }
    { s with outBuf := overlay s.outBuf i ((inBuf.drop i).take s.lastLen) }
  else s

end Over

/-- A call of `common_fuzz_stuff` with `ex_tmp`. -/
structure InsertExec where
  stageCurByte : ℕ
  extra : Buffer
  buf : Buffer
  deriving DecidableEq

/-- The buffer `ex_tmp` is not cleared when the stage begins. -/
structure InsertState where
  exTmp : ℕ → Byte
  execs : List InsertExec := []

/-- `memcpy(mem + i, bytes, len)` -/
def copyTo (mem : ℕ → Byte) (i : ℕ) (bytes : Buffer) : ℕ → Byte :=
  fun k => if i ≤ k ∧ k < i + bytes.length then byteAt bytes (k - i) else mem k

section Insert
variable (outBuf : Buffer) (extras : List Buffer) (skipEffMap : ℕ → Bool)

def insertExtra (i : ℕ) (s : InsertState) (extra : Buffer) : InsertState :=
  if outBuf.length + extra.length > maxFile then s
  else
    let exTmp := copyTo s.exTmp i extra
    let exTmp := copyTo exTmp (i + extra.length) (outBuf.drop i)
    ⟨exTmp, s.execs ++ [⟨i, extra, (List.range (outBuf.length + extra.length)).map exTmp⟩]⟩

/-- All tokens at one offset, and then one more byte of the head. -/
def insertOffset (s : InsertState) (i : ℕ) : InsertState :=
  if skipEffMap (i % outBuf.length) then
    let s := extras.foldl (insertExtra outBuf i) s
    { s with exTmp := Function.update s.exTmp i (byteAt outBuf i) }
  else s

/-- The first `n` offsets of a stage. -/
def insertOffsets (n : ℕ) (s : InsertState) : InsertState :=
  (List.range n).foldl (insertOffset outBuf extras skipEffMap) s

end Insert

/-- `user extras (insert)` -/
def userExtrasInsert (outBuf : Buffer) (extras : List Buffer) (skipEffMap : ℕ → Bool) :
    InsertState → InsertState :=
  insertOffsets outBuf extras skipEffMap (outBuf.length + 1)

/-- `auto extras (insert)`, with all of the tokens. -/
def autoExtrasInsert (outBuf : Buffer) (aExtras : List Buffer) (skipEffMap : ℕ → Bool) :
    InsertState → InsertState :=
  insertOffsets outBuf aExtras skipEffMap (outBuf.length + 1)

end AflPlusPlus.ExtrasStages
