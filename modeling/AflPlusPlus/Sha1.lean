import AflPlusPlus.SecureHash

/-!
# SHA-1 of test cases

The hash that names files with `AFL_SHA1_FILENAMES`. The bytes are put into a buffer of sixteen
words, on a little-endian machine, and the buffer is turned into the message schedule in place.
-/

namespace AflPlusPlus.Sha1

abbrev Byte := BitVec 8
abbrev Word := BitVec 32

structure Sha1nfo where
  buffer : Vector Word 16
  state : Vector Word 5
  byteCount : Word
  bufferOffset : ℕ
  keyBuffer : List Byte
  innerHash : List Byte

/-! ## The buffer -/

/-- `buffer[i & 15]`. -/
def buffered (buffer : Vector Word 16) (i : ℕ) : Word := buffer[i % 16]

def setBuffered (buffer : Vector Word 16) (i : ℕ) (w : Word) : Vector Word 16 :=
  buffer.set (i % 16) w (Nat.mod_lt _ (by decide))

/-- The buffer as bytes in memory. -/
def getByte (buffer : Vector Word 16) (m : ℕ) : Byte :=
  (buffered buffer (m / 4) >>> (8 * (m % 4))).setWidth 8

def setByte (buffer : Vector Word 16) (m : ℕ) (data : Byte) : Vector Word 16 :=
  let lane := 8 * (m % 4)
  setBuffered buffer (m / 4) ((buffered buffer (m / 4) &&&
    ~~~((BitVec.allOnes 8).setWidth 32 <<< lane)) ||| (data.setWidth 32 <<< lane))

/-! ## Hashing -/

def init (s : Sha1nfo) : Sha1nfo := { s with
  state := #v[0x67452301, 0xefcdab89, 0x98badcfe, 0x10325476, 0xc3d2e1f0]
  byteCount := 0
  bufferOffset := 0 }

def rol32 (number : Word) (bits : ℕ) : Word := (number <<< bits) ||| (number >>> (32 - bits))

/-- The buffer and the variables of `hashBlock`. -/
structure Block where
  buffer : Vector Word 16
  a : Word
  b : Word
  c : Word
  d : Word
  e : Word

/-- The buffer after the schedule is extended in step `i`. -/
def extend (buffer : Vector Word 16) (i : ℕ) : Vector Word 16 :=
  if 16 ≤ i then
    let t := buffered buffer (i + 13) ^^^ buffered buffer (i + 8) ^^^ buffered buffer (i + 2) ^^^
      buffered buffer i
    setBuffered buffer i (rol32 t 1)
  else buffer

def hashStep (w : Block) (i : ℕ) : Block :=
  let buffer := extend w.buffer i
  let t :=
    if i < 20 then (w.d ^^^ (w.b &&& (w.c ^^^ w.d))) + 0x5a827999
    else if i < 40 then (w.b ^^^ w.c ^^^ w.d) + 0x6ed9eba1
    else if i < 60 then ((w.b &&& w.c) ||| (w.d &&& (w.b ||| w.c))) + 0x8f1bbcdc
    else (w.b ^^^ w.c ^^^ w.d) + 0xca62c1d6
  let t := t + (rol32 w.a 5 + w.e + buffered buffer i)
  ⟨buffer, t, w.a, rol32 w.b 30, w.c, w.d⟩

/-- The loop of `hashBlock`. -/
@[irreducible] def hashLoop (w : Block) : Block := (List.range 80).foldl hashStep w

/-- The variables are added to the state at the end. -/
def addBlock (s : Sha1nfo) (w : Block) : Sha1nfo := { s with
  buffer := w.buffer
  state := #v[s.state.get 0 + w.a, s.state.get 1 + w.b, s.state.get 2 + w.c, s.state.get 3 + w.d,
    s.state.get 4 + w.e] }

def hashBlock (s : Sha1nfo) : Sha1nfo :=
  addBlock s (hashLoop ⟨s.buffer, s.state.get 0, s.state.get 1, s.state.get 2, s.state.get 3,
    s.state.get 4⟩)

def addUncounted (s : Sha1nfo) (data : Byte) : Sha1nfo :=
  let s := { s with
    buffer := setByte s.buffer (s.bufferOffset ^^^ 3) data
    bufferOffset := s.bufferOffset + 1 }
  if s.bufferOffset = 64 then
    let s := hashBlock s
    { s with bufferOffset := 0 }
  else s

def writebyte (s : Sha1nfo) (data : Byte) : Sha1nfo :=
  addUncounted { s with byteCount := s.byteCount + 1 } data

def write (s : Sha1nfo) (data : List Byte) : Sha1nfo := data.foldl writebyte s

/-- The loop of `pad` up to the last eight bytes of a block, in no more than the given steps. -/
def padZeros : ℕ → Sha1nfo → Option Sha1nfo
  | 0, _ => none
  | n + 1, s => if s.bufferOffset ≠ 56 then padZeros n (addUncounted s 0x00) else some s

def lengthBytes (byteCount : Word) : List Byte :=
  [0#8, 0#8, 0#8, (byteCount >>> 29).setWidth 8, (byteCount >>> 21).setWidth 8,
    (byteCount >>> 13).setWidth 8, (byteCount >>> 5).setWidth 8, (byteCount <<< 3).setWidth 8]

def pad (s : Sha1nfo) : Option Sha1nfo :=
  (padZeros 64 (addUncounted s 0x80)).map fun s => (lengthBytes s.byteCount).foldl addUncounted s

def swapBytes (w : Word) : Word :=
  (w <<< 24 &&& 0xff000000) ||| (w <<< 8 &&& 0x00ff0000) ||| (w >>> 8 &&& 0x0000ff00) |||
    (w >>> 24 &&& 0x000000ff)

/-- The bytes of a word in memory. -/
def memoryBytes (w : Word) : List Byte :=
  [w.setWidth 8, (w >>> 8).setWidth 8, (w >>> 16).setWidth 8, (w >>> 24).setWidth 8]

def swapState (s : Sha1nfo) : Sha1nfo := { s with state := s.state.map swapBytes }

/-- The hash is what the state has in memory, after its bytes are swapped. -/
def result (s : Sha1nfo) : Option (Sha1nfo × List Byte) :=
  (pad s).map fun s => (swapState s, (swapState s).state.toList.flatMap memoryBytes)

/-- The fields of `s` are not set to anything before. -/
def sha1 (s : Sha1nfo) (data : List Byte) : Option (List Byte) :=
  (result (write (init s) data)).map Prod.snd

/-! ## Authentication codes -/

def initHmac (s : Sha1nfo) (key : List Byte) : Option Sha1nfo := do
  let s := { s with keyBuffer := List.replicate 64 0 }
  let s ← if 64 < key.length then do
      let (s, hash) ← result (write (init s) key)
      some { s with keyBuffer := hash ++ s.keyBuffer.drop hash.length }
    else some { s with keyBuffer := key ++ s.keyBuffer.drop key.length }
  some (write (init s) (s.keyBuffer.map (· ^^^ 0x36)))

def resultHmac (s : Sha1nfo) : Option (List Byte) := do
  let (s, hash) ← result s
  let s := { s with innerHash := hash }
  let s := write (init s) (s.keyBuffer.map (· ^^^ 0x5c))
  let (_, hash) ← result (write s s.innerHash)
  some hash

end AflPlusPlus.Sha1
