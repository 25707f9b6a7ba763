import AflPlusPlus.CStrings

/-!
# Unrolling string comparisons

The pass of `compare-transform-pass.so.cc`: a call of a comparison function of the C library,
one argument of which is a string that the pass knows, becomes a chain of blocks that
compare one character each. A size that is not a constant is checked before every
character.
-/

namespace AflPlusPlus.CompareTransform
open ByteWords CStrings

inductive CmpFunction
  | strcmp
  | memcmp
  | strncmp
  | strcasecmp
  | strncasecmp
  deriving DecidableEq

namespace CmpFunction

/-- The names of the functions that the pass handles. -/
def ofName (funcName : String) : Option CmpFunction :=
  if funcName = "strcmp" then some strcmp
  else if funcName ∈ ["memcmp", "bcmp", "CRYPTO_memcmp", "OPENSSL_memcmp",
    "memcmp_const_time", "memcmpct"] then some memcmp
  else if funcName = "strncmp" then some strncmp
  else if funcName ∈ ["strcasecmp", "stricmp", "ap_cstr_casecmp", "OPENSSL_strcasecmp",
    "cmsstrcasecmp"] then some strcasecmp
  else if funcName ∈ ["strncasecmp", "strnicmp", "ap_cstr_casecmpn",
    "OPENSSL_strncasecmp"] then some strncasecmp
  else none

def isMemcmp (f : CmpFunction) : Bool := f = memcmp

def isSizedcmp (f : CmpFunction) : Bool := f = memcmp ∨ f = strncmp ∨ f = strncasecmp

def isCaseInsensitive (f : CmpFunction) : Bool := f = strcasecmp ∨ f = strncasecmp

/-- What the function does in the C library. -/
def meaning : CmpFunction → Comparison
  | strcmp | strncmp => .characters
  | strcasecmp | strncasecmp => .caseless
  | memcmp => .bytes

end CmpFunction

inductive SizeArg
  | const (len : ℕ)
  | dynamic

/-- The argument that the pass knows. A constant string is a literal, or a local variable into
which a literal was copied; `getConstantStringInfo` ends it at its first NUL. Other
variables are known by their whole initializer, wherever the argument points into it. -/
inductive KnownArg
  | constantString (bytes : List Byte)
  | initializer (data : List Byte) (offset : ℕ)

namespace KnownArg

/-- The contents that the pass takes for the argument. -/
def contents : KnownArg → List Byte
  | constantString bytes => bytes.takeWhile (· ≠ 0)
  | initializer data _ => data

/-- The array that the argument points to. -/
def memory : KnownArg → List Byte
  | constantString bytes => bytes
  | initializer data offset => data.drop offset

end KnownArg

/-- A call: `hasStr1` tells whether the first or the second argument is the known one. -/
structure CallInst where
  callee : String
  hasStr1 : Bool
  known : KnownArg
  operand2 : Option SizeArg

/-- A block of the unrolled code: `len_check` leaves with the result zero when the size is
`i`, `cmp_added` compares the character at `i` with the constant `c`. -/
inductive UnrolledBlock
  | lenCheck (i : ℕ)
  | cmpAdded (i : ℕ) (c : Byte)

structure UnrolledCode where
  hasStr1 : Bool
  isCaseInsensitive : Bool
  blocks : List UnrolledBlock

namespace CallInst

/-- The first loop over the calls: the prototype fits the name, and the size is not a constant
below two. A size that is not a constant is not accepted for `memcmp`. -/
def select (call : CallInst) : Option CmpFunction := do
  let f ← CmpFunction.ofName call.callee
  if call.operand2.isSome ≠ f.isSizedcmp then none
  else match call.operand2 with
    | some (.const len) => if len < 2 then none else some f
    | some .dynamic => if f.isMemcmp then none else some f
    | none => some f

end CallInst

/-- `TmpConstStr`: functions without a size compare the terminating NUL as well, and only
`memcmp` looks behind a NUL. -/
def tmpConstStr (f : CmpFunction) (str : List Byte) : List Byte :=
  let str := if ¬f.isSizedcmp ∧ str.getLast? ≠ some 0 then str ++ [0] else str
  if ¬f.isMemcmp ∧ 0 ∈ str then str.take (str.idxOf 0 + 1) else str

def unrollLen (operand2 : Option SizeArg) (constStrLen : ℕ) : ℕ :=
  match operand2 with
  | some (.const constSizedLen) =>
    if constSizedLen < constStrLen then constSizedLen else constStrLen
  | _ => constStrLen

/-- The blocks for the characters of `str`, of which the first has the index `i`. -/
def unrollBlocks (f : CmpFunction) (operand2 : Option SizeArg) (str : List Byte) (i : ℕ) :
    List UnrolledBlock :=
  (str.zipIdx i).flatMap fun (char, i) =>
    let c := if f.isCaseInsensitive then tolower char else char
    match operand2 with
    | some .dynamic => [.lenCheck i, .cmpAdded i c]
    | _ => [.cmpAdded i c]

/-- `transformCmps` for one call; there is no result for a call that is left alone. -/
def CallInst.transform (call : CallInst) : Option UnrolledCode := do
  let f ← call.select
  let str := call.known.contents
  if str.length < 2 ∨ (str.length = 2 ∧ str[1]? = some 0) then none
  else
    let constStr := tmpConstStr f str
    let len := unrollLen call.operand2 constStr.length
    some ⟨call.hasStr1, f.isCaseInsensitive, unrollBlocks f call.operand2 (constStr.take len) 0⟩

namespace UnrolledCode

/-- `isub`: the difference of eight bits between the loaded character and the constant. -/
def isub (code : UnrolledCode) (load c : Byte) : Byte :=
  let load := if code.isCaseInsensitive then tolower load else load
  if code.hasStr1 then c - load else load - c

/-- Running the blocks on a size and the array of the other argument. The last block leaves
with its difference, the others when it is not zero. There is no result when a load is behind
the end of the array. -/
def runBlocks (code : UnrolledCode) (size : ℕ) (varStr : List Byte) :
    List UnrolledBlock → Option ℤ
  | [] => some 0
  | .lenCheck i :: rest => if size = i then some 0 else code.runBlocks size varStr rest
  | [.cmpAdded i c] => do
    let load ← varStr[i]?
    some (code.isub load c).toInt
  | .cmpAdded i c :: rest => do
    let load ← varStr[i]?
    if code.isub load c = 0 then code.runBlocks size varStr rest
    else some (code.isub load c).toInt

def run (code : UnrolledCode) (size : ℕ) (varStr : List Byte) : Option ℤ :=
  code.runBlocks size varStr code.blocks

end UnrolledCode

/-- How many characters the call compares at most, when the value of its size is `size`. -/
def CallInst.limit (call : CallInst) (size : ℕ) : Option ℕ :=
  call.operand2.map fun
    | .const len => len
    | .dynamic => size

/-- The call of the library function that the unrolled code replaces. -/
def CallInst.libc (call : CallInst) (f : CmpFunction) (size : ℕ) (varStr : List Byte) : Option ℤ :=
  if call.hasStr1 then f.meaning.compare (call.limit size) call.known.memory varStr
  else f.meaning.compare (call.limit size) varStr call.known.memory

end AflPlusPlus.CompareTransform
