import AflPlusPlus.CompareInstructions

/-!
# Splitting floating-point comparisons

The part of `split-compares-pass.so.cc` that rewrites `fcmp` instructions:
`simplifyFPCompares` separates the equality from the non-strict predicates,
`splitFPCompares` compares signs, exponents and fractions with integer instructions.
-/

namespace AflPlusPlus.SplitFloatCompares
open ControlFlow CompareInstructions FloatFormats

section Selection

variable {σ : Type}

/-- The comparisons of a function, block after block, that a pass selects by their format,
predicate and operands. -/
def selectCompares (F : Func (Op σ))
    (select : Format → FloatPredicate → Operand → Operand → Bool) : List ℕ :=
  (List.range F.nextLabel).flatMap fun l => (F.blocks l).body.filterMap fun I =>
    match I with
    | ⟨id, .fcmp f p, [op0, op1]⟩ => if select f p op0 op1 then some id else none
    | _ => none

def isConstant : Operand → Bool
  | .reg _ => false
  | .const _ => true

end Selection

/-! ## `simplifyFPCompares` -/

section Simplify

variable {σ : Type}

def strictPredicate : FloatPredicate → Option FloatPredicate
  | .uge => some .ugt
  | .oge => some .ogt
  | .ule => some .ult
  | .ole => some .olt
  | _ => none

def fcmpInst (id : ℕ) (f : Format) (pred : FloatPredicate) (a b : Operand) : Instr (Op σ) :=
  ⟨id, .fcmp f pred, [a, b]⟩

def orEqualsRegion (n : ℕ) (f : Format) (newPred : FloatPredicate) (op0 op1 : Operand) :
    Region (Op σ) where
  size := 2
  head := [fcmpInst n f newPred op0 op1]
  terminator := .condBr (.reg n) .exit (.inner 0)
  blocks := [⟨[], [fcmpInst (n + 1) f .oeq op0 op1], .br .exit⟩]
  incoming := [(.inner 0, .reg (n + 1)), (.head, .const 1)]

def simplifyFPCompare (F : Func (Op σ)) (i : ℕ) : Func (Op σ) :=
  match F.find i with
  | some ⟨_, .fcmp f pred, [op0, op1]⟩ =>
    match strictPredicate pred with
    | some newPred => F.replaceInst i (orEqualsRegion F.nextId f newPred op0 op1)
    | none => F
  | _ => F

/-- Exactly one operand has to be a constant. -/
def simplifyFPCompares (F : Func (Op σ)) : Func (Op σ) :=
  (selectCompares F fun _ pred op0 op1 =>
    (strictPredicate pred).isSome && (isConstant op0 != isConstant op1)).foldl simplifyFPCompare F

end Simplify

/-! ## `splitFPCompares` -/

def precision (sizeInBits : ℕ) : ℕ :=
  if sizeInBits = 32 then 24
  else if sizeInBits = 64 then 53
  else if sizeInBits = 128 then 113
  else if sizeInBits = 16 then 11
  else if sizeInBits = 80 then 65
  else sizeInBits - 8

def shiftRExponent (sizeInBits : ℕ) : ℕ := precision sizeInBits - 1

def maskFraction (sizeInBits : ℕ) : ℕ :=
  1 <<< (shiftRExponent sizeInBits - 1) ||| (1 <<< (shiftRExponent sizeInBits - 1) - 1)

def maskExponent (sizeInBits : ℕ) : ℕ := 1 <<< (sizeInBits - precision sizeInBits) - 1

def exTySizeBytes (sizeInBits : ℕ) : ℕ := (sizeInBits - precision sizeInBits + 7) >>> 3

def frTySizeBytes (sizeInBits : ℕ) : ℕ := (precision sizeInBits - 1 + 7) >>> 3

def nextPowerOfTwo (n : ℕ) : ℕ :=
  let n := n - 1
  let n := n ||| n >>> 1
  let n := n ||| n >>> 2
  let n := n ||| n >>> 4
  n + 1

def intExponentTy (sizeInBits : ℕ) : ℕ := nextPowerOfTwo (exTySizeBytes sizeInBits) <<< 3

def intFractionTy (sizeInBits : ℕ) : ℕ := nextPowerOfTwo (frTySizeBytes sizeInBits) <<< 3

def nanLowend (sizeInBits : ℕ) : ℕ := maskExponent sizeInBits <<< precision sizeInBits

def minusZero (sizeInBits : ℕ) : ℕ := 1 <<< (sizeInBits - 1)

section Split

variable {σ : Type} (n size : ℕ)

/-- The NaN check at the end of the block of the comparison: `bpre_op0`, `bpre_op1`,
`nan_op0`, `is_op0_nan`, `nan_op1`, `is_op1_nan` and `is_nan`. -/
def nanCheck (op0 op1 : Operand) : List (Instr (Op σ)) :=
  [⟨n, .bitcast size, [op0]⟩, ⟨n + 1, .bitcast size, [op1]⟩,
    ⟨n + 2, .shl size, [.reg n, .const 1]⟩,
    cmpInst (n + 3) size .ugt (.reg (n + 2)) (.const (nanLowend size)),
    ⟨n + 4, .shl size, [.reg (n + 1), .const 1]⟩,
    cmpInst (n + 5) size .ugt (.reg (n + 4)) (.const (nanLowend size)),
    ⟨n + 6, .or 1, [.reg (n + 3), .reg (n + 5)]⟩]

/-- The result when at least one operand is NaN. -/
def nanCmpResult (pred : FloatPredicate) : Bool := pred = .one || pred = .une

/-- The body of `nonan_bb`: `isMzero_op0`, `isMzero_op1`, `b_op0`, `b_op1`, `s_s0`, `t_s0`,
`s_s1`, `t_s1` and `icmp_sign_bit`. -/
def nonanBody : List (Instr (Op σ)) :=
  [cmpInst (n + 7) size .eq (.reg n) (.const (minusZero size)),
    cmpInst (n + 8) size .eq (.reg (n + 1)) (.const (minusZero size)),
    ⟨n + 9, .select, [.reg (n + 7), .const 0, .reg n]⟩,
    ⟨n + 10, .select, [.reg (n + 8), .const 0, .reg (n + 1)]⟩,
    lshrInst (n + 11) size (.reg (n + 9)) (size - 1), truncInst (n + 12) 1 (.reg (n + 11)),
    lshrInst (n + 13) size (.reg (n + 10)) (size - 1), truncInst (n + 14) 1 (.reg (n + 13)),
    cmpInst (n + 15) 1 .eq (.reg (n + 12)) (.reg (n + 14))]

def maskedExponent : Bool := size - precision size < exTySizeBytes size * 8

/-- The start of `signequal_bb`, which isolates the exponents. -/
def exponentBody : List (Instr (Op σ)) :=
  [lshrInst (n + 16) size (.reg (n + 9)) (shiftRExponent size),
    lshrInst (n + 17) size (.reg (n + 10)) (shiftRExponent size),
    truncInst (n + 18) (intExponentTy size) (.reg (n + 16)),
    truncInst (n + 19) (intExponentTy size) (.reg (n + 17))] ++
  if maskedExponent size then
    [⟨n + 20, .and (intExponentTy size), [.reg (n + 18), .const (maskExponent size)]⟩,
      ⟨n + 21, .and (intExponentTy size), [.reg (n + 19), .const (maskExponent size)]⟩]
  else []

/-- The registers `m_e0` and `m_e1`. -/
def exponents : ℕ × ℕ := if maskedExponent size then (n + 20, n + 21) else (n + 18, n + 19)

def maskedFraction : Bool := precision size - 1 < frTySizeBytes size * 8

def needTrunc : Bool := intFractionTy size < size

/-- The registers the fractions are truncated from: `m_f0` and `m_f1`, or `b_op0` and
`b_op1`. -/
def fractionSources : ℕ × ℕ := if maskedFraction size then (n + 25, n + 26) else (n + 9, n + 10)

/-- The start of `middle_bb`, which isolates the fractions. -/
def fractionBody : List (Instr (Op σ)) :=
  (if maskedFraction size then
    [⟨n + 25, .and size, [.reg (n + 9), .const (maskFraction size)]⟩,
      ⟨n + 26, .and size, [.reg (n + 10), .const (maskFraction size)]⟩]
  else []) ++
  if needTrunc size then
    [truncInst (n + 27) (intFractionTy size) (.reg (fractionSources n size).1),
      truncInst (n + 28) (intFractionTy size) (.reg (fractionSources n size).2)]
  else []

/-- The registers `t_f0` and `t_f1`, and their width. -/
def fractions : ℕ × ℕ := if needTrunc size then (n + 27, n + 28) else fractionSources n size

def fractionWidth : ℕ := if needTrunc size then intFractionTy size else size

def nonanBlock : Block (Op σ) Place :=
  ⟨[], nonanBody n size, .condBr (.reg (n + 15)) (.inner 1) .exit⟩

/-- The network for the predicates that ask for equality (`isEq`) or inequality. The new
blocks are `nonan_bb`, `signequal_bb` and `middle_bb`. -/
def splitEqRegion (isEq nanResult : Bool) (op0 op1 : Operand) : Region (Op σ) :=
  let cmp : IntPredicate := if isEq then .eq else .ne
  { size := 32
    head := nanCheck n size op0 op1
    terminator := .condBr (.reg (n + 6)) .exit (.inner 0)
    blocks := [
      nonanBlock n size,
      ⟨[], exponentBody n size ++ [cmpInst (n + 22) (intExponentTy size) cmp
          (.reg (exponents n size).1) (.reg (exponents n size).2)],
        if isEq then .condBr (.reg (n + 22)) (.inner 2) .exit
        else .condBr (.reg (n + 22)) .exit (.inner 2)⟩,
      ⟨[], fractionBody n size ++ [cmpInst (n + 29) (fractionWidth size) cmp
          (.reg (fractions n size).1) (.reg (fractions n size).2)], .br .exit⟩]
    incoming := [
      (.inner 0, .const (if isEq then 0 else 1)),
      (.inner 1, if isEq then .const 0 else .reg (n + 22)),
      (.inner 2, .reg (n + 29)),
      (.head, .const nanResult.toNat)] }

/-- The network for the predicates that ask for `>` (`isGt`) or `<`. The new blocks are
`nonan_bb`, `signequal_bb`, `middle_bb`, `signequal2_bb`, `middle2_bb`, `negative_bb` and
`positive_bb`. -/
def splitLtRegion (isGt nanResult : Bool) (op0 op1 : Operand) : Region (Op σ) :=
  let cmp : IntPredicate := if isGt then .ugt else .ult
  let inv : IntPredicate := if isGt then .ult else .ugt
  { size := 32
    head := nanCheck n size op0 op1
    terminator := .condBr (.reg (n + 6)) .exit (.inner 0)
    blocks := [
      nonanBlock n size,
      ⟨[], exponentBody n size ++ [cmpInst (n + 22) (intExponentTy size) .eq
          (.reg (exponents n size).1) (.reg (exponents n size).2)],
        .condBr (.reg (n + 22)) (.inner 2) (.inner 3)⟩,
      ⟨[], fractionBody n size, .condBr (.reg (n + 12)) (.inner 5) (.inner 6)⟩,
      ⟨[], [cmpInst (n + 23) (intExponentTy size) cmp (.reg (exponents n size).1)
          (.reg (exponents n size).2), ⟨n + 24, .xor 1, [.reg (n + 23), .reg (n + 12)]⟩],
        .br .exit⟩,
      ⟨[⟨n + 31, [(.inner 5, .reg (n + 29)), (.inner 6, .reg (n + 30))]⟩], [], .br .exit⟩,
      ⟨[], [cmpInst (n + 29) (fractionWidth size) inv (.reg (fractions n size).1)
          (.reg (fractions n size).2)], .br (.inner 4)⟩,
      ⟨[], [cmpInst (n + 30) (fractionWidth size) cmp (.reg (fractions n size).1)
          (.reg (fractions n size).2)], .br (.inner 4)⟩]
    incoming := [
      (.inner 0, .reg (if isGt then n + 14 else n + 12)),
      (.inner 3, .reg (n + 24)),
      (.inner 4, .reg (n + 31)),
      (.head, .const nanResult.toNat)] }

def splitRegion (pred : FloatPredicate) (op0 op1 : Operand) : Option (Region (Op σ)) :=
  match pred with
  | .oeq | .ueq => some (splitEqRegion n size true (nanCmpResult pred) op0 op1)
  | .one | .une => some (splitEqRegion n size false (nanCmpResult pred) op0 op1)
  | .ogt | .ugt => some (splitLtRegion n size true (nanCmpResult pred) op0 op1)
  | .olt | .ult => some (splitLtRegion n size false (nanCmpResult pred) op0 op1)
  | _ => none

/-- Formats of more than 64 bits are left as they are. -/
def splitFPCompare (F : Func (Op σ)) (i : ℕ) : Func (Op σ) :=
  match F.find i with
  | some ⟨_, .fcmp f pred, [op0, op1]⟩ =>
    if f.width > 64 then F
    else match splitRegion F.nextId f.width pred op0 op1 with
      | some R => F.replaceInst i R
      | none => F
  | _ => F

def isSplit (pred : FloatPredicate) : Bool :=
  (splitRegion (σ := Unit) 0 0 pred (.const 0) (.const 0)).isSome

def splitFPCompares (F : Func (Op σ)) : Func (Op σ) :=
  (selectCompares F fun _ pred _ _ => isSplit pred).foldl splitFPCompare F

end Split

end AflPlusPlus.SplitFloatCompares
