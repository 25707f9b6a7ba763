import AflPlusPlus.CompareInstructions

/-!
# Splitting integer comparisons

The part of `split-compares-pass.so.cc` that rewrites `icmp` instructions. An instruction
is replaced by a network of blocks; the comparisons of the network wait on a worklist to
be rewritten in turn, until their operands have the target width.
-/

namespace AflPlusPlus.SplitCompares
open ControlFlow CompareInstructions

section Pass

variable {σ : Type}

/-- The operands of the `icmp` with this name, its predicate and its width. -/
def getCompare (F : Func (Op σ)) (i : ℕ) : Option (ℕ × IntPredicate × Operand × Operand) :=
  match F.find i with
  | some ⟨_, .icmp w p, [op0, op1]⟩ => some (w, p, op0, op1)
  | _ => none

/-- The network of `simplifySignedCompare` for operands of width `bitw`: the block `sign`
compares the sign bits when they differ, the block `injected` the operands when not. -/
def signedRegion (n bitw : ℕ) (pred : IntPredicate) (op0 op1 : Operand) : Region (Op σ) where
  size := 7
  head := [lshrInst n bitw op0 (bitw - 1), truncInst (n + 1) 1 (.reg n),
    lshrInst (n + 2) bitw op1 (bitw - 1), truncInst (n + 3) 1 (.reg (n + 2)),
    cmpInst (n + 4) 1 .eq (.reg (n + 1)) (.reg (n + 3))]
  terminator := .condBr (.reg (n + 4)) (.inner 1) (.inner 0)
  blocks := [
    ⟨[], [cmpInst (n + 5) 1 (if pred = .sgt then .ult else .ugt) (.reg (n + 1)) (.reg (n + 3))],
      .br .exit⟩,
    ⟨[], [cmpInst (n + 6) bitw (if pred = .sgt then .ugt else .ult) op0 op1], .br .exit⟩]
  incoming := [(.inner 1, .reg (n + 6)), (.inner 0, .reg (n + 5))]

/-- The function and the worklist, whose last element is the head of the list. -/
abbrev PassState (σ : Type) := Func (Op σ) × List ℕ

def simplifySignedCompare (i : ℕ) (s : PassState σ) : Option (PassState σ) := do
  let (bitw, pred, op0, op1) ← getCompare s.1 i
  let n := s.1.nextId
  some (s.1.replaceInst i (signedRegion n bitw pred op0 op1), (n + 6) :: s.2)

/-- The network of `simplifyOrEqualsCompare`: the strict comparison, then the equality. -/
def orEqualsRegion (n bitw : ℕ) (newPred : IntPredicate) (op0 op1 : Operand) :
    Region (Op σ) where
  size := 2
  head := [cmpInst n bitw newPred op0 op1]
  terminator := .condBr (.reg n) .exit (.inner 0)
  blocks := [⟨[], [cmpInst (n + 1) bitw .eq op0 op1], .br .exit⟩]
  incoming := [(.inner 0, .reg (n + 1)), (.head, .const 1)]

def strictPredicate : IntPredicate → Option IntPredicate
  | .uge => some .ugt
  | .sge => some .sgt
  | .ule => some .ult
  | .sle => some .slt
  | _ => none

def simplifyOrEqualsCompare (i : ℕ) (s : PassState σ) : Option (PassState σ) := do
  let (bitw, pred, op0, op1) ← getCompare s.1 i
  let newPred ← strictPredicate pred
  let n := s.1.nextId
  let s := (s.1.replaceInst i (orEqualsRegion n bitw newPred op0 op1), s.2)
  let s ← if newPred = .sgt ∨ newPred = .slt then simplifySignedCompare n s else some s
  some (s.1, (n + 1) :: s.2)

/-- The comparison of the high halves, which every split starts with. -/
def highHalves (n bitw : ℕ) (pred : IntPredicate) (op0 op1 : Operand) : List (Instr (Op σ)) :=
  [lshrInst n bitw op0 (bitw / 2), truncInst (n + 1) (bitw / 2) (.reg n),
    lshrInst (n + 2) bitw op1 (bitw / 2), truncInst (n + 3) (bitw / 2) (.reg (n + 2)),
    cmpInst (n + 4) (bitw / 2) pred (.reg (n + 1)) (.reg (n + 3))]

/-- The network for `==` and `!=`. -/
def splitEqRegion (n bitw : ℕ) (pred : IntPredicate) (op0 op1 : Operand) : Region (Op σ) where
  size := 8
  head := highHalves n bitw pred op0 op1
  terminator :=
    if pred = .eq then .condBr (.reg (n + 4)) (.inner 0) .exit
    else .condBr (.reg (n + 4)) .exit (.inner 0)
  blocks := [⟨[], [truncInst (n + 5) (bitw / 2) op0, truncInst (n + 6) (bitw / 2) op1,
    cmpInst (n + 7) (bitw / 2) pred (.reg (n + 5)) (.reg (n + 6))], .br .exit⟩]
  incoming := [(.inner 0, .reg (n + 7)), (.head, .const (if pred = .eq then 0 else 1))]

/-- The network for `<` and `>`: the block `inv_cmp` checks the inverse predicate `inv` on
the high halves before the low halves are compared. -/
def splitLtRegion (n bitw : ℕ) (pred inv : IntPredicate) (op0 op1 : Operand) :
    Region (Op σ) where
  size := 9
  head := highHalves n bitw pred op0 op1
  terminator := .condBr (.reg (n + 4)) .exit (.inner 0)
  blocks := [
    ⟨[], [cmpInst (n + 5) (bitw / 2) inv (.reg (n + 1)) (.reg (n + 3))],
      .condBr (.reg (n + 5)) .exit (.inner 1)⟩,
    ⟨[], [truncInst (n + 6) (bitw / 2) op0, truncInst (n + 7) (bitw / 2) op1,
      cmpInst (n + 8) (bitw / 2) pred (.reg (n + 6)) (.reg (n + 7))], .br .exit⟩]
  incoming := [(.inner 1, .reg (n + 8)), (.head, .const 1), (.inner 0, .const 0)]

/-- A non-strict or signed predicate would leave `icmp_inv_cmp` null. -/
def splitCompare (target i : ℕ) (s : PassState σ) : Option (PassState σ) := do
  let (bitw, pred, op0, op1) ← getCompare s.1 i
  let n := s.1.nextId
  let pushHalves (high low : ℕ) (worklist : List ℕ) :=
    if bitw / 2 > target then low :: high :: worklist else worklist
  if bitw = target then some s
  else match pred with
    | .eq | .ne => some (s.1.replaceInst i (splitEqRegion n bitw pred op0 op1),
        pushHalves (n + 4) (n + 7) s.2)
    | .ugt => some (s.1.replaceInst i (splitLtRegion n bitw .ugt .ult op0 op1),
        pushHalves (n + 4) (n + 8) ((n + 5) :: s.2))
    | .ult => some (s.1.replaceInst i (splitLtRegion n bitw .ult .ugt op0 op1),
        pushHalves (n + 4) (n + 8) ((n + 5) :: s.2))
    | _ => none

/-- The loop of `simplifyAndSplit` over the worklist. -/
def splitWorklist (target bitw : ℕ) : ℕ → PassState σ → Option (Func (Op σ))
  | _, (F, []) => some F
  | 0, _ => none
  | fuel + 1, (F, i :: worklist) =>
    if bitw > target then
      (splitCompare target i (F, worklist)).bind (splitWorklist target bitw fuel)
    else splitWorklist target bitw fuel (F, worklist)

def simplifyAndSplit (fuel target i : ℕ) (F : Func (Op σ)) : Option (Func (Op σ)) := do
  let (bitw, pred, _, _) ← getCompare F i
  let s := match pred with
    | .uge | .sge | .ule | .sle => (simplifyOrEqualsCompare i (F, [])).getD (F, [])
    | .sgt | .slt => (simplifySignedCompare i (F, [])).getD (F, [])
    | _ => (F, [])
  splitWorklist target bitw fuel (if s.2 = [] then (s.1, [i]) else s)

end Pass

end AflPlusPlus.SplitCompares
