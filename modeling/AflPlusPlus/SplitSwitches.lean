import AflPlusPlus.CompareInstructions

/-!
# Splitting switches into byte comparisons

The pass of `split-switches-pass.so.cc`: a switch over a value of up to eight whole bytes
becomes a tree of blocks, each of which compares one byte of the value. A byte that is the
same in all cases is compared for equality and marked as checked; when every byte that is
left has several values, the cases are divided at the middle value of one of them.
-/

namespace AflPlusPlus.SplitSwitches
open ControlFlow CompareInstructions

/-- A case value, zero-extended, and the block it leads to. -/
structure CaseExpr (κ : Type) where
  val : ℕ
  bb : κ

/-- A switch instruction: its case values are distinct constants of the type of its
condition. -/
structure SwitchInst (κ : Type) where
  width : ℕ
  condition : Operand
  cases : List (CaseExpr κ)
  default : κ
  width_pos : 0 < width
  val_lt : ∀ c ∈ cases, c.val < 2 ^ width
  nodup : (cases.map CaseExpr.val).Nodup

/-- The block among `cases` that the value `v` leads to. -/
def destination {κ : Type} (cases : List (CaseExpr κ)) (default : κ) (v : ℕ) : κ :=
  match cases.find? (·.val == v) with
  | some c => c.bb
  | none => default

/-- A block of the new hierarchy: a block of the function that a case leads to, the block
`NewDefault`, or a node that branches on the register `comp`. -/
inductive NodeBlock (σ κ : Type)
  | case (bb : κ)
  | newDefault
  | node (body : List (Instr (Op σ))) (comp : Operand) (ifTrue ifFalse : NodeBlock σ κ)

variable {σ κ : Type}

namespace NodeBlock

/-- The block of the function that is reached; `NewDefault` branches to the default. -/
def run (default : κ) : NodeBlock σ κ → Env × σ → κ
  | case bb, _ => bb
  | newDefault, _ => default
  | node body comp ifTrue ifFalse, s =>
    let s := execBody Op.eval s body
    if comp.value s.1 ≠ 0 then ifTrue.run default s else ifFalse.run default s

/-- The cases at the leaves, from left to right. -/
def leaves : NodeBlock σ κ → List κ
  | case bb => [bb]
  | newDefault => []
  | node _ _ ifTrue ifFalse => ifTrue.leaves ++ ifFalse.leaves

end NodeBlock

def caseByte (val i : ℕ) : ℕ := val >>> (i * 8) &&& 0xFF

/-- `byteSets[i]`. -/
def byteSet (cases : List (CaseExpr κ)) (i : ℕ) : Finset ℕ :=
  (cases.map fun c => caseByte c.val i).toFinset

/-- `smallestIndex` and `smallestSize`: the first of the unchecked bytes with the fewest
values. -/
def smallest (cases : List (CaseExpr κ)) (bytesChecked : List Bool) : ℕ × ℕ :=
  (List.range bytesChecked.length).foldl (fun s i =>
    if bytesChecked.getD i false then s
    else if (byteSet cases i).card < s.2 then (i, (byteSet cases i).card)
    else s) (0, 257)

/-- The instructions of a node, which define the registers `id`, `id + 1` and `id + 2`. A
value of one byte needs no truncation. -/
def nodeBody (width : ℕ) (val : Operand) (id index : ℕ) (pred : IntPredicate) (byte : ℕ) :
    List (Instr (Op σ)) :=
  if width > 8 then
    [lshrInst id width val (index * 8), truncInst (id + 1) 8 (.reg id),
      cmpInst (id + 2) 8 pred (.reg (id + 1)) (.const byte)]
  else
    [lshrInst id width val (index * 8), cmpInst (id + 2) 8 pred (.reg id) (.const byte)]

/-- `switchConvert`, with the next unused register. There is no result when an assertion of
the source fails or the recursion is deeper than `fuel`. -/
def switchConvert (width : ℕ) (val : Operand) :
    ℕ → List (CaseExpr κ) → List Bool → ℕ → Option (NodeBlock σ κ × ℕ)
  | 0, _, _, _ => none
  | fuel + 1, cases, bytesChecked, id =>
    let (smallestIndex, smallestSize) := smallest cases bytesChecked
    if bytesChecked.getD smallestIndex true then none
    else
      let byteVector := (byteSet cases smallestIndex).sort (· ≤ ·)
      if smallestSize = 1 then
        let body := nodeBody width val id smallestIndex .eq (byteVector.headD 0)
        let bytesChecked := bytesChecked.set smallestIndex true
        if bytesChecked.all (fun checked => checked) then
          match cases with
          | [c] => some (.node body (.reg (id + 2)) (.case c.bb) .newDefault, id + 3)
          | _ => none
        else do
          let (bb, id') ← switchConvert width val fuel cases bytesChecked (id + 3)
          some (.node body (.reg (id + 2)) bb .newDefault, id')
      else do
        let pivot := byteVector.getD (byteVector.length / 2) 0
        let lhsCases := cases.filter fun c => caseByte c.val smallestIndex < pivot
        let rhsCases := cases.filter fun c => ¬caseByte c.val smallestIndex < pivot
        let (lbb, id₁) ← switchConvert width val fuel lhsCases bytesChecked (id + 3)
        let (rbb, id₂) ← switchConvert width val fuel rhsCases bytesChecked id₁
        some (.node (nodeBody width val id smallestIndex .ult pivot) (.reg (id + 2)) lbb rbb, id₂)

/-- What becomes of a switch: it stays, or its block branches to the new hierarchy. -/
inductive Rewritten (σ κ : Type)
  | kept (sw : SwitchInst κ)
  | branch (switchBlock : NodeBlock σ κ) (default : κ)

namespace SwitchInst

/-- The block that the switch branches to. -/
def exec (sw : SwitchInst κ) (s : Env × σ) : κ :=
  destination sw.cases sw.default (sw.condition.value s.1 % 2 ^ sw.width)

/-- The switch is left alone: it has less than two cases, or its value does not consist of
at most eight whole bytes. -/
def skipped (sw : SwitchInst κ) : Bool :=
  sw.cases.length < 2 || sw.width % 8 != 0 || sw.width > 64

/-- The body of the loop of `splitSwitches` over the switches of a module. -/
def split (fuel : ℕ) (sw : SwitchInst κ) (id : ℕ) : Option (Rewritten σ κ × ℕ) :=
  if sw.skipped then some (.kept sw, id)
  else do
    let bytesChecked := List.replicate ((7 + sw.width) / 8) false
    let (switchBlock, id') ← switchConvert sw.width sw.condition fuel sw.cases bytesChecked id
    some (.branch switchBlock sw.default, id')

end SwitchInst

def Rewritten.exec : Rewritten σ κ → Env × σ → κ
  | kept sw, s => sw.exec s
  | branch switchBlock default, s => switchBlock.run default s

end AflPlusPlus.SplitSwitches
