import AflPlusPlus.ControlFlowRefinement
import AflPlusPlus.FloatFormats

/-!
# The instructions of the comparison networks

The instructions that `split-compares-pass.so.cc` removes from a function and puts into it,
with their meaning in LLVM. A value is the unsigned reading of its bits; `bitcast` keeps
them.
-/

namespace AflPlusPlus.CompareInstructions
open ControlFlow FloatFormats

inductive IntPredicate
  | eq | ne | ugt | uge | ult | ule | sgt | sge | slt | sle
  deriving DecidableEq, Repr

def IntPredicate.eval {w : ℕ} (x y : BitVec w) : IntPredicate → Bool
  | eq => x == y
  | ne => x != y
  | ugt => y.ult x
  | uge => y.ule x
  | ult => x.ult y
  | ule => x.ule y
  | sgt => y.slt x
  | sge => y.sle x
  | slt => x.slt y
  | sle => x.sle y

/-! ## Values of the instructions -/

def icmpValue (w : ℕ) (p : IntPredicate) (a b : ℕ) : Bool :=
  p.eval (BitVec.ofNat w a) (BitVec.ofNat w b)

def fcmpValue (f : Format) (p : FloatPredicate) (a b : ℕ) : Bool :=
  p.eval f (a % 2 ^ f.width) (b % 2 ^ f.width)

def shlValue (w a k : ℕ) : ℕ := (BitVec.ofNat w a <<< k).toNat

def lshrValue (w a k : ℕ) : ℕ := (BitVec.ofNat w a >>> k).toNat

def andValue (w a b : ℕ) : ℕ := (BitVec.ofNat w a &&& BitVec.ofNat w b).toNat

def orValue (w a b : ℕ) : ℕ := (BitVec.ofNat w a ||| BitVec.ofNat w b).toNat

def xorValue (w a b : ℕ) : ℕ := (BitVec.ofNat w a ^^^ BitVec.ofNat w b).toNat

def truncValue (w a : ℕ) : ℕ := (BitVec.ofNat w a).toNat

def selectValue (c a b : ℕ) : ℕ := if c ≠ 0 then a else b

/-- The instructions of the networks, and any other instruction a function may hold. -/
inductive Op (σ : Type)
  | icmp (width : ℕ) (pred : IntPredicate)
  | fcmp (format : Format) (pred : FloatPredicate)
  | bitcast (width : ℕ)
  | shl (width : ℕ)
  | lshr (width : ℕ)
  | and (width : ℕ)
  | or (width : ℕ)
  | xor (width : ℕ)
  | trunc (width : ℕ)
  | select
  | other (f : List ℕ → σ → ℕ × σ)

/-- The meaning of the instructions when `fcmpAs` is the meaning of `fcmp`. -/
def Op.evalWith {σ : Type} (fcmpAs : Format → FloatPredicate → ℕ → ℕ → Bool) :
    Op σ → List ℕ → σ → ℕ × σ
  | icmp w p, [a, b], m => ((icmpValue w p a b).toNat, m)
  | fcmp f p, [a, b], m => ((fcmpAs f p a b).toNat, m)
  | bitcast w, [a], m => (truncValue w a, m)
  | shl w, [a, k], m => (shlValue w a k, m)
  | lshr w, [a, k], m => (lshrValue w a k, m)
  | and w, [a, b], m => (andValue w a b, m)
  | or w, [a, b], m => (orValue w a b, m)
  | xor w, [a, b], m => (xorValue w a b, m)
  | trunc w, [a], m => (truncValue w a, m)
  | select, [c, a, b], m => (selectValue c a b, m)
  | other f, args, m => f args m
  | _, _, m => (0, m)

abbrev Op.eval {σ : Type} : Op σ → List ℕ → σ → ℕ × σ := Op.evalWith fcmpValue

theorem Op.evalWith_congr {σ : Type} {op : Op σ}
    {fcmpAs fcmpAs' : Format → FloatPredicate → ℕ → ℕ → Bool}
    (h : ∀ f p, op = .fcmp f p → fcmpAs f p = fcmpAs' f p) :
    Op.evalWith fcmpAs op = Op.evalWith fcmpAs' op := by
  funext args m
  unfold Op.evalWith
  split <;> simp_all

theorem lshrValue_eq (w a k : ℕ) : lshrValue w a k = a % 2 ^ w / 2 ^ k := by
  rw [lshrValue, BitVec.toNat_ushiftRight, BitVec.toNat_ofNat, Nat.shiftRight_eq_div_pow]

theorem truncValue_eq (w a : ℕ) : truncValue w a = a % 2 ^ w := BitVec.toNat_ofNat a w

theorem quotRem_lt_iff {P q r q' r' : ℕ} (hr : r < P) (hr' : r' < P) :
    P * q + r < P * q' + r' ↔ q < q' ∨ (q = q' ∧ r < r') := by
  rcases Nat.lt_trichotomy q q' with h | rfl | h
  · have := Nat.mul_le_mul_left P (Nat.succ_le_of_lt h)
    rw [Nat.mul_succ] at this
    omega
  · omega
  · have := Nat.mul_le_mul_left P (Nat.succ_le_of_lt h)
    rw [Nat.mul_succ] at this
    omega

section Icmp

variable (w a b : ℕ)

theorem icmpValue_eq : icmpValue w .eq a b = decide (a % 2 ^ w = b % 2 ^ w) := by
  rw [Bool.eq_iff_iff]
  simp [icmpValue, IntPredicate.eval, ← BitVec.toNat_inj]

theorem icmpValue_eq_comm : icmpValue w .eq a b = icmpValue w .eq b a := by
  simp only [icmpValue_eq, eq_comm]

theorem icmpValue_ne : icmpValue w .ne a b = !icmpValue w .eq a b := rfl

theorem icmpValue_ult : icmpValue w .ult a b = decide (a % 2 ^ w < b % 2 ^ w) := by
  simp [icmpValue, IntPredicate.eval, BitVec.ult]

theorem icmpValue_ugt : icmpValue w .ugt a b = icmpValue w .ult b a := rfl

variable {w a b}

theorem icmpValue_eq_of_lt (ha : a < 2 ^ w) (hb : b < 2 ^ w) :
    icmpValue w .eq a b = decide (a = b) := by
  rw [icmpValue_eq, Nat.mod_eq_of_lt ha, Nat.mod_eq_of_lt hb]

theorem icmpValue_ult_of_lt (ha : a < 2 ^ w) (hb : b < 2 ^ w) :
    icmpValue w .ult a b = decide (a < b) := by
  rw [icmpValue_ult, Nat.mod_eq_of_lt ha, Nat.mod_eq_of_lt hb]

end Icmp

section Instructions

variable {σ : Type}

def cmpInst (id width : ℕ) (pred : IntPredicate) (a b : Operand) : Instr (Op σ) :=
  ⟨id, .icmp width pred, [a, b]⟩

def lshrInst (id width : ℕ) (a : Operand) (amount : ℕ) : Instr (Op σ) :=
  ⟨id, .lshr width, [a, .const amount]⟩

def truncInst (id width : ℕ) (a : Operand) : Instr (Op σ) := ⟨id, .trunc width, [a]⟩

variable (fcmpAs : Format → FloatPredicate → ℕ → ℕ → Bool)

@[simp] theorem execInstr_cmpInst (s : Env × σ) (id w : ℕ) (p : IntPredicate) (a b : Operand) :
    execInstr (Op.evalWith fcmpAs) s (cmpInst id w p a b) =
      (Function.update s.1 id (icmpValue w p (a.value s.1) (b.value s.1)).toNat, s.2) := rfl

@[simp] theorem execInstr_lshrInst (s : Env × σ) (id w : ℕ) (a : Operand) (k : ℕ) :
    execInstr (Op.evalWith fcmpAs) s (lshrInst id w a k) =
      (Function.update s.1 id (lshrValue w (a.value s.1) k), s.2) := rfl

@[simp] theorem execInstr_truncInst (s : Env × σ) (id w : ℕ) (a : Operand) :
    execInstr (Op.evalWith fcmpAs) s (truncInst id w a) =
      (Function.update s.1 id (truncValue w (a.value s.1)), s.2) := rfl

@[simp] theorem execInstr_bitcast (s : Env × σ) (id w : ℕ) (a : Operand) :
    execInstr (Op.evalWith fcmpAs) s ⟨id, .bitcast w, [a]⟩ =
      (Function.update s.1 id (truncValue w (a.value s.1)), s.2) := rfl

@[simp] theorem execInstr_shl (s : Env × σ) (id w : ℕ) (a b : Operand) :
    execInstr (Op.evalWith fcmpAs) s ⟨id, .shl w, [a, b]⟩ =
      (Function.update s.1 id (shlValue w (a.value s.1) (b.value s.1)), s.2) := rfl

@[simp] theorem execInstr_and (s : Env × σ) (id w : ℕ) (a b : Operand) :
    execInstr (Op.evalWith fcmpAs) s ⟨id, .and w, [a, b]⟩ =
      (Function.update s.1 id (andValue w (a.value s.1) (b.value s.1)), s.2) := rfl

@[simp] theorem execInstr_or (s : Env × σ) (id w : ℕ) (a b : Operand) :
    execInstr (Op.evalWith fcmpAs) s ⟨id, .or w, [a, b]⟩ =
      (Function.update s.1 id (orValue w (a.value s.1) (b.value s.1)), s.2) := rfl

@[simp] theorem execInstr_xor (s : Env × σ) (id w : ℕ) (a b : Operand) :
    execInstr (Op.evalWith fcmpAs) s ⟨id, .xor w, [a, b]⟩ =
      (Function.update s.1 id (xorValue w (a.value s.1) (b.value s.1)), s.2) := rfl

@[simp] theorem execInstr_select (s : Env × σ) (id : ℕ) (c a b : Operand) :
    execInstr (Op.evalWith fcmpAs) s ⟨id, .select, [c, a, b]⟩ =
      (Function.update s.1 id (selectValue (c.value s.1) (a.value s.1) (b.value s.1)), s.2) := rfl

/-- A function of two arguments, the registers 0 and 1, that returns the result of a single
instruction. -/
def singleFunction (op : Op σ) (args : List Operand) : Func (Op σ) where
  blocks := fun l =>
    if l = 0 then ⟨[], [⟨2, op, args⟩], .ret (.reg 2)⟩ else ⟨[], [], .ret (.const 0)⟩
  parent := fun _ => 0
  nextLabel := 1
  nextId := 3

theorem singleFunction_wf (op : Op σ) {args : List Operand} (hargs : ∀ a ∈ args, a.Below 2) :
    (singleFunction op args).Wf where
  entry := by simp [singleFunction]
  block := by
    intro l hl
    obtain rfl : l = 0 := by simpa [singleFunction] using hl
    have hargs' : ∀ a ∈ args, a.Below 3 := fun a ha => (hargs a ha).mono (by omega)
    simpa [Block.wf_iff, singleFunction, Terminator.operands, Terminator.targets] using hargs'
  parent_eq := by
    intro l hl
    obtain rfl : l = 0 := by simpa [singleFunction] using hl
    simp [singleFunction]
  nodup := by
    intro l hl
    obtain rfl : l = 0 := by simpa [singleFunction] using hl
    simp [singleFunction]
  vacant := by
    intro l hl
    have hne : l ≠ 0 := by
      have : 1 ≤ l := hl
      omega
    simp [singleFunction, hne]

/-- The memory is empty; the arguments are the values of the registers 0 and 1. -/
def arguments (x y : ℕ) : Env × Unit := (fun i => if i = 0 then x else if i = 1 then y else 0, ())

end Instructions

end AflPlusPlus.CompareInstructions
