import Mathlib

/-!
# Functions in static single assignment form

A function is a graph of basic blocks: phi nodes, a straight-line body and a terminator.
The instructions are a parameter, given by the meaning of each on the values of its
operands and on a memory. One instruction of a function can be replaced by a network of
new blocks whose exit is joined by a phi node; the replacement keeps every result of the
function when the network computes the value of the instruction.
-/

namespace AflPlusPlus.ControlFlow

abbrev Env := ℕ → ℕ

inductive Operand
  | reg (id : ℕ)
  | const (value : ℕ)
  deriving DecidableEq

namespace Operand

def value (ρ : Env) : Operand → ℕ
  | reg id => ρ id
  | const v => v

/-- Every register the operand names is among the first `n`. -/
def Below (n : ℕ) : Operand → Prop
  | reg id => id < n
  | const _ => True

end Operand

structure Instr (ι : Type*) where
  id : ℕ
  op : ι
  args : List Operand

structure Phi (κ : Type*) where
  id : ℕ
  incoming : List (κ × Operand)

inductive Terminator (κ : Type*)
  | br (target : κ)
  | condBr (cond : Operand) (ifTrue ifFalse : κ)
  | ret (result : Operand)

structure Block (ι κ : Type*) where
  phis : List (Phi κ)
  body : List (Instr ι)
  terminator : Terminator κ

/-- The blocks with the labels below `nextLabel`, entered at the block `0`. `parent` is the
block an instruction stands in. -/
structure Func (ι : Type*) where
  blocks : ℕ → Block ι ℕ
  parent : ℕ → ℕ
  nextLabel : ℕ
  nextId : ℕ

namespace Phi
variable {κ : Type*} [DecidableEq κ]

/-- The value of the node when its block is entered from `prev`; no value when the node
has no incoming edge from there. -/
def value (φ : Phi κ) (prev : Option κ) (ρ : Env) : Option ℕ :=
  prev.bind fun p => (φ.incoming.lookup p).map (Operand.value ρ)

def map {κ' : Type*} (f : κ → κ') (φ : Phi κ) : Phi κ' where
  id := φ.id
  incoming := φ.incoming.map fun e => (f e.1, e.2)

end Phi

/-- The phi nodes of a block read their operands together, before any of them is set. -/
def phiValues {κ : Type*} [DecidableEq κ] (prev : Option κ) (ρ : Env) :
    List (Phi κ) → Option (List (ℕ × ℕ))
  | [] => some []
  | φ :: φs => do
    let v ← φ.value prev ρ
    let vs ← phiValues prev ρ φs
    some ((φ.id, v) :: vs)

def assign (ρ : Env) (vs : List (ℕ × ℕ)) : Env :=
  vs.foldl (fun ρ v => Function.update ρ v.1 v.2) ρ

def enter {κ : Type*} [DecidableEq κ] (φs : List (Phi κ)) (prev : Option κ) (ρ : Env) :
    Option Env :=
  (phiValues prev ρ φs).map (assign ρ)

namespace Terminator
variable {κ : Type*}

/-- The block that is entered next, or the value the function returns. -/
def exec (ρ : Env) : Terminator κ → κ ⊕ ℕ
  | br l => .inl l
  | condBr c t f => .inl (if c.value ρ ≠ 0 then t else f)
  | ret o => .inr (o.value ρ)

def map {κ' : Type*} (f : κ → κ') : Terminator κ → Terminator κ'
  | br l => br (f l)
  | condBr c l l' => condBr c (f l) (f l')
  | ret o => ret o

def operands : Terminator κ → List Operand
  | br _ => []
  | condBr c _ _ => [c]
  | ret o => [o]

def targets : Terminator κ → List κ
  | br l => [l]
  | condBr _ t f => [t, f]
  | ret _ => []

end Terminator

section Run

variable {ι σ : Type*} (eval : ι → List ℕ → σ → ℕ × σ)

def execInstr (s : Env × σ) (I : Instr ι) : Env × σ :=
  let r := eval I.op (I.args.map (Operand.value s.1)) s.2
  (Function.update s.1 I.id r.1, r.2)

def execBody (s : Env × σ) (body : List (Instr ι)) : Env × σ := body.foldl (execInstr eval) s

/-- Enter block `l` of the function from `prev` and run to the end of the function. -/
def run (F : Func ι) : ℕ → Option ℕ → ℕ → Env × σ → Option (ℕ × σ)
  | 0, _, _, _ => none
  | n + 1, prev, l, s =>
    match enter (F.blocks l).phis prev s.1 with
    | none => none
    | some ρ =>
      let s := execBody eval (ρ, s.2) (F.blocks l).body
      match (F.blocks l).terminator.exec s.1 with
      | .inl k => run F n (some l) k s
      | .inr v => some (v, s.2)

/-- The function, started at its entry, returns with the value and the memory of `r`. -/
def Returns (F : Func ι) (s : Env × σ) (r : ℕ × σ) : Prop :=
  ∃ n, run eval F n none 0 s = some r

/-- Every result of `F` is a result of `F'`. -/
def Refines (F F' : Func ι) : Prop := ∀ s r, Returns eval F s r → Returns eval F' s r

theorem Refines.trans {F F' F'' : Func ι} (h : Refines eval F F') (h' : Refines eval F' F'') :
    Refines eval F F'' :=
  fun s r hr => h' s r (h s r hr)

end Run

/-! ## Replacing an instruction by a network of blocks -/

/-- Where an edge of a network ends: in the block of the replaced instruction, in the
`k`-th new block, or in the block that joins the network. -/
inductive Place
  | head
  | inner (k : ℕ)
  | exit
  deriving DecidableEq

namespace Place

def label (b e : ℕ) : Place → ℕ
  | head => b
  | exit => e
  | inner k => e + 1 + k

def Within (count : ℕ) : Place → Prop
  | inner k => k < count
  | _ => True

theorem label_injective {b e : ℕ} (h : b < e) : Function.Injective (label b e) := by
  intro p q hpq
  cases p <;> cases q <;> simp only [label] at hpq <;>
    first | rfl | omega | exact congrArg inner (by omega)

end Place

/-- The instructions appended to the block of the replaced instruction and its new
terminator, the new blocks, and the incoming edges of the phi node of the join. The network
has `size` registers to define. -/
structure Region (ι : Type*) where
  size : ℕ
  head : List (Instr ι)
  terminator : Terminator Place
  blocks : List (Block ι Place)
  incoming : List (Place × Operand)

def Block.map {ι κ κ' : Type*} [DecidableEq κ] (f : κ → κ') (B : Block ι κ) : Block ι κ' where
  phis := B.phis.map (Phi.map f)
  body := B.body
  terminator := B.terminator.map f

/-- The edges that came from `b` now come from `e`. -/
def Block.redirect {ι : Type*} (b e : ℕ) (B : Block ι ℕ) : Block ι ℕ :=
  { B with phis := B.phis.map (Phi.map fun l => if l = b then e else l) }

section Replace

variable {ι : Type*}

def Region.find (R : Region ι) (j : ℕ) : Option (Instr ι) :=
  (R.head.find? (·.id == j)).or (R.blocks.findSome? fun B => B.body.find? (·.id == j))

namespace Func

def find (F : Func ι) (i : ℕ) : Option (Instr ι) :=
  (F.blocks (F.parent i)).body.find? (·.id == i)

/-- The instructions before `i` in its block. -/
def before (F : Func ι) (i : ℕ) : List (Instr ι) :=
  (F.blocks (F.parent i)).body.takeWhile (!·.id == i)

def after (F : Func ι) (i : ℕ) : List (Instr ι) :=
  ((F.blocks (F.parent i)).body.dropWhile (!·.id == i)).tail

/-- Split the block of instruction `i` before it, let the network follow the first part and
join it in the second one, where the phi node `i` takes the place of the instruction. The
phi nodes that named the split block as a predecessor now name its second part. -/
def replaceInst (F : Func ι) (i : ℕ) (R : Region ι) : Func ι where
  blocks := fun l =>
    if l = F.parent i then
      { phis := ((F.blocks l).redirect l F.nextLabel).phis
        body := F.before i ++ R.head
        terminator := R.terminator.map (Place.label l F.nextLabel) }
    else if l < F.nextLabel then (F.blocks l).redirect (F.parent i) F.nextLabel
    else if l = F.nextLabel then
      { phis := [Phi.map (Place.label (F.parent i) l) ⟨i, R.incoming⟩]
        body := F.after i
        terminator := (F.blocks (F.parent i)).terminator }
    else match R.blocks[l - F.nextLabel - 1]? with
      | some B => B.map (Place.label (F.parent i) F.nextLabel)
      | none => ⟨[], [], .ret (.const 0)⟩
  parent := fun j =>
    if j < F.nextId then
      if F.parent j = F.parent i ∧ (F.before i).find? (·.id == j) = none then F.nextLabel
      else F.parent j
    else if (R.head.find? (·.id == j)).isSome then F.parent i
    else F.nextLabel + 1 + R.blocks.findIdx fun B => (B.body.find? (·.id == j)).isSome
  nextLabel := F.nextLabel + 1 + R.blocks.length
  nextId := F.nextId + R.size

end Func

/-- The block names only labels that satisfy `P` and registers among the first `n`. -/
@[mk_iff]
structure Block.Wf {κ : Type*} (B : Block ι κ) (P : κ → Prop) (n : ℕ) : Prop where
  phi : ∀ φ ∈ B.phis, ∀ e ∈ φ.incoming, P e.1 ∧ e.2.Below n
  id_lt : ∀ I ∈ B.body, I.id < n
  args : ∀ I ∈ B.body, ∀ a ∈ I.args, a.Below n
  operands : ∀ o ∈ B.terminator.operands, o.Below n
  targets : ∀ l ∈ B.terminator.targets, P l

/-- Every instruction stands once in the function, in the block of its parent. -/
structure Func.Wf (F : Func ι) : Prop where
  entry : 0 < F.nextLabel
  block : ∀ l < F.nextLabel, (F.blocks l).Wf (· < F.nextLabel) F.nextId
  parent_eq : ∀ l < F.nextLabel, ∀ I ∈ (F.blocks l).body, F.parent I.id = l
  nodup : ∀ l < F.nextLabel, ((F.blocks l).body.map Instr.id).Nodup
  vacant : ∀ l, F.nextLabel ≤ l → (F.blocks l).body = []

/-- The network fits into a function with `n` registers: it reads what is there and defines
new registers only. -/
@[mk_iff]
structure Region.Wf (R : Region ι) (n : ℕ) : Prop where
  head_fresh : ∀ I ∈ R.head, n ≤ I.id
  block_fresh : ∀ B ∈ R.blocks, (∀ φ ∈ B.phis, n ≤ φ.id) ∧ ∀ I ∈ B.body, n ≤ I.id
  head : Block.Wf ⟨[], R.head, R.terminator⟩ (Place.Within R.blocks.length) (n + R.size)
  block : ∀ B ∈ R.blocks, B.Wf (Place.Within R.blocks.length) (n + R.size)
  nodup : ((R.head ++ R.blocks.flatMap Block.body).map Instr.id).Nodup
  incoming : ∀ e ∈ R.incoming, e.1.Within R.blocks.length ∧ e.2.Below (n + R.size)

end Replace

section Walk

variable {ι σ : Type*} (eval : ι → List ℕ → σ → ℕ × σ)

/-- Follow the edges of a network from the end of the block at `p` to the join. -/
def Region.walk (R : Region ι) : ℕ → Place → Terminator Place → Env × σ → Option (Place × Env × σ)
  | 0, _, _, _ => none
  | n + 1, p, t, s =>
    match t.exec s.1 with
    | .inl .exit => some (p, s)
    | .inl (.inner k) =>
      match R.blocks[k]? with
      | none => none
      | some B =>
        match enter B.phis (some p) s.1 with
        | none => none
        | some ρ => R.walk n (.inner k) B.terminator (execBody eval (ρ, s.2) B.body)
    | .inl .head => none
    | .inr _ => none

/-- The value of the phi node at the join, and the state there. -/
def Region.result (R : Region ι) (n : ℕ) (s : Env × σ) : Option (ℕ × Env × σ) :=
  match R.walk eval n .head R.terminator (execBody eval s R.head) with
  | none => none
  | some (p, s) => ((Phi.mk 0 R.incoming).value (some p) s.1).map fun v => (v, s)

/-- In every state the network computes what the instruction computes. -/
def Region.Computes (R : Region ι) (I : Instr ι) : Prop :=
  ∀ s : Env × σ, ∃ fuel v s', R.result eval fuel s = some (v, s') ∧
    (v, s'.2) = eval I.op (I.args.map (Operand.value s.1)) s.2

end Walk

end AflPlusPlus.ControlFlow
