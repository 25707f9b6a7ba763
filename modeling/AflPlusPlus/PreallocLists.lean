import AflPlusPlus.HeapCells
import AflPlusPlus.Rings

/-!
# Lists with a pool of elements

The lists of `list.h` are circular, and their head is the first element of a pool that is part of
the list. The elements of the list come from the pool, and from the heap when the pool is used up
(`afl-prealloc.h`).
-/

namespace AflPlusPlus.PreallocLists
open HeapCells (Malloc Bounded)

variable {α : Type}

inductive PreStatus
  | unused
  | used
  | malloc
deriving DecidableEq

structure Element (α : Type) where
  preStatus : PreStatus
  prev : Option ℕ
  next : Option ℕ
  data : α

/-- The cells up to `preallocSize` are those of the pool, the others are on the heap. -/
structure PreList (α : Type) where
  cell : ℕ → Option (Element α)
  elementPreallocCount : ℤ

def preallocSize : ℕ := 64

def getHead : ℕ := 0

/-- A call of `FATAL`, an access through a pointer that leads nowhere, or a loop that takes more
steps than it may. -/
inductive Failure
  | fatal (message : String)
  | invalid
  | endless
deriving DecidableEq

/-- `memset` of the list. The default item is the null pointer. -/
def memset [Inhabited α] (l : PreList α) : PreList α :=
  ⟨fun p => if p < preallocSize then some ⟨.unused, none, none, default⟩ else l.cell p, 0⟩

def zeroed [Inhabited α] : PreList α := memset ⟨fun _ => none, 0⟩

/-! ## Memory -/

def get (l : PreList α) (p : ℕ) : Except Failure (Element α) :=
  match l.cell p with
  | some el => .ok el
  | none => .error .invalid

def deref (p : Option ℕ) : Except Failure ℕ :=
  match p with
  | some p => .ok p
  | none => .error .invalid

def modify (l : PreList α) (p : ℕ) (f : Element α → Element α) : Except Failure (PreList α) := do
  let el ← get l p
  .ok { l with cell := Function.update l.cell p (some (f el)) }

def setNext (l : PreList α) (p : ℕ) (q : Option ℕ) : Except Failure (PreList α) :=
  modify l p fun el => { el with next := q }

def setPrev (l : PreList α) (p : ℕ) (q : Option ℕ) : Except Failure (PreList α) :=
  modify l p fun el => { el with prev := q }

/-! ## The pool -/

def isUnused (l : PreList α) (p : ℕ) : Bool :=
  match l.cell p with
  | some el => el.preStatus == .unused
  | none => false

/-- `stale` is what is in an element when it comes from the heap. -/
def preAlloc (m : Malloc (Element α)) (stale : Element α) (l : PreList α) :
    Except Failure (ℕ × PreList α) :=
  if l.elementPreallocCount ≥ preallocSize then
    let p := m.pick l.cell
    .ok (p, { l with cell := Function.update l.cell p (some { stale with preStatus := .malloc }) })
  else
    match (List.range preallocSize).find? (isUnused l) with
    | some p => do
      let l ← modify l p fun el => { el with preStatus := .used }
      .ok (p, { l with elementPreallocCount := l.elementPreallocCount + 1 })
    | none => .ok (preallocSize - 1, l)

def preAllocForce (l : PreList α) (p : ℕ) : Except Failure (PreList α) := do
  let el ← get l p
  if el.preStatus ≠ .unused then .error (.fatal "PRE_ALLOC_FORCE element already allocated")
  else
    let l ← modify l p fun el => { el with preStatus := .used }
    .ok { l with elementPreallocCount := l.elementPreallocCount + 1 }

def preFree (l : PreList α) (p : ℕ) : Except Failure (PreList α) := do
  let el ← get l p
  match el.preStatus with
  | .used =>
    let l ← modify l p fun el => { el with preStatus := .unused }
    let l := { l with elementPreallocCount := l.elementPreallocCount - 1 }
    if l.elementPreallocCount < 0 then .error (.fatal "Inconsistent data in PRE_FREE") else .ok l
  | .malloc => .ok { l with cell := Function.update l.cell p none }
  | .unused => .error (.fatal "Double Free Detected")

/-! ## The list -/

/-- The head is taken from the pool, and points to itself. -/
def initList [Inhabited α] (l : PreList α) : Except Failure (PreList α) := do
  let l ← preAllocForce (memset l) getHead
  let l ← setPrev l getHead (some getHead)
  setNext l getHead (some getHead)

/-- A new element goes in front of the head. -/
def appendBox (m : Malloc (Element α)) (stale : Element α) (item : α) (l : PreList α) :
    Except Failure (PreList α) := do
  let (elBox, l) ← preAlloc m stale l
  let head ← get l getHead
  let l ← modify l elBox fun el =>
    { el with data := item, next := some getHead, prev := head.prev }
  let head ← get l getHead
  let last ← deref head.prev
  let l ← setNext l last (some elBox)
  setPrev l getHead (some elBox)

def listAppend [Inhabited α] (m : Malloc (Element α)) (stale : Element α) (item : α)
    (l : PreList α) : Except Failure (PreList α) := do
  let head ← get l getHead
  if head.next = none then
    let l ← initList l
    appendBox m stale item l
  else appendBox m stale item l

/-- What the block of a loop does with the current element. -/
inductive Action
  | next
  | removeCurrent
  | returns
deriving DecidableEq

/-- `LIST_REMOVE_CURRENT_EL_IN_FOREACH`. The element is read anew for each of its pointers. -/
def removeCurrent (l : PreList α) (elBox : ℕ) (next : Option ℕ) :
    Except Failure (PreList α) := do
  let prev ← deref (← get l elBox).prev
  let l ← setNext l prev next
  let el ← get l elBox
  let l ← setPrev l (← deref el.next) el.prev
  preFree l elBox

/-- The loop of `LIST_FOREACH`. The block sees the items visited before; the result has the items
visited, and says whether the block has returned. -/
def foreachLoop (block : List α → α → Action) :
    ℕ → Option ℕ → List α → PreList α → Except Failure (List α × Bool × PreList α)
  | 0, _, _, _ => .error .endless
  | fuel + 1, elBox, visited, l =>
    if elBox = some getHead then .ok (visited, false, l)
    else do
      let elBox ← deref elBox
      let el ← get l elBox
      match block visited el.data with
      | .next => foreachLoop block fuel el.next (visited ++ [el.data]) l
      | .removeCurrent =>
        let l ← removeCurrent l elBox el.next
        foreachLoop block fuel el.next (visited ++ [el.data]) l
      | .returns => .ok (visited ++ [el.data], true, l)

def listForeach (fuel : ℕ) (block : List α → α → Action) (l : PreList α) :
    Except Failure (List α × Bool × PreList α) := do
  let head ← get l getHead
  if head.next = none then .error (.fatal "foreach over uninitialized list")
  else foreachLoop block fuel head.next [] l

/-- `LIST_FOREACH_CLEAR`: the current element is removed after the block, unless that returns. -/
def listForeachClear (fuel : ℕ) (block : List α → α → Bool) (l : PreList α) :
    Except Failure (List α × Bool × PreList α) :=
  listForeach fuel (fun visited item => if block visited item then .returns else .removeCurrent) l

variable [DecidableEq α]

/-- The loop of `list_remove`. -/
def removeLoop [Inhabited α] (removeMe : α) :
    ℕ → Option ℕ → PreList α → Except Failure (PreList α)
  | 0, _, _ => .error .endless
  | fuel + 1, elBox, l =>
    if elBox = some getHead then .error (.fatal "List item to be removed not in list")
    else do
      let elBox ← deref elBox
      let el ← get l elBox
      if el.data = removeMe then
        let l ← setNext l (← deref el.prev) el.next
        let el ← get l elBox
        let l ← setPrev l (← deref el.next) el.prev
        let l ← modify l elBox fun el => { el with data := default }
        preFree l elBox
      else removeLoop removeMe fuel el.next l

def listRemove [Inhabited α] (fuel : ℕ) (removeMe : α) (l : PreList α) :
    Except Failure (PreList α) := do
  let head ← get l getHead
  if head.next = none then .error (.fatal "foreach over uninitialized list")
  else removeLoop removeMe fuel head.next l

def listContains (fuel : ℕ) (containsMe : α) (l : PreList α) : Except Failure Bool := do
  let (_, found, _) ←
    listForeach fuel (fun _ item => if item = containsMe then .returns else .next) l
  .ok found

/-! ## Runs -/

inductive Op (α : Type)
  | append (item : α)
  | remove (item : α)
  | contains (item : α)
  | foreach (block : List α → α → Action)
  | foreachClear (block : List α → α → Bool)

inductive Out (α : Type)
  | done
  | contained (found : Bool)
  | visited (items : List α)
deriving DecidableEq

def step [Inhabited α] (m : Malloc (Element α)) (stale : Element α) (fuel : ℕ) (op : Op α)
    (l : PreList α) : Except Failure (Out α × PreList α) :=
  match op with
  | .append item => do .ok (.done, ← listAppend m stale item l)
  | .remove item => do .ok (.done, ← listRemove fuel item l)
  | .contains item => do .ok (.contained (← listContains fuel item l), l)
  | .foreach block => do
    let (items, _, l) ← listForeach fuel block l
    .ok (.visited items, l)
  | .foreachClear block => do
    let (items, _, l) ← listForeachClear fuel block l
    .ok (.visited items, l)

def run [Inhabited α] (m : Malloc (Element α)) (stale : Element α) (fuel : ℕ) :
    List (Op α) → PreList α → Except Failure (List (Out α) × PreList α)
  | [], l => .ok ([], l)
  | op :: ops, l => do
    let (out, l) ← step m stale fuel op l
    let (outs, l) ← run m stale fuel ops l
    .ok (out :: outs, l)

end AflPlusPlus.PreallocLists
