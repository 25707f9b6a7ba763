import AflPlusPlus.BlockTexts
import AflPlusPlus.CkAlloc
import AflPlusPlus.TextLines

/-!
# Environment variables from one string

`extract_and_set_env` walks over a copy of the string. It cuts the copy where a name and where a
value ends, so that both are strings of their own when `setenv` is called.
-/

namespace AflPlusPlus.ExtractAndSetEnv
open ByteWords CheckedBlocks BlockTexts CkAlloc TextLines

/-- The copy was refused, an access was outside of it, or a loop took more steps than it may. -/
inductive Failure
  | abort
  | outOfBounds
  | endless
deriving DecidableEq

def checked {α : Type} : Option α → Except Failure α
  | some a => .ok a
  | none => .error .outOfBounds

def allocated {α : Type} : Option α → Except Failure α
  | some a => .ok a
  | none => .error .abort

/-- `env` has the calls of `setenv`. -/
structure State where
  p : Block Byte
  rest : ℕ
  closingSym : Byte
  numPairs : ℕ
  env : List (List Byte × List Byte)

inductive Flow
  | again (s : State)
  | leave (s : State)
  | freeAndReturn (s : State)

def skipBlanks (p : Block Byte) : ℕ → ℕ → Except Failure ℕ
  | 0, _ => .error .endless
  | fuel + 1, rest => do
    if (← checked (p.load rest)) = chr ' ' then skipBlanks p fuel (rest + 1) else .ok rest

def isNameChar (c : Byte) : Bool :=
  !((c < chr 'A' || c > chr 'Z') && (c < chr 'a' || c > chr 'z') && (c < chr '0' || c > chr '9') &&
    c != chr '_')

/-- The end of the name, unless there is a character in it that may not be. -/
def scanName (p : Block Byte) (last : ℕ) : ℕ → ℕ → Except Failure (Option ℕ)
  | 0, _ => .error .endless
  | fuel + 1, rest =>
    if rest < last then do
      let c ← checked (p.load rest)
      if c = chr '=' ∨ c = chr ' ' then .ok (some rest)
      else if isNameChar c then scanName p last fuel (rest + 1)
      else .ok none
    else .ok (some rest)

def scanValue (p : Block Byte) (last : ℕ) (closingSym : Byte) : ℕ → ℕ → Except Failure ℕ
  | 0, _ => .error .endless
  | fuel + 1, rest =>
    if rest < last then do
      if (← checked (p.load rest)) = closingSym then .ok rest
      else scanValue p last closingSym fuel (rest + 1)
    else .ok rest

/-- From the value on: `rest` is behind the terminated name at `key`, and the value, without an
opening quote, is at `val`. -/
def setValue (fuel last key val : ℕ) (s : State) : Except Failure Flow := do
  let rest ← scanValue s.p last s.closingSym fuel s.rest
  if s.closingSym ≠ chr ' ' ∧ (← checked (s.p.load rest)) ≠ s.closingSym then
    .ok (.freeAndReturn { s with rest := rest })
  else
    let p ← checked (s.p.store rest 0)
    let name ← checked (stringAt p 0 key)
    let value ← checked (stringAt p 0 val)
    .ok (.again { s with
      p := p
      rest := rest + 1
      numPairs := s.numPairs + 1
      env := s.env ++ [(name, value)] })

/-- From the end of the name on. -/
def openValue (fuel last key : ℕ) (s : State) : Except Failure Flow := do
  if (← checked (s.p.load s.rest)) ≠ chr '=' then .ok (.freeAndReturn s)
  else
    let p ← checked (s.p.store s.rest 0)
    let s := { s with p := p, rest := s.rest + 1 }
    if s.rest ≥ last then .ok (.freeAndReturn s)
    else
      let c ← checked (p.load s.rest)
      if c = chr ' ' then .ok (.freeAndReturn s)
      else if c = chr '\'' ∨ c = chr '"' then
        let s := { s with closingSym := c, rest := s.rest + 1 }
        if s.rest ≥ last then .ok (.freeAndReturn s) else setValue fuel last key s.rest s
      else setValue fuel last key s.rest { s with closingSym := chr ' ' }

/-- One round of the loop over the pairs. -/
def body (fuel last : ℕ) (s : State) : Except Failure Flow := do
  let key ← skipBlanks s.p fuel s.rest
  if key + 1 ≥ last then .ok (.leave { s with rest := key })
  else
    let c ← checked (s.p.load key)
    if c = chr '=' ∨ (chr '0' ≤ c ∧ c ≤ chr '9') then
      .ok (.freeAndReturn { s with rest := key })
    else
      match ← scanName s.p last fuel key with
      | none => .ok (.freeAndReturn { s with rest := key })
      | some rest => openValue fuel last key { s with rest := rest }

def loop (fuel last : ℕ) :
    ℕ → State → Except Failure (Bool × List (List Byte × List Byte))
  | 0, _ => .error .endless
  | n + 1, s =>
    if s.rest < last then do
      match ← body fuel last s with
      | .again t => loop fuel last n t
      | .leave t => .ok (t.numPairs ≠ 0, t.env)
      | .freeAndReturn t => .ok (false, t.env)
    else .ok (s.numPairs ≠ 0, s.env)

/-- `envStr` is null or a string, given by its characters before the terminator. The result comes
with the calls of `setenv`. -/
def extractAndSetEnv (fuel : ℕ) (envStr : Option (List Byte)) :
    Except Failure (Bool × List (List Byte × List Byte)) :=
  match envStr with
  | none => .ok (false, [])
  | some str => do
    let p ← allocated (ckStrdup str)
    let last ← checked (stringAt p 0 0)
    loop fuel last.length fuel ⟨p, 0, chr ' ', 0, []⟩

end AflPlusPlus.ExtractAndSetEnv
