import AflPlusPlus.ByteWords
import AflPlusPlus.CheckedBlocks
import AflPlusPlus.CheckedPrograms
import AflPlusPlus.CkAlloc
import AflPlusPlus.Limits

/-!
# Growing the coverage map

When the target, or a binary that runs beside it, needs a larger map, `main` reallocates the arrays
with an entry for each index and clears what was added. What `realloc` adds to an array may hold
anything.
-/

namespace AflPlusPlus.MapGrowth
open ByteWords CheckedBlocks CheckedPrograms CkAlloc

/-- `MAP_SIZE` -/
def fixedMapSize : ℕ := 2 ^ 16

/-- The arrays of `afl_state_t` with an entry for each index of the map. -/
inductive Map
  | virginBits | virginTmout | virginCrash | varBytes | topRated | cleanTrace | cleanTraceCustom
  | firstTrace | mapTmpBuf
deriving DecidableEq

/-- The arrays in the order in which they are reallocated. -/
def allMaps : List Map :=
  [.virginBits, .virginTmout, .virginCrash, .varBytes, .topRated, .cleanTrace, .cleanTraceCustom,
    .firstTrace, .mapTmpBuf]

/-- The arrays that are cleared behind the old size. -/
def clearedMaps : List Map :=
  [.varBytes, .topRated, .cleanTrace, .cleanTraceCustom, .firstTrace, .mapTmpBuf]

/-- The size of an entry: `top_rated` holds pointers. -/
def elemSize : Map → ℕ
  | .topRated => 8
  | _ => 1

structure State where
  mapSize : ℕ
  maps : Map → Block Byte

inductive Stop
  | abort
  | outOfBounds
deriving DecidableEq

abbrev Init (α : Type) := Program State Stop α

/-! ## The steps -/

/-- `DFL_ck_realloc`, whose size is a `u32`. `NULL` is a block without cells. -/
def ckRealloc (fresh : Mem) (orig : Block Byte) (size : ℕ) : Except Stop (Block Byte) :=
  let size := size % 2 ^ 32
  if size = 0 then .ok ⟨0, fresh⟩
  else if size > maxAlloc then .error .abort
  else .ok ⟨size, fun k => if k < orig.size then orig.cell k else fresh k⟩

/-- `DFL_ck_alloc` ends the process instead of returning without a block. -/
def orAbort : Option (Block Byte) → Except Stop (Block Byte)
  | none => .error .abort
  | some b => .ok b

def memset (b : Block Byte) (i n : ℕ) : Except Stop (Block Byte) :=
  if i + n ≤ b.size then .ok (b.overwrite i n fun _ => 0) else .error .outOfBounds

/-- One array after the other. -/
def onEach (f : Map → Block Byte → Except Stop (Block Byte)) : List Map → Init Unit
  | [] => pure ()
  | a :: as => do
    let s ← get
    match f a (s.maps a) with
    | .error e => fail e
    | .ok b => do
      set { s with maps := Function.update s.maps a b }
      onEach f as

/-- Each array has the given memory behind its old bytes. -/
def reallocMaps (fresh : Map → Mem) (newMapSize : ℕ) : Init Unit :=
  onEach (fun a b => ckRealloc (fresh a) b (newMapSize * elemSize a)) allMaps

/-- The offset counts entries, and the length counts bytes. -/
def clearMaps (oldMapSize newMapSize : ℕ) : Init Unit :=
  if oldMapSize < newMapSize then
    onEach (fun a b => memset b (oldMapSize * elemSize a) (newMapSize - oldMapSize)) clearedMaps
  else pure ()

def setMapSize (mapSize : ℕ) : Init Unit := modify fun s => { s with mapSize := mapSize }

/-- The arrays in `afl_state_init`. -/
def stateInit (mapSize : ℕ) : Init Unit := do
  onEach (fun a _ => orAbort (ckAlloc (mapSize * elemSize a))) allMaps
  setMapSize mapSize

/-! ## The blocks of `main` -/

/-- The modes whose map has a fixed size. -/
def fixedSizeModes (fresh : Map → Mem) : Init Unit := do
  let oldMapSize := (← get).mapSize
  setMapSize fixedMapSize
  reallocMaps fresh fixedMapSize
  clearMaps oldMapSize fixedMapSize

/-- The map of the target, only reinitialized if it needs to be larger. -/
def targetMap (fresh : Map → Mem) (newMapSize : ℕ) : Init Unit := do
  let oldMapSize := (← get).mapSize
  if oldMapSize < newMapSize then do
    reallocMaps fresh newMapSize
    clearMaps oldMapSize newMapSize
    setMapSize newMapSize
  else pure ()

/-- The same for the map of the binary for cmplog. -/
def cmplogBinary (fresh : Map → Mem) (newMapSize : ℕ) : Init Unit := targetMap fresh newMapSize

/-- For the binaries with sanitizers nothing is cleared. -/
def sanBinary (fresh : Map → Mem) (newMapSize : ℕ) : Init Unit := do
  let oldMapSize := (← get).mapSize
  if oldMapSize < newMapSize then do
    reallocMaps fresh newMapSize
    setMapSize newMapSize
  else pure ()

inductive Reinit
  | fixedSizeModes
  | targetMap (newMapSize : BitVec 32)
  | cmplogBinary (newMapSize : BitVec 32)
  | sanBinary (newMapSize : BitVec 32)
deriving DecidableEq

def Reinit.run (fresh : Map → Mem) : Reinit → Init Unit
  | .fixedSizeModes => MapGrowth.fixedSizeModes fresh
  | .targetMap newMapSize => MapGrowth.targetMap fresh newMapSize.toNat
  | .cmplogBinary newMapSize => MapGrowth.cmplogBinary fresh newMapSize.toNat
  | .sanBinary newMapSize => MapGrowth.sanBinary fresh newMapSize.toNat

/-- The size that the map is to have. -/
def Reinit.newMapSize : Reinit → ℕ
  | .fixedSizeModes => fixedMapSize
  | .targetMap newMapSize | .cmplogBinary newMapSize | .sanBinary newMapSize => newMapSize.toNat

/-- The states between the blocks. -/
inductive Reachable : State → Prop
  | init {s t : State} (mapSize : BitVec 32) :
      stateInit mapSize.toNat s = .ok ((), t) → Reachable t
  | reinit {s t : State} (fresh : Map → Mem) (b : Reinit) :
      Reachable s → b.run fresh s = .ok ((), t) → Reachable t

end AflPlusPlus.MapGrowth
