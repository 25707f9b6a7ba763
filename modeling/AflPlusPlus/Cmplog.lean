import AflPlusPlus.ByteWords
import AflPlusPlus.Limits
import AflPlusPlus.RingTables

/-!
# The log of compared operands

The target calls a hook at each of its compares. The hooks write the operands into the entry of
the compare in a table that is shared with the fuzzer, and count the calls in the header of the
entry. The input-to-state stage goes through the entries after a run.
-/

namespace AflPlusPlus.Cmplog

open ByteWords RingTables

/-- `CMP_TYPE_INS` and `CMP_TYPE_RTN`. -/
inductive CmpType
  | ins | rtn
  deriving DecidableEq

/-- `CMP_MAP_H` and `CMP_MAP_RTN_H`. -/
def CmpType.height : CmpType → ℕ
  | .ins => 32
  | .rtn => 16

/-- `struct cmp_header`. -/
structure Header where
  hits : BitVec 6 := 0
  shape : BitVec 5 := 0
  type : CmpType := .ins
  attr : BitVec 4 := 0
  deriving DecidableEq

/-- `struct cmp_map`. A slot of the log is the memory of a `cmp_operands` or `cmpfn_operands`
record. -/
structure CmpMap where
  headers : BitVec 16 → Header
  log : BitVec 16 → ℕ → Mem

/-- The map at the start of a run: the fuzzer has cleared the headers. -/
def CmpMap.cleared (log : BitVec 16 → ℕ → Mem) : CmpMap := ⟨fun _ => {}, log⟩

/-! ## The hooks -/

/-- The field of `count` bytes at an offset of a record. -/
def field (offset count : ℕ) (bytes : Mem) : ℕ → Option Byte := fun i =>
  if offset ≤ i ∧ i < offset + count then some (bytes (i - offset)) else none

/-- The bytes of a record that a hook sets, from the fields it assigns. -/
def fields (fs : List (ℕ → Option Byte)) : ℕ → Option Byte := fun i => fs.findSome? fun f => f i

/-- What a hook that gets as far as the map writes there. The shape is the number of bytes that
were compared, minus one. -/
structure Logged where
  type : CmpType
  shape : ℕ
  attr : Option (BitVec 8) := none
  data : ℕ → Option Byte

/-- A pointer that is passed to a hook: the memory behind it, and what `area_is_valid` says of it
for a length. -/
structure Pointer where
  null : Bool := false
  mem : Mem
  areaIsValid : ℕ → ℕ

/-- The number of bytes before the first zero byte, at most `limit`. -/
def strnlen (mem : Mem) (limit : ℕ) : ℕ := ((List.range limit).takeWhile (mem · ≠ 0)).length

/-- `__afl_cmplog_max_len`, from `AFL_CMPLOG_MAX_LEN`. -/
def cmplogMaxLen : Option ℤ → ℕ
  | none => 32
  | some len => if 16 ≤ len ∧ len ≤ 32 then len.toNat else 32

theorem cmplogMaxLen_le (env : Option ℤ) : cmplogMaxLen env ≤ 32 := by
  cases env with
  | none => exact le_rfl
  | some len =>
    rw [cmplogMaxLen]
    split_ifs <;> omega

/-- What the hooks for instructions log when the operands have at most eight bytes. -/
def insOperands (shape : ℕ) (arg1 arg2 : BitVec 64) (attr : BitVec 8) : Logged :=
  { type := .ins, shape := shape, attr := some attr
    data := fields [field 0 8 (byteOf arg1), field 32 8 (byteOf arg2)] }

/-- What they log for longer operands. -/
def insOperands128 (shape : ℕ) (arg1 arg2 : BitVec 128) (attr : BitVec 8) : Logged :=
  { type := .ins, shape := shape, attr := some attr
    data := fields [field 0 8 (byteOf arg1), field 32 8 (byteOf arg2),
      field 8 8 (byteOf (arg1 >>> 64)), field 40 8 (byteOf (arg2 >>> 64))] }

/-- `__cmplog_ins_hook1` returns at once. -/
def cmplogInsHook1 (_arg1 _arg2 : BitVec 8) (_attr : BitVec 8) : Option Logged := none

def cmplogInsHook2 (arg1 arg2 : BitVec 16) (attr : BitVec 8) : Option Logged :=
  if arg1 = arg2 then none else some (insOperands 1 (arg1.setWidth 64) (arg2.setWidth 64) attr)

def cmplogInsHook4 (arg1 arg2 : BitVec 32) (attr : BitVec 8) : Option Logged :=
  if arg1 = arg2 then none else some (insOperands 3 (arg1.setWidth 64) (arg2.setWidth 64) attr)

def cmplogInsHook8 (arg1 arg2 : BitVec 64) (attr : BitVec 8) : Option Logged :=
  if arg1 = arg2 then none else some (insOperands 7 arg1 arg2 attr)

/-- `__cmplog_ins_hookN`. The instrumentation passes a size of at most sixteen bytes, minus
one. -/
def cmplogInsHookN (maxLen : ℕ) (arg1 arg2 : BitVec 128) (attr : BitVec 8) (size : Fin 16) :
    Option Logged :=
  if arg1 = arg2 ∨ maxLen < size.val then none
  else if 7 < size.val then some (insOperands128 size.val arg1 arg2 attr)
  else some (insOperands size.val (arg1.setWidth 64) (arg2.setWidth 64) attr)

/-- `__cmplog_ins_hook16` logs equal operands, too. -/
def cmplogInsHook16 (maxLen : ℕ) (arg1 arg2 : BitVec 128) (attr : BitVec 8) : Option Logged :=
  if maxLen < 16 then none else some (insOperands128 15 arg1 arg2 attr)

/-- A turn of the loop of `__sanitizer_cov_trace_switch`. -/
def covTraceSwitch (val case : BitVec 64) : Option Logged := some (insOperands 7 val case 1)

/-- What the hooks for functions log, given how much of each operand they copy and the lengths
they note. -/
def rtnOperands (len len1 len2 noted1 noted2 : ℕ) (ptr1 ptr2 : Pointer) : Logged :=
  { type := .rtn, shape := len - 1
    data := fields [field 0 len1 ptr1.mem, field 32 len2 ptr2.mem,
      field 64 1 fun _ => BitVec.ofNat 8 noted1, field 65 1 fun _ => BitVec.ofNat 8 noted2] }

/-- The longer of two lengths, where a length of `0` is none. -/
def longer (len1 len2 : ℕ) : ℕ :=
  if len1 = 0 then len2 else if len2 = 0 then len1 else max len1 len2

/-- The length that a hook for strings takes for an operand: one beyond the limit is none. -/
def accepted (maxLen len : ℕ) : ℕ := if maxLen < len then 0 else len

theorem accepted_le (maxLen len : ℕ) : accepted maxLen len ≤ maxLen := by
  unfold accepted
  split_ifs <;> omega

def cmplogRtnHookStrn (maxLen : ℕ) (ptr1 ptr2 : Pointer) (len : BitVec 64) : Option Logged :=
  if len.toNat = 0 ∨ maxLen < len.toNat then none
  else
    let len0 := min len.toNat 32
    let len1 := accepted maxLen (ptr1.areaIsValid (strnlen ptr1.mem len0 + 1))
    let len2 := accepted maxLen (ptr2.areaIsValid (strnlen ptr2.mem len0 + 1))
    let l := longer len1 len2
    if l < 2 then none
    else some (rtnOperands l len1 len2 (0x80 + l) (0x80 + l) ptr1 ptr2)

def cmplogRtnHookStr (maxLen : ℕ) (ptr1 ptr2 : Pointer) : Option Logged :=
  if ptr1.null ∨ ptr2.null then none
  else
    let len1 := accepted maxLen (strnlen ptr1.mem 31 + 1)
    let len2 := accepted maxLen (strnlen ptr2.mem 31 + 1)
    let l := longer len1 len2
    if l < 2 then none
    else some (rtnOperands l len1 len2 (0x80 + len1) (0x80 + len2) ptr1 ptr2)

/-- `__cmplog_rtn_hook`, also called by `__cmplog_rtn_hook_n`, which ignores its length. -/
def cmplogRtnHook (maxLen : ℕ) (ptr1 ptr2 : Pointer) : Option Logged :=
  let l1 := ptr1.areaIsValid 32
  let l2 := ptr2.areaIsValid 32
  if l1 = 0 ∨ l2 = 0 then none
  else
    let len := min maxLen (min l1 l2)
    some (rtnOperands len len len len len ptr1 ptr2)

/-- A call of a hook with its arguments. -/
inductive Hook
  | ins1 (arg1 arg2 : BitVec 8) (attr : BitVec 8)
  | ins2 (arg1 arg2 : BitVec 16) (attr : BitVec 8)
  | ins4 (arg1 arg2 : BitVec 32) (attr : BitVec 8)
  | ins8 (arg1 arg2 : BitVec 64) (attr : BitVec 8)
  | insN (arg1 arg2 : BitVec 128) (attr : BitVec 8) (size : Fin 16)
  | ins16 (arg1 arg2 : BitVec 128) (attr : BitVec 8)
  | switch (val case : BitVec 64)
  | rtnStrn (ptr1 ptr2 : Pointer) (len : BitVec 64)
  | rtnStr (ptr1 ptr2 : Pointer)
  | rtn (ptr1 ptr2 : Pointer)

/-- The kind of compare that the hook is for. -/
def Hook.type : Hook → CmpType
  | .ins1 .. | .ins2 .. | .ins4 .. | .ins8 .. | .insN .. | .ins16 .. | .switch .. => .ins
  | .rtnStrn .. | .rtnStr .. | .rtn .. => .rtn

/-- What the hook logs; `none` when it returns before it gets to the map. -/
def Hook.logged (maxLen : ℕ) : Hook → Option Logged
  | .ins1 arg1 arg2 attr => cmplogInsHook1 arg1 arg2 attr
  | .ins2 arg1 arg2 attr => cmplogInsHook2 arg1 arg2 attr
  | .ins4 arg1 arg2 attr => cmplogInsHook4 arg1 arg2 attr
  | .ins8 arg1 arg2 attr => cmplogInsHook8 arg1 arg2 attr
  | .insN arg1 arg2 attr size => cmplogInsHookN maxLen arg1 arg2 attr size
  | .ins16 arg1 arg2 attr => cmplogInsHook16 maxLen arg1 arg2 attr
  | .switch val case => covTraceSwitch val case
  | .rtnStrn ptr1 ptr2 len => cmplogRtnHookStrn maxLen ptr1 ptr2 len
  | .rtnStr ptr1 ptr2 => cmplogRtnHookStr maxLen ptr1 ptr2
  | .rtn ptr1 ptr2 => cmplogRtnHook maxLen ptr1 ptr2

/-- What a hook compares the shape of the header with: the hooks for functions take the length of
their operands there. -/
def Logged.shapeBound (e : Logged) : ℕ :=
  match e.type with
  | .ins => e.shape
  | .rtn => e.shape + 1

/-- The header after a hook has counted its call. The first call of another type starts the entry
again. -/
def Header.count (h : Header) (e : Logged) : Header where
  type := e.type
  hits := if h.type ≠ e.type then 1 else h.hits + 1
  shape :=
    if h.type ≠ e.type then BitVec.ofNat 5 e.shape
    else if h.shape.toNat < e.shapeBound then BitVec.ofNat 5 e.shape
    else h.shape
  attr := (e.attr.map (BitVec.setWidth 4)).getD h.attr

/-- The slot that a hook writes, from the header before its call. -/
def Header.slot (h : Header) (e : Logged) : ℕ :=
  (if h.type ≠ e.type then 0 else h.hits.toNat) &&& (e.type.height - 1)

/-- The end of every hook: it counts its call in the header and writes the operands. -/
def CmpMap.record (map : CmpMap) (k : BitVec 16) (e : Logged) : CmpMap where
  headers := Function.update map.headers k ((map.headers k).count e)
  log := Function.update map.log k <|
    let slot := (map.headers k).slot e
    Function.update (map.log k) slot fun i => (e.data i).getD (map.log k slot i)

/-- A hook call in the target, with its return address. -/
structure Call where
  addr : BitVec 64
  hook : Hook

section Run
variable (hash : BitVec 64 → BitVec 64) (maxLen : ℕ)

/-- The entry of a compare, from the `default_hash` of its address. -/
def Call.key (c : Call) : BitVec 16 := (hash c.addr).setWidth 16

def Call.logged (c : Call) : Option Logged := c.hook.logged maxLen

def CmpMap.call (map : CmpMap) (c : Call) : CmpMap :=
  match c.logged maxLen with
  | none => map
  | some e => map.record (c.key hash) e

/-- The map after the hook calls of a run. -/
def CmpMap.run (map : CmpMap) (calls : List Call) : CmpMap :=
  calls.foldl (CmpMap.call hash maxLen) map

/-- The hook calls at an entry. -/
def callsAt (calls : List Call) (k : BitVec 16) : List Call :=
  calls.filter fun c => c.key hash = k

/-- What the hook calls at an entry log, in order. -/
def loggedAt (calls : List Call) (k : BitVec 16) : List Logged :=
  (callsAt hash calls k).filterMap (Call.logged maxLen)

end Run

/-! ## The fuzzer -/

/-- What the input-to-state stage knows when it goes through the map: the statistics of earlier
passes and the level. -/
structure Stage where
  total : BitVec 16 → BitVec 8
  faileds : BitVec 16 → BitVec 8
  lvl1 : Bool
  lvl3 : Bool
  enableTransform : Bool

/-- The number of operand pairs that `cmp_fuzz` or `rtn_fuzz` goes through. -/
def Header.loggeds (h : Header) (t : CmpType) : ℕ :=
  if h.shape.toNat + 1 < 2 then 0
  else if t.height < h.hits.toNat then t.height
  else h.hits.toNat

/-- The number of operand pairs that `input_to_state_stage` considers for an entry: the slots from
the first on. -/
def Stage.considered (stage : Stage) (map : CmpMap) (k : BitVec 16) : ℕ :=
  let h := map.headers k
  if h.hits = 0 then 0
  else if cmplogFailMax ≤ (stage.faileds k).toNat ∨ cmplogFailMax ≤ (stage.total k).toNat then 0
  else match h.type with
    | .ins => h.loggeds .ins
    | .rtn => if stage.lvl1 ∨ stage.lvl3 ∧ stage.enableTransform then h.loggeds .rtn else 0

end AflPlusPlus.Cmplog
