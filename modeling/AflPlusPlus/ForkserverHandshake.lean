import AflPlusPlus.Pipes
import AflPlusPlus.TransitionSystems

/-!
# The handshake of the fork server

The target sends its version, waits for the complement of it, and sends its options, the
size of its map, its dictionary if it has one, and the version again. The fuzzer reads a word
more or less depending on the options. Both go on independently of each other; only the
pipes between them make one wait for the other. A word is written at once, since it is
shorter than `PIPE_BUF`; the dictionary passes in pieces of any size.
-/

namespace AflPlusPlus.ForkserverHandshake
open ByteWords ByteBuffers Pipes

def fsNewVersionMin : BitVec 32 := 1#32
def fsNewVersionMax : BitVec 32 := 1#32
def fsNewError : BitVec 32 := 0xeffe0000#32
def fsNewOptMapsize : BitVec 32 := 0x1#32
def fsNewOptShdmemFuzz : BitVec 32 := 0x2#32
def fsNewOptAutodict : BitVec 32 := 0x800#32

/-- `MAP_SIZE`. -/
def defaultMapSize : BitVec 32 := 0x10000#32

def version : BitVec 32 := 0x41464c00#32 + fsNewVersionMax

/-! ## The target -/

/-- The settings of the target. The pointer to the dictionary may be null. -/
structure Target where
  mapSize : BitVec 32
  sharedmemFuzzing : Bool
  dictionary : Option Buffer

/-- Where the target stands in `__afl_start_forkserver`. -/
inductive TargetPoint
  | writeVersion | readReply | writeOptions | writeMapSize | writeDictLen
  | writeDict (offset len : ℕ)
  | writeWelcome | ready | exited
  deriving DecidableEq

namespace Target

/-- `__afl_dictionary`, with the length zero when there is none. -/
def dict (t : Target) : Buffer := t.dictionary.getD []

/-- `__afl_dictionary_len && __afl_dictionary`. -/
def hasDictionary (t : Target) : Bool := t.dict.length ≠ 0

def options (t : Target) : BitVec 32 :=
  let status := fsNewOptMapsize
  let status := if t.sharedmemFuzzing then status ||| fsNewOptShdmemFuzz else status
  if t.hasDictionary then status ||| fsNewOptAutodict else status

/-- The head of the loop that sends the dictionary. -/
def dictLoop (offset len : ℕ) : TargetPoint :=
  if len ≠ 0 then .writeDict offset len else .writeWelcome

/-- The word that the target writes next, and what follows. -/
def word (t : Target) : TargetPoint → Option (BitVec 32 × TargetPoint)
  | .writeVersion => some (version, .readReply)
  | .writeOptions => some (t.options, .writeMapSize)
  | .writeMapSize => some (t.mapSize, if t.hasDictionary then .writeDictLen else .writeWelcome)
  | .writeDictLen => some (BitVec.ofNat 32 t.dict.length, dictLoop 0 t.dict.length)
  | .writeWelcome => some (version, .ready)
  | _ => none

def onReply (status2 : BitVec 32) : TargetPoint :=
  if version ^^^ 0xffffffff#32 ≠ status2 then .exited else .writeOptions

end Target

/-! ## The fuzzer -/

/-- What the fuzzer knows of its fork server, whether `AFL_NO_AUTODICT` is set, and the
arguments of the calls of `add_extra_func` so far. -/
structure Fsrv where
  mapSize : BitVec 32
  realMapSize : BitVec 32 := 0
  supportShmemFuzz : Bool := false
  useShmemFuzz : Bool := false
  addExtraFunc : Bool := false
  ignoreAutodict : Bool := false
  extras : List Buffer := []

/-- Where the fuzzer stands in `afl_fsrv_start`. The end `oldModel` is the branch for targets
without this handshake, and after `shortRead` it goes on with a word it did not read. -/
inductive FsrvPoint
  | readStatus
  | writeReply (keep : BitVec 32)
  | readOptions (keep : BitVec 32)
  | readMapSize (keep status : BitVec 32)
  | readDictSize (keep : BitVec 32)
  | readDict (keep dictSize : BitVec 32) (dict : Buffer)
  | readStatus2 (keep : BitVec 32)
  | ready | oldModel | fatal | shortRead
  deriving DecidableEq

/-- The arguments of the calls that the loop over the received dictionary makes. -/
def dictEntries (dict : Buffer) (offset : ℕ) : List Buffer :=
  if h : offset < dict.length then
    let len := (dict[offset]).toNat
    if len + offset < dict.length then
      (dict.drop (offset + 1)).take len :: dictEntries dict (offset + (1 + len))
    else []
  else []
  termination_by dict.length - offset

namespace Fsrv

def onStatus (status : BitVec 32) : FsrvPoint :=
  if status &&& fsNewError = fsNewError then .fatal
  else if 0x41464c00#32 ≤ status ∧ status ≤ 0x41464cff#32 then
    let version := status - 0x41464c00#32
    if version = 0 then .fatal
    else if version < fsNewVersionMin ∨ fsNewVersionMax < version then .fatal
    else .writeReply status
  else .oldModel

/-- The head of the loop that receives the dictionary, and what follows the loop. -/
def dictLoop (f : Fsrv) (keep dictSize : BitVec 32) (dict : Buffer) : Fsrv × FsrvPoint :=
  if dict.length < dictSize.toNat then (f, .readDict keep dictSize dict)
  else if !f.ignoreAutodict && f.addExtraFunc then
    ({ f with extras := f.extras ++ dictEntries dict 0 }, .readStatus2 keep)
  else (f, .readStatus2 keep)

def onDictSize (f : Fsrv) (keep dictSize : BitVec 32) : Fsrv × FsrvPoint :=
  if dictSize < 2#32 ∨ 0xffffff#32 < dictSize then (f, .fatal) else f.dictLoop keep dictSize []

/-- The options behind the size of the map. -/
def onFlags (f : Fsrv) (keep status : BitVec 32) : Fsrv × FsrvPoint :=
  let next := if status &&& fsNewOptAutodict ≠ 0 then FsrvPoint.readDictSize keep
    else .readStatus2 keep
  if status &&& fsNewOptShdmemFuzz ≠ 0 then
    if f.supportShmemFuzz then ({ f with useShmemFuzz := true }, next) else (f, .fatal)
  else (f, next)

/-- A size rounded up to a multiple of 64. -/
def roundedSize (tmpMapSize : BitVec 32) : BitVec 32 :=
  if tmpMapSize % 64#32 ≠ 0 then ((tmpMapSize + 63#32) >>> 6) <<< 6 else tmpMapSize

/-- The size of the shared map, the default one unless another is set. -/
def sharedMap (f : Fsrv) : BitVec 32 := if f.mapSize = 0 then defaultMapSize else f.mapSize

def onMapSize (f : Fsrv) (keep status tmpMapSize : BitVec 32) : Fsrv × FsrvPoint :=
  let f := { f with mapSize := f.sharedMap, realMapSize := tmpMapSize }
  if f.mapSize < roundedSize tmpMapSize then (f, .fatal)
  else { f with mapSize := roundedSize tmpMapSize }.onFlags keep status

def onOptions (f : Fsrv) (keep status : BitVec 32) : Fsrv × FsrvPoint :=
  if status &&& fsNewOptMapsize ≠ 0 then (f, .readMapSize keep status)
  else { f with mapSize := defaultMapSize, realMapSize := defaultMapSize }.onFlags keep status

/-- What the fuzzer does with a word, unless it does not read one. -/
def onWord (f : Fsrv) (w : BitVec 32) : FsrvPoint → Option (Fsrv × FsrvPoint)
  | .readStatus => some (f, onStatus w)
  | .readOptions keep => some (f.onOptions keep w)
  | .readMapSize keep status => some (f.onMapSize keep status w)
  | .readDictSize keep => some (f.onDictSize keep w)
  | .readStatus2 keep => some (f, if w ≠ keep then .fatal else .ready)
  | _ => none

/-- The end of a read of less than a word. Some of the reads are checked. -/
def onShortRead : FsrvPoint → FsrvPoint
  | .readStatus | .readDictSize _ => .fatal
  | _ => .shortRead

end Fsrv

/-! ## Both together -/

/-- The two sides and the pipes between them, the status pipe to the fuzzer and the control
pipe to the target. -/
structure State (capacity : ℕ) where
  target : TargetPoint
  fsrv : Fsrv
  fsrvPoint : FsrvPoint
  st : Pipe capacity
  ctl : Pipe capacity

/-- The side that goes on. A piece of the dictionary has `n` bytes. -/
inductive Action
  | target (n : ℕ)
  | fsrv (n : ℕ)

variable {capacity : ℕ}

namespace State

def start (f : Fsrv) : State capacity :=
  ⟨.writeVersion, f, .readStatus, .empty, .empty⟩

def targetStep (t : Target) (s : State capacity) (n : ℕ) : Option (State capacity) :=
  match s.target with
  | .readReply => do
    let (reply, ctl) ← s.ctl.read 4
    let next := if reply.length ≠ 4 then .exited else Target.onReply (loadAt 4 reply 0)
    return { s with target := next, ctl }
  | .writeDict offset len =>
    if 1 ≤ n ∧ n ≤ len then do
      let st ← s.st.write ((t.dict.drop offset).take n)
      return { s with target := Target.dictLoop (offset + n) (len - n), st }
    else none
  | point => do
    let (w, next) ← t.word point
    let st ← s.st.write (wordBytes w)
    return { s with target := next, st }

def fsrvStep (s : State capacity) (n : ℕ) : Option (State capacity) :=
  match s.fsrvPoint with
  | .writeReply keep => do
    let ctl ← s.ctl.write (wordBytes (keep ^^^ 0xffffffff#32))
    return { s with fsrvPoint := .readOptions keep, ctl }
  | .readDict keep dictSize dict =>
    if 1 ≤ n ∧ n ≤ s.st.bytes.length ∧ dict.length + n ≤ dictSize.toNat then do
      let (piece, st) ← s.st.read n
      let (fsrv, next) := s.fsrv.dictLoop keep dictSize (dict ++ piece)
      return { s with fsrv, fsrvPoint := next, st }
    else none
  | point => do
    let (bytes, st) ← s.st.read 4
    let (fsrv, next) ← s.fsrv.onWord (loadAt 4 bytes 0) point
    if bytes.length ≠ 4 then return { s with fsrvPoint := Fsrv.onShortRead point, st }
    else return { s with fsrv, fsrvPoint := next, st }

def step (t : Target) (s : State capacity) : Action → Option (State capacity)
  | .target n => s.targetStep t n
  | .fsrv n => s.fsrvStep n

end State

end AflPlusPlus.ForkserverHandshake
