import AflPlusPlus.TminTraces
import AflPlusPlus.TrimCase

/-!
# Minimizing a test case

`tmin_run_target` and `minimize` of `afl-tmin.c`. A step is an iteration of one of the loops,
which plans either to go on or to run the target on a changed copy of the buffer; the labels
are what custom mutators answer. The gotos are the functions that enter a loop.
-/

namespace AflPlusPlus.Tmin
open ByteWords CoverageMap ListBlocks
open Fuzzer (Fault)
open Trimming (nextPow2U32 trimStartSteps)

/-- What does not change while a test case is minimized: the target and its map, the modes, and the
checksum of the first run. `postProcess` is what the custom mutators make of a buffer, with no
result when one of them fails; then no test case is written, and the target finds what
`reread` says of the old one (the same in a file or in shared memory, the rest behind the
offset on `stdin`). -/
structure Config where
  mapSize : ℕ
  edgesOnly : Bool
  mask : Option Mem
  xxh3 : List Byte → BitVec 64
  target : List Byte → Fault × Mem
  hangMode : Bool
  crashMode : Bool
  exactMode : Bool
  origCksum : BitVec 64
  postProcess : List Byte → Option (List Byte)
  reread : List Byte → List Byte
  customTrimmers : ℕ
  delLenLimit : ℕ
  delLenLimit_pos : 0 < delLenLimit

namespace Config

def hash64 (cfg : Config) (traceBits : Mem) : BitVec 64 :=
  cfg.xxh3 ((List.range cfg.mapSize).map traceBits)

/-- What `tmin_run_target` says of a test case after the first run; there is no answer when the
program ends. -/
def verdict (cfg : Config) (testcase : List Byte) : Option Bool :=
  let (ret, traceBits) := cfg.target testcase
  if ret = .error then none
  else if cfg.hangMode then some (ret = .tmout)
  else
    let traceBits := applyMask cfg.mapSize cfg.mask
      (classifyCounts cfg.edgesOnly cfg.mapSize traceBits)
    if ret = .tmout then some false
    else if ret = .crash ∧ cfg.crashMode = true ∧ cfg.exactMode = false then some true
    else if ret = .crash ∧ cfg.crashMode = false then some false
    else if ret ≠ .crash ∧ cfg.crashMode = true then some false
    else if ret = .noinst then none
    else some (cfg.origCksum = cfg.hash64 traceBits)

/-- The test case that the target finds. -/
def writeTestcase (cfg : Config) (testcase mem : List Byte) : List Byte :=
  (cfg.postProcess mem).getD (cfg.reread testcase)

end Config

def tminSetMinSize : ℕ := 4

def tminSetSteps : ℕ := 128

/-- The byte `'0'`. -/
def digit0 : Byte := 0x30#8

/-- The loops of `minimize`, with the variables that only they use. -/
inductive Stage
  | customInit (count : ℕ)
  | customTrim (count curStep initialSteps : ℕ)
  | normalize (setLen setPos : ℕ)
  | deletion (delLen delPos : ℕ) (prevDel : Bool)
  | alphabet (alphaMap : Byte → ℕ) (i : ℕ)
  | character (tmpBuf : List Byte) (i : ℕ)
  | finished
  | exited

/-- `inData` are the first `in_len` bytes; `testcase` is the last test case written. -/
structure MinState where
  inData : List Byte
  testcase : List Byte
  curPass : ℕ
  changedAny : Bool
  trimmedSuccessfully : Bool
  stage : Stage

/-- What a custom mutator answers, or nothing. A library may use a buffer again, so that it writes
what it returns over the buffer that `in_data` points to. -/
inductive Action
  | initTrim (initialSteps : ℤ)
  | trim (retbuf : List Byte) (inPlace : Bool)
  | proceed

/-- What an iteration does: it goes on, or it runs the target and keeps or drops the change. -/
inductive Plan
  | move (next : MinState)
  | test (mem : List Byte) (kept dropped : MinState)

namespace MinState

/-- `next_del_blksize`. -/
def nextDelBlksize (s : MinState) (delLen : ℕ) : MinState :=
  { s with stage := .deletion (if delLen = 0 then 1 else delLen) 0 true }

/-- `next_pass`. -/
def nextPass (s : MinState) : MinState :=
  { s with curPass := s.curPass + 1, changedAny := false }.nextDelBlksize
    (nextPow2U32 (s.inData.length / trimStartSteps))

/-- What follows the custom mutators. -/
def enterNormalize (s : MinState) : MinState :=
  let setLen := max (nextPow2U32 (s.inData.length / tminSetSteps)) tminSetMinSize
  if s.inData.length ≤ 1 then { s with stage := .finished }
  else { s with stage := .normalize setLen 0 }

def start (cfg : Config) (input testcase : List Byte) : MinState where
  inData := input
  testcase := testcase
  curPass := 0
  changedAny := false
  trimmedSuccessfully := false
  stage := .customInit cfg.customTrimmers

/-- The first `in_len` bytes at `in_data` after a custom trimmer returned `retbuf`. -/
def afterTrim (s : MinState) (retbuf : List Byte) (inPlace : Bool) : List Byte :=
  if inPlace then retbuf.take s.inData.length ++ s.inData.drop retbuf.length else s.inData

/-- A step of a custom trimmer that proposes `retbuf`. -/
def planTrim (s : MinState) (count curStep initialSteps : ℕ) (retbuf : List Byte)
    (inPlace : Bool) : Plan :=
  let next := { s with
    inData := s.afterTrim retbuf inPlace
    stage := .customTrim count (curStep + 1) initialSteps }
  if s.inData.length ≤ retbuf.length then .move next
  else .test retbuf { next with inData := retbuf, trimmedSuccessfully := true } next

/-- Block normalization. -/
def planNormalize (s : MinState) (setLen setPos : ℕ) : Plan :=
  if setPos < s.inData.length then
    let useLen := min setLen (s.inData.length - setPos)
    let next := { s with stage := .normalize setLen (setPos + setLen) }
    if ((s.inData.drop setPos).take useLen).all (· == digit0) then .move next
    else
      let tmpBuf := fillBlock setPos useLen digit0 s.inData
      .test tmpBuf { next with inData := tmpBuf } next
  else .move s.nextPass

/-- Block deletion. -/
def planDeletion (cfg : Config) (s : MinState) (delLen delPos : ℕ) (prevDel : Bool) : Plan :=
  if delPos < s.inData.length then
    let tailLen := s.inData.length - delPos - delLen
    if prevDel = false ∧ 0 < tailLen ∧ (s.inData.drop (delPos - delLen)).take delLen =
        (s.inData.drop delPos).take delLen then
      .move { s with stage := .deletion delLen (delPos + delLen) prevDel }
    else
      let tmpBuf := s.inData.take delPos ++ (s.inData.drop (delPos + delLen)).take tailLen
      .test tmpBuf
        { s with inData := tmpBuf, changedAny := true, stage := .deletion delLen delPos true }
        { s with stage := .deletion delLen (delPos + delLen) false }
  else if cfg.delLenLimit < delLen ∧ 1 ≤ s.inData.length then .move (s.nextDelBlksize (delLen / 2))
  else if 1 < s.curPass ∧ s.changedAny = false then .move { s with stage := .finished }
  else .move { s with stage := .alphabet (fun b => s.inData.count b) 0 }

/-- Alphabet minimization. -/
def planAlphabet (s : MinState) (alphaMap : Byte → ℕ) (i : ℕ) : Plan :=
  if i < 256 then
    let symbol := BitVec.ofNat 8 i
    let next := { s with stage := .alphabet alphaMap (i + 1) }
    if symbol = digit0 ∨ alphaMap symbol = 0 then .move next
    else
      let tmpBuf := s.inData.map fun b => if b = symbol then digit0 else b
      .test tmpBuf { next with inData := tmpBuf, changedAny := true } next
  else .move { s with stage := .character s.inData 0 }

/-- Character minimization. -/
def planCharacter (s : MinState) (tmpBuf : List Byte) (i : ℕ) : Plan :=
  if i < s.inData.length then
    let orig := tmpBuf.getD i 0
    if orig = digit0 then .move { s with stage := .character tmpBuf (i + 1) }
    else
      let changed := tmpBuf.set i digit0
      .test changed
        { s with
          inData := s.inData.set i digit0
          changedAny := true
          stage := .character changed (i + 1) }
        { s with stage := .character (changed.set i orig) (i + 1) }
  else if s.changedAny then .move s.nextPass
  else .move { s with stage := .finished }

/-- An iteration of the loop that `minimize` is in. -/
def plan (cfg : Config) (s : MinState) : Action → Option Plan
  | .initTrim initialSteps =>
    match s.stage with
    | .customInit (count + 1) =>
      -- the `continue` goes to the loop of `LIST_FOREACH`, before its `el_box = next`
      if initialSteps ≤ 0 then some (.move s)
      else some (.move { s with stage := .customTrim count 0 initialSteps.toNat })
    | _ => none
  | .trim retbuf inPlace =>
    match s.stage with
    | .customTrim count curStep initialSteps =>
      if curStep < initialSteps then some (s.planTrim count curStep initialSteps retbuf inPlace)
      else none
    | _ => none
  | .proceed =>
    match s.stage with
    | .customInit 0 => some (.move s.enterNormalize)
    | .customTrim count curStep initialSteps =>
      if curStep < initialSteps then none
      else if s.trimmedSuccessfully then some (.move { s with stage := .finished })
      else some (.move { s with stage := .customInit count })
    | .normalize setLen setPos => some (s.planNormalize setLen setPos)
    | .deletion delLen delPos prevDel => some (s.planDeletion cfg delLen delPos prevDel)
    | .alphabet alphaMap i => some (s.planAlphabet alphaMap i)
    | .character tmpBuf i => some (s.planCharacter tmpBuf i)
    | _ => none

/-- `tmin_run_target(fsrv, mem, len, 0)` and what follows from its answer. -/
def runTarget (cfg : Config) (s : MinState) (mem : List Byte) (kept dropped : MinState) :
    MinState :=
  let testcase := cfg.writeTestcase s.testcase mem
  match cfg.verdict testcase with
  | none => { dropped with testcase := testcase, stage := .exited }
  | some true => { kept with testcase := testcase }
  | some false => { dropped with testcase := testcase }

def step (cfg : Config) (s : MinState) (a : Action) : Option MinState :=
  (s.plan cfg a).map fun
    | .move next => next
    | .test mem kept dropped => s.runTarget cfg mem kept dropped

end MinState

end AflPlusPlus.Tmin
