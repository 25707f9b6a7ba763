import AflPlusPlus.ByteBuffers
import AflPlusPlus.Limits
import AflPlusPlus.RingTables
import AflPlusPlus.TransitionSystems

/-!
# The record of a persistent child

With `AFL_PERSISTENT_RECORD` the fork server structure keeps the inputs that were written last in
a ring. When a child crashes or hangs, the ring is dumped, so that the inputs which the child has
executed can be replayed.
-/

namespace AflPlusPlus.PersistentRecord

open ByteBuffers RingTables TransitionSystems

/-- The settings of the fuzzer. A size of the ring below `2` is refused at the start. -/
structure Config where
  persistentRecord : ℕ
  two_le : 2 ≤ persistentRecord
  useShmemFuzz : Bool

/-- `persistent_record_data` and `persistent_record_len` at an index. -/
structure Cell where
  data : Option Buffer := none
  len : ℕ := 0

/-- What a dump writes for a cell. -/
def Cell.stored (c : Cell) : Option Buffer :=
  if c.len ≠ 0 then c.data.map (·.take c.len) else none

/-- What the fuzzer does to give the target an input. -/
inductive Write
  /-- `afl_fsrv_write_to_testcase` with the buffer that `write_to_testcase` hands to it. -/
  | testcase (buf : Buffer)
  /-- `write_with_gap`. Custom mutators may process what is left of the input. -/
  | withGap (mem : Buffer) (skipAt skipLen : ℕ) (postProcess : Option (Buffer → Buffer))
  /-- `write_to_testcase` when a custom mutator sends the input. -/
  | fuzzSend (buf : Buffer)

/-- The input without a gap. -/
def removeGap (mem : Buffer) (skipAt skipLen : ℕ) : Buffer :=
  mem.take skipAt ++ mem.drop (skipAt + skipLen)

/-- The input that the target finds after a write. -/
def Write.delivered (cfg : Config) : Write → Buffer
  | .testcase buf => if cfg.useShmemFuzz then buf.take maxFile else buf
  | .withGap mem skipAt skipLen postProcess =>
    match postProcess with
    | none => removeGap mem skipAt skipLen
    | some process => process (removeGap mem skipAt skipLen)
  | .fuzzSend buf => buf

/-- How a run ends. The child of a run without fault may be stopped, to go on with the next
input. -/
inductive Result
  | ok (stopped : Bool) | error | tmout | crash
  deriving DecidableEq

/-- A child has executed an input: the input, what has been written since the run before, and
whether the child is a new one with the process id of the child before. -/
structure Execution where
  input : Buffer
  writes : List Write
  reusedPid : Bool

/-- The files `RECORD:` of one dump. -/
structure Dump where
  result : Result
  cnt : ℕ
  inputs : List Buffer

structure State where
  /-- `persistent_record_idx`, `.._cnt`, `.._pid`. -/
  idx : ℕ := 0
  cnt : ℕ := 0
  pid : ℕ := 0
  cells : ℕ → Cell := fun _ => {}
  /-- What the target finds in the shared memory or in the file. -/
  input : Buffer := []
  /-- The child that is stopped. -/
  child : Option ℕ := none
  dumps : List Dump := []
  /-- What has been written since the last run. -/
  writes : List Write := []
  /-- What the last child has executed. -/
  executions : List Execution := []

/-- The write of an input. Only `afl_fsrv_write_to_testcase` records it. -/
def State.write (cfg : Config) (s : State) (w : Write) : State :=
  let s := { s with input := w.delivered cfg, writes := s.writes ++ [w] }
  match w with
  | .testcase buf =>
    { s with
      cells := Function.update s.cells s.idx { data := some buf, len := buf.length }
      idx := if cfg.persistentRecord ≤ s.idx + 1 then 0 else s.idx + 1 }
  | .withGap .. | .fuzzSend _ => s

/-- The index before that of the next record. -/
def State.lastIdx (cfg : Config) (s : State) : ℕ :=
  if s.idx = 0 then cfg.persistentRecord - 1 else s.idx - 1

/-- The end of a persistent loop: only the last record is kept for a new child. -/
def State.childStarts (cfg : Config) (s : State) (pid : ℕ) : State :=
  if s.pid ≠ pid then
    { s with
      pid := pid
      cells := fun j => if j = s.lastIdx cfg then s.cells j else { s.cells j with len := 0 } }
  else s

/-- The records that a dump writes, from the next index on. -/
def State.records (cfg : Config) (s : State) : List Buffer :=
  (List.range cfg.persistentRecord).filterMap fun i =>
    (s.cells ((i + s.idx) % cfg.persistentRecord)).stored

/-- The fork server answers with the process id of a child, a new one or the one that is stopped,
which executes the input. -/
def State.beginRun (cfg : Config) (s : State) (fresh : Bool) (pid : ℕ) : State :=
  let execution := ⟨s.input, s.writes, fresh && decide (s.pid = pid)⟩
  { s.childStarts cfg pid with
    writes := []
    executions := if fresh then [execution] else s.executions ++ [execution] }

/-- The run has ended. -/
def State.endRun (cfg : Config) (s : State) (pid : ℕ) (result : Result) : State :=
  let s := { s with child := if result = .ok true then some pid else none }
  match result with
  | .tmout | .crash =>
    { s with dumps := s.dumps ++ [⟨result, s.cnt, s.records cfg⟩], cnt := s.cnt + 1 }
  | .ok _ | .error => s

/-- `afl_fsrv_run_target`. -/
def State.runTarget (cfg : Config) (s : State) (fresh : Bool) (pid : ℕ) (result : Result) :
    Option State :=
  if pid = 0 ∨ fresh = false ∧ s.child ≠ some pid then none
  else some ((s.beginRun cfg fresh pid).endRun cfg pid result)

inductive Action
  | write (w : Write)
  /-- `afl_fsrv_start`: the fork server is started again, with a new ring. -/
  | fsrvStart
  | runTarget (fresh : Bool) (pid : ℕ) (result : Result)

/-- A step of the fuzzer. Runs of other fork servers read the input and change nothing here. -/
def State.step (cfg : Config) (s : State) : Action → Option State
  | .write w => some (s.write cfg w)
  | .fsrvStart =>
    some { s with cells := fun _ => {}, child := none, writes := [], executions := [] }
  | .runTarget fresh pid result => s.runTarget cfg fresh pid result

end AflPlusPlus.PersistentRecord
