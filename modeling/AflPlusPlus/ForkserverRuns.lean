import AflPlusPlus.Calibration
import AflPlusPlus.TransitionSystems

/-!
# Running the target through the fork server

For every run the fuzzer sends a word, which tells the target whether it killed the child of
the run before, and receives the process id of the child and its wait status. The loop of the
target forks a child, or resumes one that stopped, and waits for it. The child goes on by
itself: it stops, exits or crashes, and dies some time after it has been killed. The fuzzer
kills it when it has waited too long, which is known to the target from the next request only.

Words have the sender's knowledge attached to them, the child and the number of the request,
which the reader does not see.
-/

namespace AflPlusPlus.ForkserverRuns
open Fuzzer (Fault)

/-! ## Children -/

/-- The number of a signal. -/
structure Signal where
  number : ℕ
  pos : 0 < number
  le : number ≤ 64

def sigkill : Signal := ⟨9, by decide, by decide⟩

inductive Death
  | exited (code : Fin 256)
  | signaled (sig : Signal) (core : Bool)

def Death.status : Death → ℤ
  | .exited code => code * 0x100
  | .signaled sig core => sig.number + if core then 0x80 else 0

def stoppedStatus (sig : Signal) : ℤ := sig.number * 0x100 + 0x7f

def wIfStopped (status : ℤ) : Bool := status % 0x100 = 0x7f

def wTermSig (status : ℤ) : ℕ := (status % 0x80).toNat

def wIfSignaled (status : ℤ) : Bool := 0 < wTermSig status ∧ wTermSig status < 0x7f

def wExitStatus (status : ℤ) : ℕ := (status / 0x100 % 0x100).toNat

/-- A stop is reported to a waiting parent once. -/
inductive ProcState
  | running
  | stopped (sig : Signal) (reported : Bool)
  | dead (death : Death)

/-- A process that its parent has not reaped: which of all children it is, and whether
`SIGKILL` has been sent to it. -/
structure Proc where
  child : ℕ
  state : ProcState
  killed : Bool

/-- What a child does by itself. It dies sooner or later once it is killed. -/
inductive ChildEvent
  | stops (sig : Signal)
  | exits (code : Fin 256)
  | crashes (sig : Signal) (core : Bool)
  | dies

namespace Proc

def step (p : Proc) : ChildEvent → Option Proc
  | .stops sig => match p.state with
    | .running => some { p with state := .stopped sig false }
    | _ => none
  | .exits code => match p.state with
    | .running => some { p with state := .dead (.exited code) }
    | _ => none
  | .crashes sig core => match p.state with
    | .running => some { p with state := .dead (.signaled sig core) }
    | _ => none
  | .dies => match p.killed, p.state with
    | true, .running => some { p with state := .dead (.signaled sigkill false) }
    | true, .stopped _ _ => some { p with state := .dead (.signaled sigkill false) }
    | _, _ => none

/-- What `waitpid` returns, and what is left of the process. -/
def wait (p : Proc) (untraced : Bool) : Option (ℤ × Option Proc) :=
  match p.state with
  | .running => none
  | .stopped sig reported =>
    if untraced && !reported then
      some (stoppedStatus sig, some { p with state := .stopped sig true })
    else none
  | .dead death => some (death.status, none)

/-- The effect of `SIGCONT`. -/
def cont (p : Proc) : Proc :=
  match p.state with
  | .stopped _ _ => { p with state := .running }
  | _ => p

end Proc

/-! ## Words in the status pipe -/

inductive Kind
  | pid | status
  deriving DecidableEq

structure Message where
  word : ℤ
  kind : Kind
  child : Option ℕ
  request : ℕ

/-! ## The fuzzer -/

/-- Where the fuzzer stands in `afl_fsrv_run_target`. -/
inductive FsrvPoint
  | idle | readPid | select
  | kill (execMs : ℕ)
  | readStatus (execMs : ℕ)
  | report (execMs : ℕ)
  | fatal
  deriving DecidableEq

structure Fsrv where
  point : FsrvPoint := .idle
  timeout : ℕ := 0
  lastRunTimedOut : ℕ := 0
  childPid : ℤ := -1
  childStatus : ℤ := 0
  totalExecs : ℕ := 0
  lastKillSignal : ℕ := 0
  lastExitCode : ℕ := 0
  result : Option Fault := none

/-- The settings of the fuzzer that decide what counts as a crash, and whether the target waits
for stopped children. -/
structure Settings where
  isPersistent : Bool := false
  msan : Bool := false
  lsan : Bool := false
  crashExitcode : Option ℕ := none

def msanError : ℕ := 86
def lsanError : ℕ := 23

namespace Fsrv

/-- The return value of `read_s32_timed` when there was something to read. -/
def execMs (f : Fsrv) (elapsed : ℕ) : ℕ := max 1 (min f.timeout elapsed)

/-- What follows `read_s32_timed`. -/
def afterRead (f : Fsrv) (execMs : ℕ) : FsrvPoint :=
  if f.timeout < execMs then .kill execMs else .report execMs

def crashed (cfg : Settings) (status : ℤ) : Bool :=
  wIfSignaled status || cfg.msan && wExitStatus status = msanError ||
    cfg.lsan && wExitStatus status = lsanError || cfg.crashExitcode = some (wExitStatus status)

/-- The end of a run. The trace has been marked by a target that could not be executed. -/
def reported (cfg : Settings) (f : Fsrv) (execFail : Bool) : Fsrv :=
  let f := { f with
    point := .idle
    childPid := if wIfStopped f.childStatus then f.childPid else -1
    totalExecs := f.totalExecs + 1 }
  if execFail then { f with result := some .error }
  else if f.lastRunTimedOut ≠ 0 then
    { f with lastKillSignal := sigkill.number, result := some .tmout }
  else if crashed cfg f.childStatus then
    let signaled := wIfSignaled f.childStatus
    { f with
      lastKillSignal := if signaled then wTermSig f.childStatus else 0
      lastExitCode := if signaled then 0 else wExitStatus f.childStatus
      result := some .crash }
  else { f with result := some .ok }

end Fsrv

/-! ## The target -/

/-- Where the target stands in the loop of `__afl_start_forkserver`. -/
inductive TargetPoint
  | readRequest | reap | forkOrResume | writePid | waitChild
  | writeStatus (status : ℤ) (child : ℕ)
  | exited

structure Target where
  point : TargetPoint := .readRequest
  wasKilled : ℕ := 0
  childStopped : Bool := false
  childPid : ℕ := 0

/-! ## Both, the processes and the pipes -/

inductive Event
  | killed (child : ℕ)
  | resumed (child : ℕ)
  | named (child : ℕ)

/-- The fuzzer, the target, the pipes between them and the process table. What follows is the
history: the numbers of children, of requests that the fuzzer has made, that the target has
read and that the fuzzer has completed, which child served each request, the words that the
fuzzer has read for each of them, and the order of the events that concern single children. -/
structure State where
  fsrv : Fsrv := {}
  target : Target := {}
  ctl : List ℕ := []
  st : List Message := []
  procs : ℕ → Option Proc := fun _ => none
  forked : ℕ := 0
  requests : ℕ := 0
  accepted : ℕ := 0
  completed : ℕ := 0
  served : ℕ → Option ℕ := fun _ => none
  received : ℕ → List Message := fun _ => []
  log : List Event := []

inductive Action
  | request (timeout : ℕ)
  | readPid
  | select (elapsed : ℕ)
  | selectTimeout
  | kill
  | readStatus
  | report (execFail : Bool)
  | readRequest
  | reap
  | fork (pid : ℕ)
  | resume
  | writePid
  | waitChild
  | writeStatus
  | child (pid : ℕ) (event : ChildEvent)

namespace State

/-- A word is read for the request that is being made. -/
def receive (s : State) (m : Message) (st : List Message) : State :=
  { s with
    st
    received := Function.update s.received s.completed (s.received s.completed ++ [m]) }

def setProc (s : State) (pid : ℕ) (p : Option Proc) : State :=
  { s with procs := Function.update s.procs pid p }

/-- The child serves the request that the target has read last. -/
def serve (s : State) (child : ℕ) : State :=
  { s with served := Function.update s.served (s.accepted - 1) (some child) }

/-! ### Steps of the fuzzer -/

/-- A run is requested, with a timeout that no caller sets to zero. -/
def request (s : State) (timeout : ℕ) : Option State :=
  if s.fsrv.point = .idle ∧ 0 < timeout ∧ timeout < 2 ^ 32 then
    some { s with
      ctl := s.ctl ++ [s.fsrv.lastRunTimedOut]
      fsrv := { s.fsrv with point := .readPid, timeout, lastRunTimedOut := 0 }
      requests := s.requests + 1 }
  else none

def readPid (s : State) : Option State :=
  match s.fsrv.point, s.st with
  | .readPid, m :: st =>
    let next := if m.word ≤ 0 then FsrvPoint.fatal else .select
    some { s.receive m st with
      fsrv := { s.fsrv with childPid := m.word, point := next }
      log := s.log ++ m.child.toList.map .named }
  | _, _ => none

def select (s : State) (elapsed : ℕ) : Option State :=
  match s.fsrv.point, s.st with
  | .select, m :: st =>
    let f := { s.fsrv with childStatus := m.word }
    some { s.receive m st with fsrv := { f with point := f.afterRead (f.execMs elapsed) } }
  | _, _ => none

/-- The status pipe stays empty until the timeout. -/
def selectTimeout (s : State) : Option State :=
  match s.fsrv.point, s.st with
  | .select, [] =>
    let f := { s.fsrv with childStatus := -1 }
    some { s with fsrv := { f with point := f.afterRead ((f.timeout + 1) % 2 ^ 32) } }
  | _, _ => none

/-- `SIGKILL` is sent to the process with the id, if there still is one. -/
def kill (s : State) : Option State :=
  match s.fsrv.point with
  | .kill execMs =>
    let fsrv := { s.fsrv with
      childPid := if 0 < s.fsrv.childPid then -1 else s.fsrv.childPid
      lastRunTimedOut := 1
      point := .readStatus execMs }
    if 0 < s.fsrv.childPid then
      match s.procs s.fsrv.childPid.toNat with
      | some p =>
        some { s.setProc s.fsrv.childPid.toNat (some { p with killed := true }) with
          fsrv
          log := s.log ++ [.killed p.child] }
      | none => some { s with fsrv }
    else some { s with fsrv }
  | _ => none

def readStatus (s : State) : Option State :=
  match s.fsrv.point, s.st with
  | .readStatus execMs, m :: st =>
    some { s.receive m st with
      fsrv := { s.fsrv with childStatus := m.word, point := .report execMs } }
  | _, _ => none

def report (cfg : Settings) (s : State) (execFail : Bool) : Option State :=
  match s.fsrv.point with
  | .report execMs =>
    if execMs = 0 then some { s with fsrv := { s.fsrv with point := .fatal } }
    else some { s with
      fsrv := s.fsrv.reported cfg execFail
      completed := s.completed + 1 }
  | _ => none

/-! ### Steps of the target -/

def readRequest (s : State) : Option State :=
  match s.target.point, s.ctl with
  | .readRequest, wasKilled :: ctl =>
    let target := { s.target with wasKilled }
    if s.target.childStopped ∧ wasKilled ≠ 0 then
      some { s with
        target := { target with childStopped := false, point := .reap }
        ctl
        accepted := s.accepted + 1 }
    else some { s with
      target := { target with point := .forkOrResume }
      ctl
      accepted := s.accepted + 1 }
  | _, _ => none

/-- `waitpid(child_pid, &status, 0)`, which fails when there is no such child. -/
def reap (s : State) : Option State :=
  match s.target.point, s.procs s.target.childPid with
  | .reap, none => some { s with target := { s.target with point := .exited } }
  | .reap, some p => do
    let (_, left) ← p.wait false
    return { s.setProc s.target.childPid left with
      target := { s.target with point := .forkOrResume } }
  | _, _ => none

/-- The child gets an id that no process has. -/
def fork (s : State) (pid : ℕ) : Option State :=
  match s.target.point with
  | .forkOrResume =>
    if !s.target.childStopped ∧ 0 < pid ∧ (s.procs pid).isNone then
      some { (s.serve s.forked).setProc pid (some ⟨s.forked, .running, false⟩) with
        target := { s.target with childPid := pid, point := .writePid }
        forked := s.forked + 1 }
    else none
  | _ => none

def resume (s : State) : Option State :=
  match s.target.point with
  | .forkOrResume =>
    if s.target.childStopped then
      let target := { s.target with childStopped := false, point := .writePid }
      match s.procs s.target.childPid with
      | some p =>
        some { (s.serve p.child).setProc s.target.childPid (some p.cont) with
          target
          log := s.log ++ [.resumed p.child] }
      | none => some { s with target }
    else none
  | _ => none

/-- The word is about the process that has the id. -/
def writePid (s : State) : Option State :=
  match s.target.point with
  | .writePid =>
    let child := (s.procs s.target.childPid).map Proc.child
    some { s with
      target := { s.target with point := .waitChild }
      st := s.st ++ [⟨s.target.childPid, .pid, child, s.accepted - 1⟩] }
  | _ => none

/-- `waitpid(child_pid, &status, is_persistent ? WUNTRACED : 0)`. -/
def waitChild (cfg : Settings) (s : State) : Option State :=
  match s.target.point, s.procs s.target.childPid with
  | .waitChild, none => some { s with target := { s.target with point := .exited } }
  | .waitChild, some p => do
    let (status, left) ← p.wait cfg.isPersistent
    return { s.setProc s.target.childPid left with
      target := { s.target with
        childStopped := s.target.childStopped || wIfStopped status
        point := .writeStatus status p.child } }
  | _, _ => none

def writeStatus (s : State) : Option State :=
  match s.target.point with
  | .writeStatus status child =>
    some { s with
      target := { s.target with point := .readRequest }
      st := s.st ++ [⟨status, .status, child, s.accepted - 1⟩] }
  | _ => none

/-! ### All steps -/

def childStep (s : State) (pid : ℕ) (event : ChildEvent) : Option State := do
  let p ← s.procs pid
  let p ← p.step event
  return s.setProc pid (some p)

def step (cfg : Settings) (s : State) : Action → Option State
  | .request timeout => s.request timeout
  | .readPid => s.readPid
  | .select elapsed => s.select elapsed
  | .selectTimeout => s.selectTimeout
  | .kill => s.kill
  | .readStatus => s.readStatus
  | .report execFail => s.report cfg execFail
  | .readRequest => s.readRequest
  | .reap => s.reap
  | .fork pid => s.fork pid
  | .resume => s.resume
  | .writePid => s.writePid
  | .waitChild => s.waitChild cfg
  | .writeStatus => s.writeStatus
  | .child pid event => s.childStep pid event

end State

end AflPlusPlus.ForkserverRuns
