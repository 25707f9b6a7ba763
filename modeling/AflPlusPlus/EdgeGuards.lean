import AflPlusPlus.TransitionSystems

/-!
# Edge identifiers

An instrumented module has a range of guards, one for each of its edges, all zero when the module
is loaded. `__sanitizer_cov_trace_pc_guard_init` numbers them from a counter that the runtime keeps
for the whole process, and the size of the coverage map follows the counter.
-/

namespace AflPlusPlus.EdgeGuards

open TransitionSystems

/-- `MAP_SIZE` of the configuration. -/
def defaultMapSize : ℕ := 2 ^ 16

/-- `MAP_INITIAL_SIZE` of the configuration. -/
def mapInitialSize : ℕ := 2097152

/-- A value of the `u32` counters after arithmetic. -/
def u32 (n : ℕ) : ℕ := n % 2 ^ 32

theorem u32_of_lt {n : ℕ} (h : n < 2 ^ 32) : u32 n = n := Nat.mod_eq_of_lt h

/-- What stays the same during the life of the process: its environment variables and the values
that the linker has put into the globals of the runtime. -/
structure Env where
  /-- `__AFL_SHM_ID` is set. -/
  shmId : Bool
  /-- `__AFL_CMPLOG_SHM_ID` is set. -/
  cmplogShmId : Bool := false
  /-- `AFL_MAP_SIZE`, as `atoi` gives it to an unsigned variable. -/
  mapSize : Option (BitVec 32) := none
  dumpMapSize : Bool := false
  disableInstrumentation : Bool := false
  /-- `AFL_INST_RATIO`. -/
  instRatio : Option (BitVec 32) := none
  onlyFsrv : Bool := false
  ignoreProblems : Bool := false
  ignoreProblemsCoverage : Bool := false
  /-- The value of `__afl_final_loc` after link-time instrumentation. -/
  finalLoc : BitVec 32 := 0
  /-- `__afl_map_addr` is not zero. -/
  mapAddr : Bool := false
  selectiveCoverageStartOff : Bool := false

/-- The value of `AFL_MAP_SIZE`, `0` without it. -/
def Env.mapSizeVal (env : Env) : ℕ := (env.mapSize.map BitVec.toNat).getD 0

/-- The requests to the system that may fail. -/
inductive Syscall
  | presetMap | attachMap | mapAtAddr | mallocDummy | mallocSelective | attachCmplog

/-- What `__afl_area_ptr` and `__afl_area_ptr_dummy` point to. -/
inductive Area
  | null | initial | other
  deriving DecidableEq

structure State where
  finalLoc : ℕ
  mapSize : ℕ := defaultMapSize
  firstFinalLoc : ℕ := 0
  /-- `__afl_already_initialized_shm`, `.._second`, `.._early` and `.._forkserver`. -/
  shm : Bool := false
  second : Bool := false
  early : Bool := false
  forkserver : Bool := false
  /-- `init_done` of `__afl_manual_init`. -/
  initDone : Bool := false
  selectiveCoverage : Bool := false
  area : Area := .initial
  dummy : Area := .initial
  /-- The counter for modules that are loaded after the fork server has started. -/
  offset : ℕ := 5
  /-- The guard ranges of the modules that have been loaded. -/
  modules : List (List ℕ) := []
  deriving DecidableEq

/-- A process before its first constructor. -/
def State.start (env : Env) (selectiveCoverage : Bool) : State :=
  { finalLoc := env.finalLoc.toNat, selectiveCoverage := selectiveCoverage }

/-! ## The coverage map -/

/-- The part of `__afl_map_shm` for a counter that is not zero. With `AFL_DUMP_MAP_SIZE` the
process prints the size and exits. -/
def State.sizeFromCounter (env : Env) (s : State) : Option State :=
  if s.finalLoc = 0 then some s
  else if env.dumpMapSize then none
  else some { s with mapSize := u32 (s.finalLoc + 1) }

/-- The size of the map of a process that has no shared map. -/
def State.ownMapSize (env : Env) (s : State) : ℕ :=
  if mapInitialSize < env.mapSizeVal ∧ s.finalLoc < env.mapSizeVal then env.mapSizeVal
  else if mapInitialSize < s.firstFinalLoc then s.firstFinalLoc
  else mapInitialSize

/-- The part of `__afl_map_shm` for a process that has no shared map. -/
def State.sizeWithoutShm (env : Env) (s : State) : State :=
  if env.shmId then s
  else
    let size := s.ownMapSize env
    { s with
      mapSize := size
      finalLoc := if mapInitialSize < size ∧ s.finalLoc < size then size else s.finalLoc }

/-- The part of `__afl_map_shm` that gets the memory of the map. -/
def State.attach (env : Env) (sys : Syscall → Bool) (s : State) : Option State :=
  if env.shmId then
    if defaultMapSize < s.mapSize ∧ env.mapSizeVal < defaultMapSize then none
    else if sys .attachMap then some { s with area := .other }
    else none
  else if s.area ≠ .other ∧ env.mapAddr then
    if sys .mapAtAddr then some { s with area := .other } else none
  else if mapInitialSize < s.finalLoc ∧ s.firstFinalLoc < s.finalLoc then
    if sys .mallocDummy then
      some { s with mapSize := u32 (s.finalLoc + 1), dummy := .other, area := .other }
    else none
  else some s

/-- The part of `__afl_map_shm` for `AFL_LLVM_SELECTIVE_COVERAGE`. -/
def State.selectArea (env : Env) (sys : Syscall → Bool) (s : State) : State :=
  if s.selectiveCoverage then
    let dummy :=
      if mapInitialSize < s.mapSize then (if sys .mallocSelective then .other else .null)
      else s.dummy
    { s with
      dummy := dummy
      area := if dummy ≠ .null ∧ env.selectiveCoverageStartOff then dummy else s.area
      selectiveCoverage := decide (dummy ≠ .null) }
  else s

/-- `__afl_map_shm`; `none` when the process exits. -/
def State.mapShm (env : Env) (sys : Syscall → Bool) (s : State) : Option State :=
  if s.shm then some s
  else do
    let s ← State.sizeFromCounter env
      { s with shm := true, area := if s.area = .null then s.dummy else s.area }
    let s ← (s.sizeWithoutShm env).attach env sys
    if env.cmplogShmId ∧ sys .attachCmplog = false then none
    else some (s.selectArea env sys)

/-- `__afl_unmap_shm`. -/
def State.unmapShm (s : State) : State :=
  if s.shm then { s with area := s.dummy, shm := false } else s

/-- `__afl_auto_second`. -/
def State.autoSecond (env : Env) (sys : Syscall → Bool) (s : State) : State :=
  if s.second then s
  else
    let s := { s with second := true }
    if env.disableInstrumentation then s
    else if mapInitialSize < s.finalLoc then
      let s := { s with firstFinalLoc := u32 (s.finalLoc + 1) }
      if sys .presetMap then { s with area := .other, dummy := .other } else s
    else s

/-- `__afl_auto_early`. -/
def State.autoEarly (env : Env) (sys : Syscall → Bool) (s : State) : Option State :=
  if s.early then some s
  else if env.disableInstrumentation then some { s with early := true }
  else State.mapShm env sys { s with early := true }

/-! ## Numbering a range of guards -/

/-- The loop over the guards of a range. It keeps a guard or skips it, and advances the counter
for those it keeps. -/
def numberGuards : List Bool → ℕ → List ℕ × ℕ
  | [], loc => ([], loc)
  | true :: keep, loc =>
    let rest := numberGuards keep (u32 (loc + 1))
    (u32 (loc + 1) :: rest.1, rest.2)
  | false :: keep, loc =>
    let rest := numberGuards keep loc
    (0 :: rest.1, rest.2)

/-- The loop over the guards of a module that is loaded after the fork server has started. -/
def numberLateGuards (finalLoc : ℕ) : List Bool → ℕ → List ℕ × ℕ
  | [], offset => ([], offset)
  | kept :: keep, offset =>
    let next := u32 (offset + 1)
    let rest := numberLateGuards finalLoc keep (if finalLoc ≤ next then 5 else next)
    ((if kept then offset else 0) :: rest.1, rest.2)

/-- `AFL_INST_RATIO`, `none` when the process aborts because of its value. -/
def Env.ratio (env : Env) : Option ℕ :=
  match env.instRatio with
  | none => some 100
  | some v => if v.toNat = 0 ∨ 100 < v.toNat then none else some v.toNat

/-- Which of the guards of a range are kept, given the value of `R(100)` at each. -/
def keptGuards (ratio : ℕ) (draws : ℕ → ℕ) (count : ℕ) : List Bool :=
  (List.range count).map fun i => ratio = 100 ∨ draws i < ratio

/-- The constructors of the runtime that a guard range calls before it is numbered. -/
def State.beforeGuards (env : Env) (sys : Syscall → Bool) (s : State) : Option State :=
  if env.dumpMapSize then some s else (s.autoSecond env sys).autoEarly env sys

/-- The counter from which a range is numbered. -/
def State.firstLoc (s : State) : ℕ := if s.finalLoc < 4 then 4 else s.finalLoc

/-- The map follows the counter after a range has been numbered. -/
def State.followCounter (env : Env) (sys : Syscall → Bool) (s : State) : Option State :=
  if s.shm then
    (if s.mapSize < s.finalLoc then s.unmapShm.mapShm env sys else some s).map fun s =>
      { s with mapSize := u32 (s.finalLoc + 1) }
  else some s

/-- `__sanitizer_cov_trace_pc_guard_init` for a range of guards, whose new values it returns with
the new state. -/
def State.traceGuardInit (env : Env) (sys : Syscall → Bool) (draws : ℕ → ℕ) (guards : List ℕ)
    (s : State) : Option (List ℕ × State) := do
  let s ← s.beforeGuards env sys
  match guards with
  | [] => some ([], s)
  | guard :: rest =>
    if guard ≠ 0 then some (guard :: rest, s)
    else
      let ratio ← env.ratio
      if s.forkserver then
        if env.ignoreProblems then
          let keep := (keptGuards ratio draws (rest.length + 1)).map
            fun kept => !env.ignoreProblemsCoverage && kept
          let late := numberLateGuards s.finalLoc keep s.offset
          some (late.1, { s with offset := late.2 })
        else none
      else
        let numbered := numberGuards (true :: keptGuards ratio draws rest.length) s.firstLoc
        let s ← State.followCounter env sys { s with finalLoc := numbered.2 }
        some (numbered.1, s)

/-! ## The process -/

inductive Action
  /-- A module with the given number of guards is loaded. -/
  | load (guards : ℕ)
  /-- `__sanitizer_cov_trace_pc_guard_init` is called for the range of a module. -/
  | guardInit (module : ℕ) (draws : ℕ → ℕ) (sys : Syscall → Bool)
  | autoSecond (sys : Syscall → Bool)
  | autoEarly (sys : Syscall → Bool)
  | manualInit

/-- `__afl_manual_init`. -/
def State.manualInit (env : Env) (s : State) : State :=
  let s := { s with
    initDone := s.initDone || env.disableInstrumentation
    area := if env.onlyFsrv ∨ (env.disableInstrumentation ∧ s.area = .null) then s.dummy
      else s.area }
  if s.initDone then s else { s with forkserver := true, initDone := true }

/-- A step of the process; `none` when it exits or the step is not possible. The constructors of
the runtime have priorities: the second preset comes before the early set-up of the map, and that
before the fork server. -/
def State.step (env : Env) (s : State) : Action → Option State
  | .load guards => some { s with modules := s.modules ++ [List.replicate guards 0] }
  | .guardInit module draws sys =>
    s.modules[module]?.bind fun guards =>
      (s.traceGuardInit env sys draws guards).map fun numbered =>
        { numbered.2 with modules := numbered.2.modules.set module numbered.1 }
  | .autoSecond sys => some (s.autoSecond env sys)
  | .autoEarly sys => if s.second then s.autoEarly env sys else none
  | .manualInit => if s.early then some (s.manualInit env) else none

/-- The guard values that stand for an edge. -/
def State.edgeIds (s : State) : List ℕ := s.modules.flatten.filter (· ≠ 0)

end AflPlusPlus.EdgeGuards
