import AflPlusPlus.BlockTexts
import AflPlusPlus.CkAlloc
import AflPlusPlus.SeparatedTexts
import AflPlusPlus.TextLines

/-!
# Suggestions for misspelled environment variables

`print_suggested_envs` looks for known variables that are close to a name: the name as it is, then
the variables without one of their segments, then the name without one of its segments.
-/

namespace AflPlusPlus.SuggestedEnvs
open ByteWords CheckedBlocks BlockTexts CkAlloc SeparatedTexts TextLines

def ofString (s : String) : List Byte := s.toList.map chr

/-- The table of `envs.h`, with `ALWAYS_COLORED` as in `config.h`. -/
def aflEnvironmentVariables : List (List Byte) := [
    "AFL_ALIGNED_ALLOC", "AFL_ALLOW_TMP", "AFL_ANALYZE_HEX", "AFL_AS", "AFL_AUTORESUME",
    "AFL_AS_FORCE_INSTRUMENT", "AFL_BENCH_JUST_ONE", "AFL_BENCH_UNTIL_CRASH", "AFL_CAL_FAST",
    "AFL_CC", "AFL_CC_COMPILER", "AFL_CMIN_ALLOW_ANY", "AFL_CMIN_CRASHES_ONLY",
    "AFL_CMPLOG_ONLY_NEW", "AFL_CMPLOG_DEBUG", "AFL_CTX_K", "AFL_LLVM_DONTWRITEID",
    "AFL_PC_FILTER", "AFL_PC_FILTER_FILE", "AFL_CODE_END", "AFL_CODE_START",
    "AFL_COMPCOV_BINNAME", "AFL_DUMP_CYCLOMATIC_COMPLEXITY", "AFL_CMPLOG_MAX_LEN",
    "AFL_COMPCOV_LEVEL", "AFL_CRASH_EXITCODE", "AFL_CRASHING_SEEDS_AS_NEW_CRASH",
    "AFL_CUSTOM_MUTATOR_LIBRARY", "AFL_CUSTOM_MUTATOR_ONLY", "AFL_CUSTOM_MUTATOR_LATE_SEND",
    "AFL_CUSTOM_INFO_PROGRAM", "AFL_CUSTOM_INFO_PROGRAM_ARGV", "AFL_CUSTOM_INFO_PROGRAM_INPUT",
    "AFL_CUSTOM_INFO_OUT", "AFL_CXX", "AFL_CYCLE_SCHEDULES", "AFL_DEBUG", "AFL_DEBUG_CHILD",
    "AFL_DEBUG_GDB", "AFL_DEBUG_UNICORN", "AFL_DISABLE_REDUNDANT", "AFL_NO_REDUNDANT",
    "AFL_DISABLE_TRIM", "AFL_NO_TRIM", "AFL_DISABLE_LLVM_INSTRUMENTATION", "AFL_DONT_OPTIMIZE",
    "AFL_DRIVER_STDERR_DUPLICATE_FILENAME", "AFL_DUMB_FORKSRV", "AFL_EARLY_FORKSERVER",
    "AFL_ENTRYPOINT", "AFL_EXIT_WHEN_DONE", "AFL_EXIT_ON_TIME", "AFL_EXIT_ON_SEED_ISSUES",
    "AFL_FAST_CAL", "AFL_FINAL_SYNC", "AFL_FORCE_UI", "AFL_FRIDA_DEBUG_MAPS",
    "AFL_FRIDA_DRIVER_NO_HOOK", "AFL_FRIDA_EXCLUDE_RANGES", "AFL_FRIDA_INST_CACHE_SIZE",
    "AFL_FRIDA_INST_COVERAGE_ABSOLUTE", "AFL_FRIDA_INST_COVERAGE_FILE",
    "AFL_FRIDA_INST_DEBUG_FILE", "AFL_FRIDA_INST_INSN", "AFL_FRIDA_INST_JIT",
    "AFL_FRIDA_INST_NO_CACHE", "AFL_FRIDA_INST_NO_DYNAMIC_LOAD", "AFL_FRIDA_INST_NO_OPTIMIZE",
    "AFL_FRIDA_INST_NO_PREFETCH", "AFL_FRIDA_INST_NO_PREFETCH_BACKPATCH",
    "AFL_FRIDA_INST_NO_SUPPRESS", "AFL_FRIDA_INST_RANGES", "AFL_FRIDA_INST_REGS_FILE",
    "AFL_FRIDA_INST_SEED", "AFL_FRIDA_INST_TRACE", "AFL_FRIDA_INST_TRACE_UNIQUE",
    "AFL_FRIDA_INST_UNSTABLE_COVERAGE_FILE", "AFL_FRIDA_JS_SCRIPT", "AFL_FRIDA_OUTPUT_STDOUT",
    "AFL_FRIDA_OUTPUT_STDERR", "AFL_FRIDA_PERSISTENT_ADDR", "AFL_FRIDA_PERSISTENT_CNT",
    "AFL_FRIDA_PERSISTENT_DEBUG", "AFL_FRIDA_PERSISTENT_HOOK", "AFL_FRIDA_PERSISTENT_RET",
    "AFL_FRIDA_STALKER_ADJACENT_BLOCKS", "AFL_FRIDA_STALKER_IC_ENTRIES",
    "AFL_FRIDA_STALKER_NO_BACKPATCH", "AFL_FRIDA_STATS_FILE", "AFL_FRIDA_STATS_INTERVAL",
    "AFL_FRIDA_TRACEABLE", "AFL_FRIDA_VERBOSE", "AFL_OLD_FORKSERVER", "AFL_OPT_LEVEL",
    "AFL_FUZZER_ARGS", "AFL_FUZZER_STATS_UPDATE_INTERVAL", "AFL_GDB", "AFL_GCC_ALLOWLIST",
    "AFL_GCC_DENYLIST", "AFL_GCC_BLOCKLIST", "AFL_GCC_DISABLE_VERSION_CHECK",
    "AFL_GCC_INSTRUMENT_FILE", "AFL_GCC_OUT_OF_LINE", "AFL_GCC_SKIP_NEVERZERO", "AFL_GCJ",
    "AFL_HANG_TMOUT", "AFL_FORKSRV_INIT_TMOUT", "AFL_HARDEN",
    "AFL_I_DONT_CARE_ABOUT_MISSING_CRASHES", "AFL_IGNORE_PROBLEMS",
    "AFL_IGNORE_PROBLEMS_COVERAGE", "AFL_IGNORE_SEED_PROBLEMS", "AFL_IGNORE_TIMEOUTS",
    "AFL_IGNORE_UNKNOWN_ENVS", "AFL_IMPORT_FIRST", "AFL_INPUT_LEN_MIN", "AFL_INPUT_LEN_MAX",
    "AFL_INST_LIBS", "AFL_INST_RATIO", "AFL_KEEP_TIMEOUTS", "AFL_KILL_SIGNAL",
    "AFL_FORK_SERVER_KILL_SIGNAL", "AFL_KEEP_TRACES", "AFL_KEEP_ASSEMBLY", "AFL_LD_HARD_FAIL",
    "AFL_LD_LIMIT_MB", "AFL_LD_NO_CALLOC_OVER", "AFL_LD_PASSTHROUGH", "AFL_REAL_LD",
    "AFL_LD_PRELOAD", "AFL_LD_VERBOSE", "AFL_LLVM_ALLOWLIST", "AFL_LLVM_DENYLIST",
    "AFL_LLVM_BLOCKLIST", "AFL_CMPLOG", "AFL_LLVM_CMPLOG", "AFL_GCC_CMPLOG", "AFL_LLVM_INSTRIM",
    "AFL_LLVM_CALLER", "AFL_LLVM_CTX", "AFL_LLVM_LTO_CALLER", "AFL_LLVM_LTO_CTX",
    "AFL_LLVM_LTO_CALLER_DEPTH", "AFL_LLVM_LTO_CTX_DEPTH", "AFL_LLVM_CALLER_DEPTH",
    "AFL_LLVM_CTX_DEPTH", "AFL_LLVM_CTX_K", "AFL_LLVM_DICT2FILE", "AFL_LLVM_DICT2FILE_NO_MAIN",
    "AFL_LLVM_DOCUMENT_IDS", "AFL_LLVM_INSTRIM_LOOPHEAD", "AFL_LLVM_INSTRUMENT",
    "AFL_LLVM_LTO_AUTODICTIONARY", "AFL_LLVM_AUTODICTIONARY", "AFL_LLVM_SKIPSINGLEBLOCK",
    "AFL_LLVM_INJECTIONS_ALL", "AFL_LLVM_INJECTIONS_SQL", "AFL_LLVM_INJECTIONS_LDAP",
    "AFL_LLVM_INJECTIONS_XSS", "AFL_LLVM_INSTRIM_SKIPSINGLEBLOCK", "AFL_LLVM_LAF_SPLIT_COMPARES",
    "AFL_LLVM_LAF_SPLIT_COMPARES_BITW", "AFL_LLVM_LAF_SPLIT_FLOATS",
    "AFL_LLVM_LAF_SPLIT_SWITCHES", "AFL_LLVM_LAF_ALL", "AFL_LLVM_LAF_TRANSFORM_COMPARES",
    "AFL_LLVM_MAP_ADDR", "AFL_LLVM_MAP_DYNAMIC", "AFL_LLVM_NGRAM_SIZE", "AFL_NGRAM_SIZE",
    "AFL_LLVM_NO_RPATH", "AFL_LLVM_NOT_ZERO", "AFL_LLVM_INSTRUMENT_FILE",
    "AFL_LLVM_THREADSAFE_INST", "AFL_LLVM_SKIP_NEVERZERO", "AFL_NO_AFFINITY", "AFL_TRY_AFFINITY",
    "AFL_LLVM_LTO_DONTWRITEID", "AFL_LLVM_LTO_SKIPINIT", "AFL_LLVM_LTO_STARTID",
    "AFL_FUZZER_LOOPCOUNT", "AFL_NO_ARITH", "AFL_NO_AUTODICT", "AFL_NO_BUILTIN", "AFL_NO_CPU_RED",
    "AFL_NO_SYNC", "AFL_NO_CFG_FUZZING", "AFL_NO_CRASH_README", "AFL_NO_FORKSRV", "AFL_NO_UI",
    "AFL_NO_PYTHON", "AFL_NO_STARTUP_CALIBRATION", "AFL_NO_WARN_INSTABILITY", "AFL_UNTRACER_FILE",
    "AFL_LLVM_USE_TRACE_PC", "AFL_MAP_SIZE", "AFL_MAPSIZE", "AFL_MAX_DET_EXTRAS", "AFL_NO_X86",
    "AFL_NOOPT", "AFL_NYX_AUX_SIZE", "AFL_NYX_DISABLE_SNAPSHOT_MODE",
    "AFL_NYX_HANDLE_INVALID_WRITE", "AFL_NYX_LOG", "AFL_NYX_REUSE_SNAPSHOT", "AFL_PASSTHROUGH",
    "AFL_PATH", "AFL_PERFORMANCE_FILE", "AFL_PERSISTENT_RECORD", "AFL_POST_PROCESS_KEEP_ORIGINAL",
    "AFL_PRELOAD", "AFL_TARGET_ENV", "AFL_PYTHON_MODULE", "AFL_QEMU_CUSTOM_BIN",
    "AFL_QEMU_COMPCOV", "AFL_QEMU_COMPCOV_DEBUG", "AFL_QEMU_DEBUG_MAPS", "AFL_QEMU_DISABLE_CACHE",
    "AFL_QEMU_DRIVER_NO_HOOK", "AFL_QEMU_FORCE_DFL", "AFL_QEMU_PERSISTENT_ADDR",
    "AFL_QEMU_PERSISTENT_CNT", "AFL_QEMU_PERSISTENT_GPR", "AFL_QEMU_PERSISTENT_HOOK",
    "AFL_QEMU_PERSISTENT_MEM", "AFL_QEMU_PERSISTENT_RET", "AFL_QEMU_PERSISTENT_RETADDR_OFFSET",
    "AFL_QEMU_PERSISTENT_EXITS", "AFL_QEMU_INST_RANGES", "AFL_QEMU_EXCLUDE_RANGES",
    "AFL_QEMU_SNAPSHOT", "AFL_QEMU_TRACK_UNSTABLE", "AFL_QUIET", "AFL_RANDOM_ALLOC_CANARY",
    "AFL_REAL_PATH", "AFL_SHA1_FILENAMES", "AFL_SHUFFLE_QUEUE", "AFL_SKIP_BIN_CHECK",
    "AFL_SKIP_CPUFREQ", "AFL_SKIP_CRASHES", "AFL_SKIP_OSSFUZZ", "AFL_STATSD", "AFL_STATSD_HOST",
    "AFL_STATSD_PORT", "AFL_STATSD_TAGS_FLAVOR", "AFL_SYNC_TIME", "AFL_TESTCACHE_SIZE",
    "AFL_TESTCACHE_ENTRIES", "AFL_TMIN_EXACT", "AFL_TMPDIR", "AFL_TOKEN_FILE", "AFL_TRACE_PC",
    "AFL_USE_ASAN", "AFL_USE_MSAN", "AFL_USE_TRACE_PC", "AFL_USE_UBSAN", "AFL_UBSAN_VERBOSE",
    "AFL_USE_TSAN", "AFL_USE_CFISAN", "AFL_CFISAN_VERBOSE", "AFL_USE_LSAN", "AFL_WINE_PATH",
    "AFL_NO_SNAPSHOT", "AFL_EXPAND_HAVOC_NOW", "AFL_USE_FASAN", "AFL_USE_QASAN",
    "AFL_PRINT_FILENAMES", "AFL_PIZZA_MODE", "AFL_NO_FASTRESUME", "AFL_SAN_ABSTRACTION",
    "AFL_LLVM_ONLY_FSRV", "AFL_GCC_ONLY_FRSV", "AFL_SAN_RECOVER",
    "AFL_PRELOAD_DISCRIMINATE_FORKSERVER_PARENT"].map ofString

/-! ## The distance of two strings -/

def helperMin3 (a b c : ℕ) : ℕ := if a < b then (if a < c then a else c) else if b < c then b else c

/-- One step of the inner loop, for `y = k + 1`. The state is the column and `lastdiag`. -/
def columnStep (s1 : List Byte) (c : Byte) (st : List ℕ × ℕ) (k : ℕ) : List ℕ × ℕ :=
  let olddiag := st.1.getD (k + 1) 0
  (st.1.set (k + 1) (helperMin3 (olddiag + 1) (st.1.getD k 0 + 1)
    (st.2 + if s1.getD k 0 = c then 0 else 1)), olddiag)

/-- One round of the outer loop, for the character `c = s2[x - 1]`. -/
def columnRound (s1 : List Byte) (column : List ℕ) (x : ℕ) (c : Byte) : List ℕ :=
  ((List.range s1.length).foldl (columnStep s1 c) (column.set 0 x, x - 1)).1

/-- `column[y]` is `y`; the entry at `s1len` is set to one before. -/
def firstColumn (s1len : ℕ) : List ℕ := if s1len = 0 then [1] else List.range (s1len + 1)

def stringDistanceLevenshtein (s1 s2 : List Byte) : ℕ :=
  (s2.zipIdx.foldl (fun column e => columnRound s1 column (e.2 + 1) e.1)
    (firstColumn s1.length)).getD s1.length 0

/-! ## The suggestions -/

inductive Failure
  | abort
  | outOfBounds
  | reducedOutOfBounds
  | endless
deriving DecidableEq

def allocated {α : Type} : Option α → Except Failure α
  | some a => .ok a
  | none => .error .abort

def checked {α : Type} (failure : Failure) : Option α → Except Failure α
  | some a => .ok a
  | none => .error failure

def memcpy (failure : Failure) (b : Block Byte) (i : ℕ) (xs : List Byte) :
    Except Failure (Block Byte) :=
  if i + xs.length ≤ b.size then .ok (b.overwrite i xs.length fun k => xs.getD k 0)
  else .error failure

structure Suggestions where
  seen : ℕ → Bool
  found : Bool
  printed : List (List Byte)

def envSimilarityTreshold : ℕ := 3

/-- The `j`-th variable is printed when it is close and was not printed before. -/
def suggest (j : ℕ) (env : List Byte) (distance : ℕ) (s : Suggestions) : Suggestions :=
  if distance < envSimilarityTreshold ∧ s.seen j = false then
    ⟨Function.update s.seen j true, true, s.printed ++ [env]⟩
  else s

/-- The index is computed in 64 bits. -/
def terminatorIndex (len start last : ℕ) : ℕ := (len + 2 ^ 64 - last % 2 ^ 64 + start) % 2 ^ 64

/-- The parts of `text` in front of `start` and from `last` on. -/
def copyParts (text : List Byte) (start last : ℕ) (reduced : Block Byte) :
    Except Failure (Block Byte) := do
  let reduced ← memcpy .reducedOutOfBounds reduced 0 (text.take start)
  if last < text.length then memcpy .reducedOutOfBounds reduced start (text.drop last)
  else .ok reduced

/-- `text` without the segment between `start` and `last`, written into `reduced`. One of the two
loops that do this writes the terminator only when there is a place for it. -/
def reduce (guarded : Bool) (text : List Byte) (start last : ℕ) (reduced : Block Byte) :
    Except Failure (Block Byte) := do
  let reduced ← copyParts text start last reduced
  if guarded = true ∧ ¬ text.length + start ≥ last then .ok reduced
  else
    checked .reducedOutOfBounds (reduced.store (terminatorIndex text.length start last) 0)

def segmentEnd (text : List Byte) (start : ℕ) : ℕ :=
  start + (segmentAt (chr '_') text start).length + 1

/-- The loop over the segments of a text; `act` gets each reduced text. -/
def reduceLoop (guarded : Bool) (text : List Byte)
    (act : List Byte → Suggestions → Suggestions) :
    ℕ → ℕ → Block Byte → Suggestions → Except Failure Suggestions
  | 0, _, _, _ => .error .endless
  | fuel + 1, start, reduced, s =>
    if start < text.length then do
      let reduced ← reduce guarded text start (segmentEnd text start) reduced
      let string ← checked .outOfBounds (stringAt reduced 0 0)
      reduceLoop guarded text act fuel (segmentEnd text start) reduced (act string s)
    else .ok s

/-- The first loop: the name as it is. -/
def suggestWhole (name : List Byte) (s : Suggestions) : Suggestions :=
  aflEnvironmentVariables.zipIdx.foldl
    (fun s e => suggest e.2 e.1 (stringDistanceLevenshtein (e.1.drop 4) name) s) s

/-- One round of the second loop: a variable without one of its segments. -/
def suggestReduced (fuel : ℕ) (name : List Byte) (s : Suggestions) (e : List Byte × ℕ) :
    Except Failure Suggestions := do
  let aflEnv := e.1.drop 4
  let reduced ← allocated (ckAlloc (aflEnv.length + 1))
  reduceLoop true aflEnv
    (fun string => suggest e.2 e.1 (stringDistanceLevenshtein string name)) fuel 0 reduced s

/-- What the third loop does with the name without one of its segments. -/
def suggestName (string : List Byte) (s : Suggestions) : Suggestions :=
  aflEnvironmentVariables.zipIdx.foldl (fun s e =>
    { suggest e.2 e.1 (stringDistanceLevenshtein (e.1.drop 4) string) s with found := s.found }) s

/-- `mispelledEnv` begins with `AFL_`. The result is what is printed. -/
def printSuggestedEnvs (fuel : ℕ) (mispelledEnv : List Byte) :
    Except Failure (List (List Byte)) := do
  let envName := (mispelledEnv.takeWhile (· ≠ chr '=')).drop 4
  let copy ← allocated (ckAlloc (envName.length + 1))
  let copy ← memcpy .outOfBounds copy 0 envName
  let name ← checked .outOfBounds (stringAt copy 0 0)
  let s := suggestWhole name ⟨fun _ => false, false, []⟩
  if s.found then .ok s.printed
  else
    let s ← aflEnvironmentVariables.zipIdx.foldlM (suggestReduced fuel name) s
    if s.found then .ok s.printed
    else
      let reduced ← allocated (ckAlloc (envName.length + 1))
      let s ← reduceLoop false envName suggestName fuel 0 reduced s
      .ok s.printed

end AflPlusPlus.SuggestedEnvs
