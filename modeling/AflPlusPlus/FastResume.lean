import AflPlusPlus.FavoredCover
import AflPlusPlus.Limits
import AflPlusPlus.QueueNames

/-!
# Fast resume

At the end of a session `fastresume.bin` receives the coverage maps and, for each entry in
the order of the queue, a copy of its record and its mini-trace. The next session reads the
test cases from the queue directory and then gives the saved records to the entries in
the order in which it has found them.
-/

namespace AflPlusPlus.FastResume
open ByteWords CoverageMap FavoredSet QueueNames

/-- The saved fields of an entry that the favored set does not depend on. -/
structure OtherFields where
  colorized : ℕ := 0
  trimDone : Bool := false
  passedDet : Bool := false
  isAscii : Bool := false
  custom : ℕ := 0
  statsMutated : ℕ := 0
  perfScore : BitVec 64 := 0x4059000000000000
  weight : BitVec 64 := 0x3ff0000000000000
  deriving DecidableEq

/-- The memory of a `queue_entry` from `colorized` up to `mother`. -/
structure EntryRecord where
  calFailed : ℕ
  wasFuzzed : Bool
  hasNewCov : Bool
  varBehavior : Bool
  favored : Bool
  fsRedundant : Bool
  disabled : Bool
  bitmapSize : ℕ
  fuzzLevel : ℕ
  nFuzzEntry : ℕ
  execUs : ℕ
  handicap : ℕ
  depth : ℕ
  execCksum : BitVec 64
  tcRef : ℕ
  others : OtherFields
  deriving DecidableEq

def EntryRecord.ofEntry (q : QueueEntry) (others : OtherFields) : EntryRecord where
  calFailed := q.calFailed
  wasFuzzed := q.wasFuzzed
  hasNewCov := q.hasNewCov
  varBehavior := q.varBehavior
  favored := q.favored
  fsRedundant := q.fsRedundant
  disabled := q.disabled
  bitmapSize := q.bitmapSize
  fuzzLevel := q.fuzzLevel
  nFuzzEntry := q.nFuzzEntry
  execUs := q.execUs
  handicap := q.handicap
  depth := q.depth
  execCksum := q.execCksum
  tcRef := q.tcRef
  others := others

/-- Read a record over an entry; its length stays that of the file. -/
def EntryRecord.restore (r : EntryRecord) (q : QueueEntry) : QueueEntry :=
  { q with
    calFailed := r.calFailed
    wasFuzzed := r.wasFuzzed
    hasNewCov := r.hasNewCov
    varBehavior := r.varBehavior
    favored := r.favored
    fsRedundant := r.fsRedundant
    disabled := r.disabled
    bitmapSize := r.bitmapSize
    fuzzLevel := r.fuzzLevel
    nFuzzEntry := r.nFuzzEntry
    execUs := r.execUs
    handicap := r.handicap
    depth := r.depth
    execCksum := r.execCksum
    tcRef := r.tcRef }

/-- The part of `afl_state_t` that is saved, or counted again when it is loaded. -/
structure Session where
  queue : QueueState
  fname : ℕ → FileName := fun _ => []
  others : ℕ → OtherFields := fun _ => {}
  virginBits : Mem := fun _ => 0xff
  virginTmout : Mem := fun _ => 0xff
  virginCrash : Mem := fun _ => 0xff
  varBytes : Mem := fun _ => 0
  pendingNotFuzzed : ℕ := 0
  activeItems : ℕ := 0
  queuedVariable : ℕ := 0
  totalBitmapSize : ℕ := 0
  totalBitmapEntries : ℕ := 0

/-- The contents of `fastresume.bin` behind the version. -/
structure FastResumeBin where
  virginBits : List Byte
  virginTmout : List Byte
  virginCrash : List Byte
  varBytes : List Byte
  entries : List (EntryRecord × Option (List Byte))

def bytesOf (len : ℕ) (m : Mem) : List Byte := (List.range len).map m

/-- Read bytes over the start of a buffer. -/
def readInto (bytes : List Byte) (m : Mem) : Mem := fun i => bytes.getD i (m i)

namespace Session

def record (s : Session) (i : ℕ) : EntryRecord :=
  .ofEntry (s.queue.queueBuf i) (s.others i)

/-- `m_len`. -/
def miniLen (s : Session) : ℕ := (s.queue.geometry.mapSize + 7) >>> 3

def savedMini (s : Session) (i : ℕ) : Option (List Byte) :=
  (s.queue.queueBuf i).traceMini.map (bytesOf s.miniLen)

def writeFastResume (s : Session) : FastResumeBin where
  virginBits := bytesOf s.queue.geometry.mapSize s.virginBits
  virginTmout := bytesOf s.queue.geometry.mapSize s.virginTmout
  virginCrash := bytesOf s.queue.geometry.mapSize s.virginCrash
  varBytes := bytesOf s.queue.geometry.mapSize s.varBytes
  entries := (List.range s.queue.queuedItems).map fun i => (s.record i, s.savedMini i)

end Session

/-! ## Reading the test cases -/

inductive Node
  | file (size : ℕ)
  | dir (entries : List (FileName × Node))
  | other

abbrev Directory := List (FileName × Node)

/-- The options of the order of the queue, and the random permutation of a listing. -/
structure ScanOptions where
  oldSeedSelection : Bool := false
  shuffleQueue : Bool := false
  shufflePtrs : Directory → Directory := id
  shuffle_perm : ∀ nl, (shufflePtrs nl).Perm nl := by exact fun _ => .rfl

def readme : FileName := ['R', 'E', 'A', 'D', 'M', 'E', '.', 't', 'x', 't']

/-- The entries of a directory in the order in which they are looked at. -/
def ScanOptions.listing (options : ScanOptions) (dir : Directory) : Directory :=
  let nl := alphasort dir
  if options.oldSeedSelection && options.shuffleQueue && nl.length > 1 then
    options.shufflePtrs nl
  else nl

/-- The test cases of a directory tree of at most the given depth, with their lengths. Hidden
directories are not entered. -/
def readTestcases (options : ScanOptions) : ℕ → Directory → List (FileName × ℕ)
  | 0, _ => []
  | depth + 1, dir => (options.listing dir).flatMap fun (name, node) =>
    match node with
    | .dir entries =>
      if name.head? ≠ some '.' then readTestcases options depth entries else []
    | .file size =>
      if size = 0 ∨ readme <+: name then [] else [(name, if size ≥ maxFile then maxFile else size)]
    | .other => []

/-! ## Loading -/

namespace Session

/-- `add_to_queue` for a test case that was found at the start. -/
def addTestcase (s : Session) (file : FileName × ℕ) : Session :=
  { s with
    queue := s.queue.addToQueue file.2 1
    fname := Function.update s.fname s.queue.queuedItems file.1
    others := Function.update s.others s.queue.queuedItems {}
    pendingNotFuzzed := s.pendingNotFuzzed + 1
    activeItems := s.activeItems + 1 }

def readMaps (s : Session) (bin : FastResumeBin) : Session :=
  { s with
    virginBits := readInto bin.virginBits s.virginBits
    virginTmout := readInto bin.virginTmout s.virginTmout
    virginCrash := readInto bin.virginCrash s.virginCrash
    varBytes := readInto bin.varBytes s.varBytes }

/-- The record and the mini-trace of one entry are read over it. -/
def readEntry (s : Session) (i : ℕ) (saved : EntryRecord × Option (List Byte)) : Session :=
  { s with
    queue := s.queue.modifyEntry i fun q =>
      { saved.1.restore q with
        traceMini := match saved.2 with
          | some bytes => some (readInto bytes fun _ => 0)
          | none => q.traceMini }
    others := Function.update s.others i saved.1.others }

/-- The counters of an entry that has just been read, and its score. -/
def countEntry (s : Session) (i : ℕ) : Session :=
  let q := s.queue.queueBuf i
  let queue := s.queue.updateBitmapScore i false
  { s with
    totalBitmapSize := s.totalBitmapSize + q.bitmapSize
    totalBitmapEntries := s.totalBitmapEntries + 1
    pendingNotFuzzed := s.pendingNotFuzzed - (if q.wasFuzzed then 1 else 0) -
      (if q.disabled && !q.wasFuzzed then 1 else 0)
    activeItems := s.activeItems - (if q.disabled then 1 else 0)
    queuedVariable := s.queuedVariable + (if q.varBehavior then 1 else 0)
    queue := { queue with
      queuedFavored := queue.queuedFavored + (if q.favored then 1 else 0)
      pendingFavored := queue.pendingFavored + (if q.favored && !q.wasFuzzed then 1 else 0) } }

def loadEntry (s : Session) (saved : (EntryRecord × Option (List Byte)) × ℕ) : Session :=
  (s.readEntry saved.2 saved.1).countEntry saved.2

/-- The records go to the entries in the order of the queue. Missing records and trailing data
are fatal. -/
def loadEntries (s : Session) (bin : FastResumeBin) : Option Session :=
  if bin.entries.length = s.queue.queuedItems then
    let s := bin.entries.zipIdx.foldl loadEntry s
    some { s with queue := { s.queue with reinitTable := true } }
  else none

/-- The start of a session that finds `fastresume.bin`. -/
def resume (s : Session) (options : ScanOptions) (depth : ℕ) (dir : Directory)
    (bin : FastResumeBin) : Option Session :=
  (((readTestcases options depth dir).foldl addTestcase s).readMaps bin).loadEntries bin

/-- The state of a session before it has read any test case. -/
structure Starting (s : Session) : Prop where
  fresh : s.queue.Fresh
  queuedItems_eq : s.queue.queuedItems = 0
  scoreChanged_eq : s.queue.scoreChanged = false
  queuedFavored_eq : s.queue.queuedFavored = 0
  pendingFavored_eq : s.queue.pendingFavored = 0
  pendingNotFuzzed_eq : s.pendingNotFuzzed = 0
  activeItems_eq : s.activeItems = 0

/-- Write a file into a directory, over the one with the same name. -/
def writeFile (dir : Directory) (name : FileName) (size : ℕ) : Directory :=
  dir.filter (·.1 ≠ name) ++ [(name, .file size)]

/-- What is in a queue directory besides the test cases. -/
def dotEntries : Directory :=
  [(['.'], .dir []), (['.', '.'], .dir []), (['.', 's', 't', 'a', 't', 'e'], .dir [])]

/-- The queue directory at the end of a session. -/
def directory (s : Session) : Directory :=
  (List.range s.queue.queuedItems).foldl
    (fun dir i => writeFile dir (s.fname i) (s.queue.queueBuf i).len) dotEntries

end Session

end AflPlusPlus.FastResume
