import AflPlusPlus.EqualBlocks
import AflPlusPlus.OrderedCounters
import AflPlusPlus.TransitionSystems

/-!
# Corpus minimization with several workers

`afl-cmin.py` hands batches of files to its workers. Each worker notes for every tuple the first
file that has it, counts the tuples, and appends the traces to a pack. The main process collects
what the workers report, in whatever order it arrives, and selects files that have all tuples
among them.
-/

namespace AflPlusPlus.CminWorkers
open EqualBlocks OrderedCounters

/-! ## Traces -/

/-- The classes of hit counts of `afl-showmap`. -/
def countClassHuman (hits : ℕ) : ℕ :=
  if hits < 4 then hits
  else if hits < 8 then 4
  else if hits < 16 then 5
  else if hits < 32 then 6
  else if hits < 128 then 7
  else 8

/-- `classify_counts`: with `-e` only whether an edge is hit. -/
def classifyCounts (edgesOnly : Bool) (traceBits : List (BitVec 8)) : List ℕ :=
  traceBits.map fun hits =>
    if edgesOnly then (if hits.toNat ≠ 0 then 1 else 0) else countClassHuman hits.toNat

/-- `write_results_to_file` with `-Z`: a line is the index of an edge and three digits. -/
def cminLines (bits : List ℕ) : List ℕ :=
  (bits.zipIdx.filter fun e => e.1 ≠ 0).map fun e => e.2 * 1000 + e.1

def tupleIndex (t : ℕ) : ℕ := t / 1000 * 9 + t % 1000

/-- What `afl_showmap` gives for a file of a batch, from its trace file. -/
structure Traced where
  tuples : List ℕ
  crashed : Bool

def aflShowmap (traceFile : Option (List ℕ)) : Traced :=
  match traceFile with
  | some values => ⟨values.map tupleIndex, values.length == 0⟩
  | none => ⟨[], true⟩

/-! ## Array types -/

/-- The sizes of the items of the arrays of types B, H, I, L, Q. -/
def itemSizes : List ℕ := [1, 2, 4, 8, 8]

def detectTypeCode (size : ℕ) : Option ℕ := itemSizes.find? fun itemsize => 256 ^ itemsize > size

/-- How the run of a file ends for `afl-showmap`. It does not run a file that is empty or cannot be
read, and writes no results for a run that timed out or crashed. -/
inductive Run
  | skipped
  | failed
  | traced (bits : List (BitVec 8))

structure Config where
  /-- The runs of the files, after these were sorted by size. -/
  runs : List Run
  basename : ℕ → String
  edgeMode : Bool
  crashDir : Bool
  workers : ℕ
  aflMapSize : Option ℕ

/-- A file of the corpus. -/
structure InputFile where
  size : ℕ
  run : Run
  basename : String

/-- `sorted` with the sizes as keys keeps the order of files that have the same. -/
def sortFiles (files : List InputFile) : List InputFile :=
  files.insertionSort fun a b => a.size ≤ b.size

def fileSize (files : List InputFile) (idx : ℕ) : ℕ :=
  ((sortFiles files)[idx]?.map InputFile.size).getD 0

def Config.withFiles (c : Config) (files : List InputFile) : Config := { c with
  runs := (sortFiles files).map InputFile.run
  basename idx := ((sortFiles files)[idx]?.map InputFile.basename).getD "" }

def Config.mapSize (c : Config) : ℕ := c.aflMapSize.getD 65536
def Config.maxTuple (c : Config) : ℕ := c.mapSize * 9

/-- No run has more than `256 ^ 8` files. -/
def Config.fileIndexItemsize (c : Config) : ℕ := (detectTypeCode c.runs.length).getD 8
def Config.maxFileIndex (c : Config) : ℕ := 256 ^ c.fileIndexItemsize - 1

/-- Arrays of type I, unless the target tells its map size. -/
def Config.tupleIndexItemsize (c : Config) : ℕ :=
  match c.aflMapSize with
  | some size => (detectTypeCode (size * 9)).getD 8
  | none => 4

/-- `batched(enumerate(files), chunk)`. -/
def Config.batches (c : Config) : List (List ℕ) :=
  let chunk := max 1 (min 128 (c.runs.length / c.workers))
  let files := List.range c.runs.length
  if rest chunk files = [] then blocks chunk files else blocks chunk files ++ [rest chunk files]

def Config.batchOf (c : Config) (idx : ℕ) : List ℕ :=
  (c.batches.find? fun batch => idx ∈ batch).getD []

/-- The trace file after the run of a further file of that name. After a failed run there is an
empty one, but one that is there stays. -/
def Config.leaves (c : Config) (traceFile : Option (List ℕ)) (idx : ℕ) : Option (List ℕ) :=
  match c.runs[idx]?.getD .skipped with
  | .skipped => traceFile
  | .failed => some (traceFile.getD [])
  | .traced bits => some (cminLines (classifyCounts c.edgeMode bits))

/-- What is read after the runs of a batch. The trace file goes by the basename, and the first file
of that name takes it away. -/
def Config.traceFile (c : Config) (idx : ℕ) : Option (List ℕ) :=
  let same := (c.batchOf idx).filter fun other => c.basename other = c.basename idx
  if same.head? = some idx then same.foldl c.leaves none else none

def Config.traced (c : Config) (idx : ℕ) : Traced := aflShowmap (c.traceFile idx)

inductive Failure
  | indexError
  | keyError
  | eofError
deriving DecidableEq

/-! ## A worker -/

structure Record where
  worker : ℕ
  pos : ℕ
  tupleCount : ℕ

structure Worker where
  m : List ℕ
  counter : Counter ℕ
  crashes : List ℕ
  tracePack : List ℕ
  packPos : ℕ
  /-- The rest of the batch it has taken. -/
  batch : List ℕ
  running : Bool

def Config.worker (c : Config) : Worker :=
  ⟨List.replicate c.maxTuple c.maxFileIndex, [], [], [], 0, [], true⟩

/-- The loop over the tuples of a file. -/
def noteTuples (idx : ℕ) : List ℕ → List ℕ × Bool → Option (List ℕ × Bool)
  | [], st => some st
  | t :: r, (m, used) =>
    (m[t]?).bind fun first =>
      if idx < first then noteTuples idx r (m.set t idx, true) else noteTuples idx r (m, used)

/-- One pass of the loop over a batch, and what is put into the progress queue. A tuple that the
array cannot hold is an error. -/
def Config.traceStep (c : Config) (i idx : ℕ) (w : Worker) : Option (Worker × Option Record) :=
  let ⟨r, crash⟩ := c.traced idx
  if r.all fun t => t < 256 ^ c.tupleIndexItemsize then
    let w := { w with
      counter := update w.counter r
      crashes := if crash then w.crashes ++ [idx] else w.crashes }
    let noted := if !crash || !c.crashDir then noteTuples idx r (w.m, false) else some (w.m, false)
    noted.map fun (m, used) =>
      if used then
        ({ w with m, tracePack := w.tracePack ++ r,
                  packPos := w.packPos + r.length * c.tupleIndexItemsize },
          some ⟨i, w.packPos, r.length⟩)
      else ({ w with m }, none)
  else none

/-! ## The system -/

/-- The queues and the workers, and what the main process has collected. A job is a batch of files
or the end of the jobs. -/
structure System where
  jobQueue : List (Option (List ℕ))
  workers : ℕ → Worker
  progressQueue : List (ℕ × Option Record)
  resultQueue : List ℕ
  traceInfo : List (ℕ × Record)
  received : ℕ
  results : List ℕ

inductive Action
  | take (i : ℕ)
  | trace (i : ℕ)
  | progress (k : ℕ)
  | result (k : ℕ)

def Worker.takeBatch (batch : List ℕ) (w : Worker) : Worker := { w with batch }

def Worker.stop (w : Worker) : Worker := { w with running := false }

/-- A worker takes a job when it is through with its batch. It ends when there are no more. -/
def Config.take (c : Config) (i : ℕ) (s : System) : Option System :=
  if i < c.workers ∧ (s.workers i).running ∧ (s.workers i).batch = [] then
    match s.jobQueue with
    | [] => none
    | some batch :: jobs => some { s with
        jobQueue := jobs
        workers := Function.update s.workers i ((s.workers i).takeBatch batch) }
    | none :: jobs => some { s with
        jobQueue := jobs
        workers := Function.update s.workers i (s.workers i).stop
        resultQueue := s.resultQueue ++ [i] }
  else none

/-- A worker that fails ends without a result. -/
def Config.trace (c : Config) (i : ℕ) (s : System) : Option System :=
  if i < c.workers ∧ (s.workers i).running then
    match (s.workers i).batch with
    | [] => none
    | idx :: batch =>
      match c.traceStep i idx (s.workers i) with
      | some (w, record) => some { s with
          workers := Function.update s.workers i (w.takeBatch batch)
          progressQueue := s.progressQueue ++ [(idx, record)] }
      | none => some { s with workers := Function.update s.workers i (s.workers i).stop }
  else none

/-- The messages of different workers arrive in any order. -/
def Config.progress (c : Config) (k : ℕ) (s : System) : Option System :=
  if s.received < c.runs.length then
    (s.progressQueue[k]?).map fun (idx, record) => { s with
      progressQueue := s.progressQueue.eraseIdx k
      received := s.received + 1
      traceInfo := (record.map fun r => (idx, r)).toList ++ s.traceInfo }
  else none

/-- The results are fetched after the progress of all files. -/
def Config.result (c : Config) (k : ℕ) (s : System) : Option System :=
  if c.runs.length ≤ s.received then
    (s.resultQueue[k]?).map fun i => { s with
      resultQueue := s.resultQueue.eraseIdx k, results := s.results ++ [i] }
  else none

def Config.step (c : Config) (s : System) : Action → Option System
  | .take i => c.take i s
  | .trace i => c.trace i s
  | .progress k => c.progress k s
  | .result k => c.result k s

/-- The dispatcher puts all batches, then an end for each worker. -/
def Config.start (c : Config) : System where
  jobQueue := c.batches.map some ++ List.replicate c.workers none
  workers _ := c.worker
  progressQueue := []
  resultQueue := []
  traceInfo := []
  received := 0
  results := []

/-! ## The selection -/

/-- `map(min, zip(*ms))`. -/
def minima : List (List ℕ) → List ℕ
  | [] => []
  | m :: ms => ms.foldl (List.zipWith min) m

def System.bestIdxes (s : System) : List ℕ := minima (s.results.map fun i => (s.workers i).m)

def System.counter (s : System) : Counter ℕ :=
  s.results.foldl (fun c i => merge c (s.workers i).counter) []

def System.allUnique (s : System) : Counter ℕ := mostCommon s.counter

/-- `seek` and `fromfile`. -/
def Config.readPack (c : Config) (pack : List ℕ) (pos tupleCount : ℕ) : Except Failure (List ℕ) :=
  let rest := pack.drop (pos / c.tupleIndexItemsize)
  if tupleCount ≤ rest.length then .ok (rest.take tupleCount) else .error .eofError

/-- The file that is saved for a tuple, and where its trace is. -/
def Config.pick (c : Config) (s : System) (t : ℕ) : Except Failure ℕ :=
  match s.bestIdxes[t]? with
  | some idx => if idx < c.runs.length then .ok idx else .error .indexError
  | none => .error .indexError

def System.info (s : System) (idx : ℕ) : Except Failure Record :=
  match s.traceInfo.find? fun e => e.1 == idx with
  | some e => .ok e.2
  | none => .error .keyError

def Config.savedTuples (c : Config) (s : System) (idx : ℕ) : Except Failure (List ℕ) := do
  let r ← s.info idx
  c.readPack (s.workers r.worker).tracePack r.pos r.tupleCount

/-- The loop over the tuples that one file has. -/
def Config.saveUnique (c : Config) (s : System) : Counter ℕ → List ℕ → Except Failure (List ℕ)
  | [], saved => .ok saved
  | (t, n) :: unique, saved =>
    if n ≠ 1 then c.saveUnique s unique saved
    else do
      let idx ← c.pick s t
      if idx ∈ saved then c.saveUnique s unique saved
      else
        let _ ← s.info idx
        c.saveUnique s unique (saved ++ [idx])

/-- The tuples of the files that are saved so far, put together by `CombineTraceWorker`. -/
def Config.combineTraces (c : Config) (s : System) : List ℕ → Except Failure (List ℕ)
  | [] => .ok []
  | idx :: saved => do
    let tuples ← c.savedTuples s idx
    let rest ← c.combineTraces s saved
    .ok (tuples ++ rest)

/-- The loop over the other tuples, the rarest first. -/
def Config.saveRest (c : Config) (s : System) :
    Counter ℕ → List ℕ → List ℕ → Except Failure (List ℕ)
  | [], _, saved => .ok saved
  | (t, _) :: rest, alreadyHave, saved =>
    if t ∈ alreadyHave then c.saveRest s rest alreadyHave saved
    else do
      let idx ← c.pick s t
      let tuples ← c.savedTuples s idx
      c.saveRest s rest (alreadyHave ++ tuples) (saved ++ [idx])

/-- The files that are saved, in order. -/
def Config.select (c : Config) (s : System) : Except Failure (List ℕ) := do
  let saved ← c.saveUnique s s.allUnique []
  let alreadyHave ← c.combineTraces s saved
  c.saveRest s s.allUnique.reverse alreadyHave saved

end AflPlusPlus.CminWorkers
