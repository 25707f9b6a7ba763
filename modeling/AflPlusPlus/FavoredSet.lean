import AflPlusPlus.CoverageMap
import AflPlusPlus.NextPow2

/-!
# Queue entries and the favored-set bookkeeping

Entries are addressed by their position in `queue_buf`, which is the `id` that
`add_to_queue` gives them; a pointer to an entry is that position. The routines are
`update_bitmap_score`, `update_bitmap_rescore`, `recalculate_all_scores`,
`mark_as_redundant` and `cull_queue` of `afl-fuzz-queue.c`.
-/

namespace AflPlusPlus.FavoredSet
open ByteWords CoverageMap

/-- Power schedules, in the order of their numeric values. -/
inductive Schedule
  | explore | mmopt | exploit | fast | coe | lin | quad | rare | seek
  deriving DecidableEq, Repr

def Schedule.value : Schedule → ℕ
  | explore => 0 | mmopt => 1 | exploit => 2 | fast => 3 | coe => 4
  | lin => 5 | quad => 6 | rare => 7 | seek => 8

structure QueueEntry where
  len : ℕ := 0
  execUs : ℕ := 0
  execCksum : BitVec 64 := 0
  fuzzLevel : ℕ := 0
  nFuzzEntry : ℕ := 0
  calFailed : ℕ := 0
  bitmapSize : ℕ := 0
  handicap : ℕ := 0
  depth : ℕ := 0
  wasFuzzed : Bool := false
  hasNewCov : Bool := false
  varBehavior : Bool := false
  favored : Bool := false
  fsRedundant : Bool := false
  disabled : Bool := false
  tcRef : ℕ := 0
  traceMini : Option Mem := none

/-- The part of `afl_state_t` that decides which entries are favored. The flag
`tcRefUnderflow` is not in the source: it records a decrement of a zero `tc_ref`. -/
structure QueueState where
  geometry : MapGeometry
  traceBits : Mem := fun _ => 0
  schedule : Schedule := .explore
  fixedSeed : Bool := false
  nonInstrumentedMode : Bool := false
  disableRedundant : Bool := false
  nFuzz : ℕ → ℕ := fun _ => 0
  queueBuf : ℕ → QueueEntry := fun _ => {}
  queuedItems : ℕ := 0
  topRated : ℕ → Option ℕ := fun _ => none
  topRatedCandidates : ℕ → List ℕ := fun _ => []
  lastScoredIdx : ℤ := -1
  scoreChanged : Bool := false
  reinitTable : Bool := false
  queuedFavored : ℕ := 0
  pendingFavored : ℕ := 0
  smallestFavored : ℤ := -1
  tcRefUnderflow : Bool := false

namespace QueueState

def modifyEntry (s : QueueState) (q : ℕ) (f : QueueEntry → QueueEntry) : QueueState :=
  { s with queueBuf := Function.update s.queueBuf q (f (s.queueBuf q)) }

/-- The pair `(fuzz_p2, fav_factor)` by which two entries are compared. The shift is
done on a `u32` and the product on a `u64`. -/
def rating (s : QueueState) (q : ℕ) : ℕ × ℕ :=
  let e := s.queueBuf q
  let fuzzP2 :=
    if Schedule.fast.value ≤ s.schedule.value ∧ s.schedule.value < Schedule.rare.value then 0
    else if s.schedule = .rare then (NextPow2.nextPow2 (BitVec.ofNat 64 (s.nFuzz e.nFuzzEntry))).toNat
    else e.fuzzLevel
  let favFactor :=
    if Schedule.rare.value ≤ s.schedule.value ∨ s.fixedSeed = true then (e.len <<< 2) % 2 ^ 32
    else (e.execUs * e.len) % 2 ^ 64
  (fuzzP2, favFactor)

/-- `!--old->tc_ref` and the release of `trace_mini` when the count reaches zero. -/
def dropWinner (s : QueueState) (old : ℕ) : QueueState :=
  let s := { s with tcRefUnderflow := s.tcRefUnderflow || (s.queueBuf old).tcRef == 0 }
  s.modifyEntry old (fun e => { e with
    tcRef := decU32 e.tcRef
    traceMini := if decU32 e.tcRef = 0 then none else e.traceMini })

/-- Insert `q` as the winner of index `i`. -/
def insertWinner (s : QueueState) (q i : ℕ) : QueueState :=
  let s := { s with topRated := Function.update s.topRated i (some q) }
  let s := s.modifyEntry q (fun e => { e with
    tcRef := incU32 e.tcRef
    traceMini := match e.traceMini with
      | some m => some m
      | none => some (minimizeBits s.geometry (fun _ => 0) s.traceBits) })
  { s with scoreChanged := true }

/-- Neither `continue` of the comparison with the previous winner is taken. -/
def beats (s : QueueState) (mine : ℕ × ℕ) (old : ℕ) : Bool :=
  if mine.1 > (s.rating old).1 then false
  else if mine.2 > (s.rating old).2 then false
  else true

/-- Let an entry `q` rated `mine` compete for index `i`. -/
def contest (s : QueueState) (mine : ℕ × ℕ) (q i : ℕ) : QueueState :=
  match s.topRated i with
  | none => s.insertWinner q i
  | some old => if s.beats mine old then (s.dropWinner old).insertWinner q i else s

def updateBitmapScore (s : QueueState) (q : ℕ) (haveTrace : Bool) : QueueState :=
  let mine := s.rating q
  if haveTrace then
    (List.range s.geometry.mapSize).foldl (fun s i =>
      if s.traceBits i ≠ 0 then s.contest mine q i else s) s
  else s

def updateBitmapRescore (s : QueueState) (q index : ℕ) : QueueState :=
  s.contest (s.rating q) q index

/-- Run entry `q` and enroll it as a candidate for every index its trace hits. -/
def enroll (traceOf : ℕ → Mem) (s : QueueState) (q : ℕ) : QueueState :=
  let s := if (s.queueBuf q).disabled then s else
    { s with
      traceBits := traceOf q
      topRatedCandidates := fun j =>
        if j < s.geometry.mapSize ∧ traceOf q j ≠ 0 then s.topRatedCandidates j ++ [q]
        else s.topRatedCandidates j }
  { s with lastScoredIdx := q }

/-- The entries that have not been enrolled yet. -/
def unscored (s : QueueState) : List ℕ :=
  (List.range s.queuedItems).filter (fun q => s.lastScoredIdx < (q : ℤ))

/-- The calls of `update_bitmap_rescore` in the order of the two nested loops. -/
def rescorings (s : QueueState) : List (ℕ × ℕ) :=
  (List.range s.geometry.mapSize).flatMap (fun i => (s.topRatedCandidates i).map (fun q => (q, i)))

/-- `traceOf q` is what the execution of entry `q` leaves in the trace buffer. -/
def recalculateAllScores (s : QueueState) (traceOf : ℕ → Mem) : QueueState :=
  let s := s.unscored.foldl (enroll traceOf) s
  s.rescorings.foldl (fun s p => s.updateBitmapRescore p.1 p.2) s

def markAsRedundant (s : QueueState) (q : ℕ) (state : Bool) : QueueState :=
  if state = (s.queueBuf q).fsRedundant then s else
    s.modifyEntry q (fun e => { e with
      fsRedundant := state
      traceMini := if state then none else e.traceMini
      disabled := if state && s.disableRedundant then true else e.disabled })

/-- One iteration of the winner loop of `cull_queue`, with `temp_v` beside the state. -/
def favorStep (t : Mem × QueueState) (i : ℕ) : Mem × QueueState :=
  let s := t.2
  match s.topRated i with
  | none => t
  | some w =>
    match (s.queueBuf w).traceMini with
    | none => t
    | some m =>
      if bitSet t.1 i then
        let tempV : Mem := fun j =>
          if j < s.geometry.mapSize >>> 3 then t.1 j &&& ~~~m j else t.1 j
        if (s.queueBuf w).favored then (tempV, s)
        else
          let pending := !(s.queueBuf w).wasFuzzed
          let s := s.modifyEntry w (fun e => { e with favored := true })
          (tempV, { s with
            queuedFavored := s.queuedFavored + 1
            pendingFavored := if pending then s.pendingFavored + 1 else s.pendingFavored
            smallestFavored := if pending ∧ s.smallestFavored < 0 then (w : ℤ)
              else s.smallestFavored })
      else t

/-- The counters and flags that `cull_queue` clears before it looks for winners. -/
def resetFavored (s : QueueState) : QueueState :=
  { s with
    scoreChanged := false
    queuedFavored := 0
    pendingFavored := 0
    smallestFavored := -1
    queueBuf := fun q =>
      if q < s.queuedItems then { s.queueBuf q with favored := false } else s.queueBuf q }

def favorWinners (s : QueueState) : QueueState :=
  ((List.range s.geometry.mapSize).foldl favorStep (fun _ => 0xff, s)).2

def markUnfavored (s : QueueState) : QueueState :=
  (List.range s.queuedItems).foldl (fun s q =>
    if (s.queueBuf q).disabled then s else s.markAsRedundant q !(s.queueBuf q).favored) s

def cullQueue (s : QueueState) : QueueState :=
  if !s.scoreChanged || s.nonInstrumentedMode then s else
    { s.resetFavored.favorWinners.markUnfavored with reinitTable := true }

/-- What `add_to_queue` does to this part of the state. -/
def addToQueue (s : QueueState) (len depth : ℕ) : QueueState :=
  { s with
    queueBuf := Function.update s.queueBuf s.queuedItems { len := len, depth := depth }
    queuedItems := s.queuedItems + 1 }

/-- The fields of an entry that the rest of the fuzzer sets between these calls. -/
structure EntryData where
  len : ℕ
  execUs : ℕ
  fuzzLevel : ℕ
  nFuzzEntry : ℕ
  wasFuzzed : Bool
  disabled : Bool

def adjust (s : QueueState) (schedule : Schedule) (nFuzz : ℕ → ℕ) (data : ℕ → EntryData) :
    QueueState :=
  { s with
    schedule := schedule
    nFuzz := nFuzz
    queueBuf := fun q => { s.queueBuf q with
      len := (data q).len
      execUs := (data q).execUs
      fuzzLevel := (data q).fuzzLevel
      nFuzzEntry := (data q).nFuzzEntry
      wasFuzzed := (data q).wasFuzzed
      disabled := (data q).disabled } }

/-- `update_bitmap_score(afl, q, have_trace)` after a run of entry `q` that left `trace` in
the shared buffer. -/
def score (s : QueueState) (q : ℕ) (trace : Mem) (haveTrace : Bool) : QueueState :=
  if q < s.queuedItems then { s with traceBits := trace }.updateBitmapScore q haveTrace else s

inductive Op
  | add (len depth : ℕ)
  | adjust (schedule : Schedule) (nFuzz : ℕ → ℕ) (data : ℕ → EntryData)
  | score (q : ℕ) (trace : Mem) (haveTrace : Bool)
  | recalculate (traceOf : ℕ → Mem)
  | cull

def step (s : QueueState) : Op → QueueState
  | .add len depth => s.addToQueue len depth
  | .adjust schedule nFuzz data => s.adjust schedule nFuzz data
  | .score q trace haveTrace => s.score q trace haveTrace
  | .recalculate traceOf => s.recalculateAllScores traceOf
  | .cull => s.cullQueue

def run (s : QueueState) (ops : List Op) : QueueState := ops.foldl step s

/-- No entry has competed for an index yet. -/
structure Fresh (s : QueueState) : Prop where
  topRated_eq : ∀ i, s.topRated i = none
  candidates_eq : ∀ i, s.topRatedCandidates i = []
  tcRef_eq : ∀ q, (s.queueBuf q).tcRef = 0
  traceMini_eq : ∀ q, (s.queueBuf q).traceMini = none
  underflow_eq : s.tcRefUnderflow = false

end QueueState

end AflPlusPlus.FavoredSet
