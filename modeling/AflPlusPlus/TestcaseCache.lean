import AflPlusPlus.ByteWords
import AflPlusPlus.Limits

/-!
# The test-case cache

The `q_testcase_*` bookkeeping of `afl-fuzz-queue.c`. An entry is its position in
`queue_buf`; of its buffer only the presence matters. The random numbers drawn for an
eviction are an argument of the call, and a call that draws more, or that reads a slot
outside the initialised part of the table, has no result.
-/

namespace AflPlusPlus.TestcaseCache
open ByteWords

structure Cache where
  items : ℕ := 0
  len : ℕ → ℕ := fun _ => 0
  testcaseBuf : ℕ → Bool := fun _ => false
  /-- `q_testcase_cache`, with the number of its initialised slots. -/
  slots : ℕ → Option ℕ := fun _ => none
  capacity : ℕ
  cacheSize : ℕ := 0
  cacheCount : ℕ := 0
  maxCacheSize : ℕ
  maxCacheCount : ℕ := 0
  maxCacheEntries : ℕ
  smallestFree : ℕ := 0
  evictions : ℕ := 0
  doOnce : Bool := false

namespace Cache

/-- `q_testcase_cache_size + len >= q_testcase_max_cache_size`. -/
def overflows (s : Cache) (len : ℕ) : Bool := (s.cacheSize + len) % 2 ^ 64 ≥ s.maxCacheSize

/-- The condition of the eviction loop. -/
def full (s : Cache) (len : ℕ) : Bool :=
  (s.overflows len && s.cacheCount > 1) || s.cacheCount ≥ decU32 s.maxCacheEntries

/-- Once the cache is filled by size, the number of entries reached becomes the limit and the
table is reallocated; slots it may gain are not initialised. -/
def learnLimit (s : Cache) (len : ℕ) : Cache :=
  if s.overflows len ∧ s.cacheCount < s.maxCacheEntries ∧
      s.maxCacheCount < s.maxCacheEntries ∧ !s.doOnce then
    let entries := if s.maxCacheCount > s.cacheCount then incU32 s.maxCacheCount
      else incU32 s.cacheCount
    { s with
      maxCacheEntries := entries
      doOnce := true
      capacity := min s.capacity (entries + 1) }
  else s

/-- Release the buffer of the entry `old` in slot `tid`. -/
def evict (s : Cache) (tid old : ℕ) : Cache :=
  { s with
    testcaseBuf := Function.update s.testcaseBuf old false
    cacheSize := (s.cacheSize + (2 ^ 64 - s.len old)) % 2 ^ 64
    slots := Function.update s.slots tid none
    cacheCount := decU32 s.cacheCount
    evictions := incU32 s.evictions
    smallestFree := if tid < s.smallestFree then tid else s.smallestFree }

/-- The eviction loop, with the loop inside it that draws slots until one holds an entry
other than the current one. Learning the limit again after a rejected draw changes nothing. -/
def evictLoop (cur : Option ℕ) (len : ℕ) : List ℕ → ℕ → Cache → Option (ℕ × Cache)
  | picks, tid, s =>
    if s.full len then
      match picks with
      | [] => none
      | pick :: picks =>
        let s := s.learnLimit len
        if pick < max 1 s.maxCacheCount ∧ pick < s.capacity then
          match s.slots pick with
          | none => evictLoop cur len picks tid s
          | some old =>
            if cur = some old then evictLoop cur len picks tid s
            else evictLoop cur len picks pick (s.evict pick old)
        else none
    else some (tid, s)

/-- `while (q_testcase_cache[tid] != NULL) ++tid;`. -/
def findFree (s : Cache) : ℕ → ℕ → Option ℕ
  | 0, _ => none
  | fuel + 1, tid =>
    if tid < s.capacity then
      match s.slots tid with
      | none => some tid
      | some _ => findFree s fuel (tid + 1)
    else none

/-- Register entry `q` as cached in slot `tid`. -/
def register (s : Cache) (q tid : ℕ) : Cache :=
  { s with
    testcaseBuf := Function.update s.testcaseBuf q true
    slots := Function.update s.slots tid (some q)
    cacheSize := (s.cacheSize + s.len q) % 2 ^ 64
    cacheCount := incU32 s.cacheCount
    maxCacheCount := if tid ≥ s.maxCacheCount then incU32 tid else s.maxCacheCount
    smallestFree := if tid ≥ s.maxCacheCount then s.smallestFree
      else if tid = s.smallestFree then incU32 tid else s.smallestFree }

/-- `queue_testcase_get(afl, q)`; `light` is `q->weight < 1.0`. -/
def queueTestcaseGet (s : Cache) (q : ℕ) (cur : Option ℕ) (light : Bool) (picks : List ℕ) :
    Option Cache :=
  if s.testcaseBuf q then some s
  else if light ∨ s.maxCacheSize = 0 then some s
  else do
    let (tid, s) ← evictLoop cur (s.len q) picks s.maxCacheCount s
    let tid := if tid ≥ s.maxCacheEntries then s.smallestFree else tid
    let tid ← s.findFree (s.capacity + 1) tid
    some (s.register q tid)

/-- `queue_testcase_store_mem(afl, q, mem)`. -/
def queueTestcaseStoreMem (s : Cache) (q : ℕ) (light : Bool) : Option Cache :=
  if light ∨ s.overflows (s.len q) ∨ s.cacheCount ≥ decU32 s.maxCacheEntries then some s
  else do
    let tid := if s.maxCacheCount ≥ s.maxCacheEntries then s.smallestFree else s.maxCacheCount
    let tid ← s.findFree (s.capacity + 1) tid
    some (s.register q tid)

/-- `q_testcase_cache_size += len - old_len`, where the difference is a `u32`. -/
def adjustSize (s : Cache) (len oldLen : ℕ) : Cache :=
  { s with cacheSize := (s.cacheSize + (len + (2 ^ 32 - oldLen)) % 2 ^ 32) % 2 ^ 64 }

/-- `queue_testcase_retake(afl, q, old_len)`. -/
def queueTestcaseRetake (s : Cache) (q oldLen : ℕ) : Cache :=
  if s.testcaseBuf q then
    if s.len q > oldLen ∨ (s.len q + 1024) % 2 ^ 32 < oldLen then s.adjustSize (s.len q) oldLen
    else s
  else s

/-- `queue_testcase_retake_mem(afl, q, in, len, old_len)`; `inPlace` is
`in == q->testcase_buf`. -/
def queueTestcaseRetakeMem (s : Cache) (q : ℕ) (inPlace : Bool) (len oldLen : ℕ) : Cache :=
  if s.testcaseBuf q ∧ !inPlace then
    if (len + 1024) % 2 ^ 32 < oldLen then s.adjustSize len oldLen else s
  else s

def setLen (s : Cache) (q len : ℕ) : Cache := { s with len := Function.update s.len q len }

/-! ## Runs -/

abbrev FileLen := Fin (maxFile + 1)

inductive Op
  /-- `add_to_queue` without caching, as for initial test cases. -/
  | add (len : FileLen)
  /-- `add_to_queue` followed by `queue_testcase_store_mem`, as in `save_if_interesting`. -/
  | addStored (len : FileLen) (light : Bool)
  | get (q : ℕ) (cur : Option ℕ) (light : Bool) (picks : List ℕ)
  /-- A trim that changed the length, written back through `queue_testcase_retake_mem`. -/
  | trim (q : ℕ) (len : FileLen) (inPlace : Bool)
  /-- A trim that was aborted after it had shortened the entry. -/
  | trimAborted (q : ℕ) (len : FileLen)
  /-- A custom trim, written back through `queue_testcase_retake`. -/
  | trimCustom (q : ℕ) (len : FileLen)

def addToQueue (s : Cache) (len : ℕ) : Cache :=
  { s with
    items := s.items + 1
    len := Function.update s.len s.items len
    testcaseBuf := Function.update s.testcaseBuf s.items false }

/-- Calls for entries that are not in the queue do not occur. -/
def step (s : Cache) : Op → Option Cache
  | .add len => some (s.addToQueue len.val)
  | .addStored len light => (s.addToQueue len.val).queueTestcaseStoreMem s.items light
  | .get q cur light picks =>
    if q < s.items then s.queueTestcaseGet q cur light picks else none
  | .trim q len inPlace =>
    if q < s.items then
      some ((s.setLen q len.val).queueTestcaseRetakeMem q inPlace len.val (s.len q))
    else none
  | .trimAborted q len => if q < s.items then some (s.setLen q len.val) else none
  | .trimCustom q len =>
    if q < s.items then some ((s.setLen q len.val).queueTestcaseRetake q (s.len q)) else none

def run (s : Cache) (ops : List Op) : Option Cache := ops.foldlM step s

/-- The cache as it is set up at start: all slots are there and empty. -/
def start (maxCacheSize : BitVec 64) (maxCacheEntries : BitVec 32) : Cache where
  capacity := maxCacheEntries.toNat
  maxCacheSize := maxCacheSize.toNat
  maxCacheEntries := maxCacheEntries.toNat

end Cache

end AflPlusPlus.TestcaseCache
