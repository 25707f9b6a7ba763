import AflPlusPlus.AliasSelection
import AflPlusPlus.CalculateScore

/-!
# The weights of the queue

The first half of `create_alias_table` weighs the entries and divides by the sum of the weights.
The sum is taken when the weights are computed, before `MMOPT` doubles the last of them. Weights are
exact here, with the logarithms as parameters.
-/

namespace AflPlusPlus.QueueWeights
open ByteWords CoverageMap FavoredSet Fuzzer AliasSelection

/-- The values of `log` and `log10` at positive integers. -/
structure Logs where
  log : ℕ → ℚ
  log10 : ℕ → ℚ
  log10_nonneg : ∀ n, 0 < n → 0 ≤ log10 n

/-- The part of `afl_state_t` that `create_alias_table` works on. -/
structure WeightState extends ScoreState where
  weight : ℕ → ℚ := fun _ => 0
  perfScore : ℕ → ℚ := fun _ => 0
  queuedDiscovered : ℕ := 0

/-! ## The factors -/

/-- A quotient of doubles. Divided by zero, a number is infinite or not a number, and in both
cases not below any bound. -/
def quotient (x y : ℚ) : Option ℚ := if y = 0 then none else some (x / y)

def below (r : Option ℚ) (bound : ℚ) : Bool := r.any (· < bound)

def atMost (r : Option ℚ) (bound : ℚ) : Bool := r.any (· ≤ bound)

def timeFactor (t : Option ℚ) : ℚ :=
  if below t (1 / 10) then 1
  else if atMost t (1 / 4) then 95 / 100
  else if atMost t (1 / 2) then 1
  else if atMost t (3 / 4) then 105 / 100
  else if atMost t 1 then 11 / 10
  else if below t (5 / 4) then 2 / 10
  else if atMost t (3 / 2) then 1
  else if atMost t 2 then 11 / 10
  else if atMost t (5 / 2) then 1
  else if atMost t 5 then 115 / 100
  else if atMost t 20 then 11 / 10
  else 1

def lenFactor (l : Option ℚ) : ℚ :=
  if below l (1 / 10) then 1 / 2
  else if atMost l (1 / 2) then 1
  else if atMost l (5 / 4) then 105 / 100
  else if atMost l (7 / 4) then 1
  else if atMost l 2 then 95 / 100
  else if atMost l 5 then 1
  else if atMost l 10 then 105 / 100
  else 115 / 100

def bitmapFactor (bms : Option ℚ) : ℚ :=
  if below bms (1 / 10) then 1 / 100
  else if atMost bms (1 / 4) then 55 / 100
  else if atMost bms (1 / 2) then 1
  else if atMost bms (3 / 4) then 12 / 10
  else if atMost bms (5 / 4) then 13 / 10
  else if atMost bms (7 / 4) then 125 / 100
  else if atMost bms 2 then 1
  else if atMost bms (5 / 2) then 13 / 10
  else 75 / 100

theorem timeFactor_pos (t : Option ℚ) : 0 < timeFactor t := by
  unfold timeFactor
  positivity

theorem lenFactor_pos (l : Option ℚ) : 0 < lenFactor l := by
  unfold lenFactor
  positivity

theorem bitmapFactor_pos (bms : Option ℚ) : 0 < bitmapFactor bms := by
  unfold bitmapFactor
  positivity

/-! ## The weight of an entry -/

/-- The averages over the entries that are not disabled. The one of the logarithms is minus
infinity, here without value, when there is an entry with an empty bitmap. -/
structure Averages where
  execUs : ℚ
  bitmapSize : Option ℚ
  len : ℚ

section Weights
variable (logs : Logs) (s : ScoreState)

def averages : Averages :=
  let entries := s.enabled.map s.queueBuf
  { execUs := (entries.map fun q => (q.execUs : ℚ)).sum / entries.length
    bitmapSize :=
      if entries.any fun q => q.bitmapSize = 0 then none
      else some ((entries.map fun q => logs.log q.bitmapSize).sum / entries.length)
    len := (entries.map fun q => (q.len : ℚ)).sum / entries.length }

def bitmapQuotient (avg : Averages) (bitmapSize : ℕ) : Option ℚ :=
  match avg.bitmapSize with
  | none => some 0
  | some avg => quotient bitmapSize avg

def entryWeight (avg : Averages) (i : ℕ) : ℚ :=
  let q := s.queueBuf i
  let weight : ℚ := 1
  let weight :=
    if Schedule.fast.value ≤ s.schedule.value ∧ s.schedule.value ≤ Schedule.rare.value then
      if s.hits i ≠ 0 then weight / (logs.log10 (s.hits i) + 1) else weight
    else weight
  let weight :=
    if s.schedule.value < Schedule.rare.value then
      weight * timeFactor (quotient q.execUs avg.execUs)
    else weight
  let weight := weight * lenFactor (quotient q.len avg.len)
  let weight := weight * bitmapFactor (bitmapQuotient avg q.bitmapSize)
  let weight := if q.wasFuzzed then weight else weight * (5 / 2)
  if q.fsRedundant then weight * (3 / 4) else weight

theorem entryWeight_pos (avg : Averages) (i : ℕ) : 0 < entryWeight logs s avg i := by
  have htime := timeFactor_pos (quotient (s.queueBuf i).execUs avg.execUs)
  have hlen := lenFactor_pos (quotient (s.queueBuf i).len avg.len)
  have hbitmap := bitmapFactor_pos (bitmapQuotient avg (s.queueBuf i).bitmapSize)
  have hlog : s.hits i ≠ 0 → 0 < logs.log10 (s.hits i) + 1 := fun h => by
    have := logs.log10_nonneg _ (Nat.pos_of_ne_zero h)
    linarith
  unfold entryWeight
  dsimp only
  have hfirst : 0 < if Schedule.fast.value ≤ s.schedule.value ∧
      s.schedule.value ≤ Schedule.rare.value then
        if s.hits i ≠ 0 then (1 : ℚ) / (logs.log10 (s.hits i) + 1) else 1
      else 1 := by
    split_ifs with _ hhits
    exacts [div_pos one_pos (hlog hhits), one_pos, one_pos]
  split_ifs at hfirst ⊢ <;> positivity

end Weights

/-! ## The probabilities -/

namespace WeightState

/-- One entry in the loop of the schedules before `RARE`. -/
def weighEntry (p : Platform) (logs : Logs) (avg : Averages) (r : WeightState × ℚ) (i : ℕ) :
    Except ScoreStop (WeightState × ℚ) :=
  let (s, sum) := r
  if (s.queueBuf i).disabled then .ok (s, sum)
  else do
    let weight := entryWeight logs s.toScoreState avg i
    let (perfScore, t) ← s.toScoreState.calculateScore p i
    return ({ s with
      toScoreState := t
      weight := Function.update s.weight i weight
      perfScore := Function.update s.perfScore i perfScore }, sum + weight)

/-- One entry in the loop of the other schedules. -/
def scoreEntry (p : Platform) (r : WeightState × ℚ) (i : ℕ) : Except ScoreStop (WeightState × ℚ) :=
  let (s, sum) := r
  if (s.queueBuf i).disabled then .ok (s, sum)
  else do
    let (perfScore, t) ← s.toScoreState.calculateScore p i
    return ({ s with
      toScoreState := t
      perfScore := Function.update s.perfScore i perfScore }, sum + perfScore)

/-- The entries `n - cnt` to `n - 1` of `MMOPT`. -/
def lastDiscovered (s : WeightState) : List ℕ :=
  if s.schedule = .mmopt ∧ s.queuedDiscovered ≠ 0 then
    let cnt := if s.queuedDiscovered ≥ 5 then 5 else s.queuedDiscovered
    let start := (s.queuedItems + 2 ^ 32 - cnt) % 2 ^ 32
    List.range' start (s.queuedItems - start)
  else []

def doubleWeight (s : WeightState) (i : ℕ) : WeightState :=
  if (s.queueBuf i).disabled then s
  else { s with weight := Function.update s.weight i (s.weight i * 2) }

/-- The array `P`, from what the entries weigh and the sum. -/
def scaled (s : WeightState) (final : ℕ → ℚ) (sum : ℚ) (i : ℕ) : ℚ :=
  if (s.queueBuf i).disabled then 0 else final i * s.queuedItems / sum

/-- What an entry weighs in the end. -/
def finalWeight (s : WeightState) : ℕ → ℚ :=
  if s.schedule.value < Schedule.rare.value then s.weight else s.perfScore

/-- The first half of `create_alias_table`. -/
def probabilities (p : Platform) (logs : Logs) (s : WeightState) :
    Except ScoreStop (WeightState × (ℕ → ℚ)) :=
  if s.schedule.value < Schedule.rare.value then do
    let avg := averages logs s.toScoreState
    let (s, sum) ← (List.range s.queuedItems).foldlM (weighEntry p logs avg) (s, 0)
    let s := s.lastDiscovered.foldl doubleWeight s
    return (s, s.scaled s.weight sum)
  else do
    let (s, sum) ← (List.range s.queuedItems).foldlM (scoreEntry p) (s, 0)
    return (s, s.scaled s.perfScore sum)

/-- The whole of `create_alias_table`, with the state and the table. -/
def createAliasTable (p : Platform) (logs : Logs) (fuel : ℕ) (s : WeightState) :
    Except ScoreStop (WeightState × Option TableState) := do
  let (s, P) ← s.probabilities p logs
  return ({ s with reinitTable := false }, fillAliasTable fuel s.queuedItems P)

end WeightState

end AflPlusPlus.QueueWeights
