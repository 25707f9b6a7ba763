import AflPlusPlus.Limits
import AflPlusPlus.SkimRefinement

/-!
# Life of the virgin map

The operations that write `virgin_bits`: the two scans of `afl-fuzz-bitmap.c`, the loop of
`calibrate_case` that marks variable bytes, and `input_to_state_stage`, which puts the map
of the start of the stage back, fuzzes the combined input on it, and merges the two maps.
-/

namespace AflPlusPlus.VirginMap
open ByteWords CoverageMap

/-- Every bit that is set in `a` is set in `b`. -/
def Below (a b : Mem) : Prop := ∀ i k, (a i).getLsbD k = true → (b i).getLsbD k = true

theorem Below.rfl {a : Mem} : Below a a := fun _ _ => id

theorem Below.trans {a b c : Mem} (h : Below a b) (h' : Below b c) : Below a c :=
  fun i k hk => h' i k (h i k hk)

/-- One iteration of the loop of `calibrate_case` over the bytes of two different traces,
on `var_bytes` and `virgin_bits`. -/
def variableByte (firstTrace traceBits : Mem) (s : Mem × Mem) (i : ℕ) : Mem × Mem :=
  if s.1 i = 0 ∧ firstTrace i ≠ traceBits i then
    (Function.update s.1 i 1, Function.update s.2 i 0)
  else s

def markVariable (g : MapGeometry) (firstTrace traceBits : Mem) (s : Mem × Mem) : Mem × Mem :=
  (List.range g.mapSize).foldl (variableByte firstTrace traceBits) s

/-- A write to `virgin_bits` outside `input_to_state_stage`. -/
inductive Update
  | hasNewBits (traceBits : Mem)
  | hasNewBitsUnclassified (impl : SkimImpl) (traceBits : Mem)
  | markVariable (varBytes firstTrace traceBits : Mem)

def Update.apply (g : MapGeometry) (virgin : Mem) : Update → Mem
  | .hasNewBits traceBits => (CoverageMap.hasNewBits g traceBits virgin).2
  | .hasNewBitsUnclassified impl traceBits =>
    match CoverageMap.hasNewBitsUnclassified impl g traceBits virgin with
    | some (_, _, virgin) => virgin
    | none => virgin
  | .markVariable varBytes firstTrace traceBits =>
    (VirginMap.markVariable g firstTrace traceBits (varBytes, virgin)).2

/-! ## The input-to-state stage -/

/-- What the stage uses of `afl_state_t`; `hitCnt` is `queued_items + saved_crashes`. -/
structure StageState where
  virginBits : Mem
  hitCnt : ℕ

/-- A part of the stage that executes inputs: the writes to `virgin_bits` its executions
make, how much `queued_items + saved_crashes` grows, and whether it asks to stop. -/
structure Phase where
  updates : List Update
  finds : ℕ
  failed : Bool

def Phase.run (g : MapGeometry) (p : Phase) (s : StageState) : StageState where
  virginBits := p.updates.foldl (Update.apply g) s.virginBits
  hitCnt := s.hitCnt + p.finds

/-- Everything a run of the stage reads besides the virgin map. -/
structure StageInput where
  /-- `queue_cur` has both a taint and a colorized input from an earlier run. -/
  colorCached : Bool
  colorization : Phase
  /-- Colorization found a taint. -/
  tainted : Bool
  /-- `common_fuzz_cmplog_stuff` asks to stop, on the original and on the colored input. -/
  cmplogFailsOrig : Bool
  cmplogFailsColored : Bool
  /-- The cmplog headers after both runs. -/
  headerHits : ℕ → ℕ
  headerIsIns : ℕ → Bool
  passFaileds : ℕ → ℕ
  passTotal : ℕ → ℕ
  colorized : Bool
  cmplogLvl : ℕ
  enableTransform : Bool
  /-- `cmp_fuzz` or `rtn_fuzz` of each site, and `its_fuzz` of the combined input. -/
  siteFuzz : ℕ → Phase
  itsFuzz : Phase

def cmpMapW : ℕ := 65536

def cmplogLvlMax : ℕ := 3

/-- The hits of a site after the first loop has disabled the sites that fail too often. -/
def StageInput.hits (e : StageInput) (k : ℕ) : ℕ :=
  if e.passFaileds k ≥ cmplogFailMax ∨ e.passTotal k ≥ cmplogFailMax then 0 else e.headerHits k

/-- Instruction sites are always fuzzed, routine sites depending on the level. -/
def StageInput.fuzzes (e : StageInput) (k : ℕ) : Bool :=
  e.headerIsIns k || !e.colorized || (e.cmplogLvl == cmplogLvlMax && e.enableTransform)

/-- The insertion loop. The flag is the `r` that the stage returns, 1 when a site stops it. -/
def siteLoop (g : MapGeometry) (e : StageInput) : List ℕ → StageState → ℕ × StageState
  | [], s => (0, s)
  | k :: ks, s =>
    if e.hits k = 0 then siteLoop g e ks s
    else if e.fuzzes k then
      let s := (e.siteFuzz k).run g s
      if (e.siteFuzz k).failed then (1, s) else siteLoop g e ks s
    else siteLoop g e ks s

def memcpy (dst src : Mem) (n : ℕ) : Mem := fun i => if i < n then src i else dst i

/-- The word loop that combines the map with the saved one. -/
def combineMaps (mapSize : ℕ) (virginBits virginSave : Mem) : Mem :=
  (List.range (mapSize >>> 3)).foldl (fun v i =>
    storeWord 8 v i (loadWord 8 v i &&& loadWord 8 virginSave i)) virginBits

/-- The part of the stage behind the label `exit_its`. -/
def exitIts (g : MapGeometry) (shmMapSize : ℕ) (e : StageInput) (virginBackup : Mem)
    (origHitCnt : ℕ) (s : StageState) : StageState :=
  if s.hitCnt > origHitCnt + 1 then
    let virginSave := memcpy (fun _ => 0) s.virginBits shmMapSize
    let s := { s with virginBits := memcpy s.virginBits virginBackup shmMapSize }
    let s := e.itsFuzz.run g s
    { s with virginBits := combineMaps shmMapSize s.virginBits virginSave }
  else s

/-- The stage from the generation of the cmplog data on. -/
def insertionStage (g : MapGeometry) (shmMapSize : ℕ) (e : StageInput) (s : StageState) :
    ℕ × StageState :=
  if e.cmplogFailsOrig then (1, s)
  else if e.cmplogFailsColored then (1, s)
  else
    let virginBackup := memcpy (fun _ => 0) s.virginBits shmMapSize
    let result := siteLoop g e (List.range cmpMapW) s
    (result.1, exitIts g shmMapSize e virginBackup s.hitCnt result.2)

def inputToStateStage (g : MapGeometry) (shmMapSize : ℕ) (e : StageInput) (s : StageState) :
    ℕ × StageState :=
  if e.colorCached then insertionStage g shmMapSize e s
  else
    let s := e.colorization.run g s
    if e.colorization.failed then (1, s)
    else if !e.tainted then (0, s)
    else insertionStage g shmMapSize e s

inductive Op
  | update (u : Update)
  | inputToStateStage (shmMapSize : ℕ) (e : StageInput)

def step (g : MapGeometry) (s : StageState) : Op → StageState
  | .update u => { s with virginBits := u.apply g s.virginBits }
  | .inputToStateStage shmMapSize e => (VirginMap.inputToStateStage g shmMapSize e s).2

def run (g : MapGeometry) (s : StageState) (ops : List Op) : StageState := ops.foldl (step g) s

/-! ## Bits are never set again -/

theorem hasNewBits_below (g : MapGeometry) (traceBits virgin : Mem) :
    Below (hasNewBits g traceBits virgin).2 virgin := by
  intro i k hk
  rw [(hasNewBits_scanned g traceBits virgin).virgin_eq] at hk
  split at hk
  · rw [BitVec.getLsbD_and, Bool.and_eq_true] at hk
    exact hk.1
  · exact hk

theorem hasNewBitsUnclassified_below (impl : SkimImpl) (g : MapGeometry)
    (traceBits virgin : Mem) {result : ℕ × Mem × Mem}
    (h : hasNewBitsUnclassified impl g traceBits virgin = some result) :
    Below result.2.2 virgin := by
  unfold hasNewBitsUnclassified at h
  split at h
  · exact absurd h nofun
  · cases h
    exact .rfl
  · cases h
    exact hasNewBits_below g (classifyCounts g traceBits) virgin

theorem variableByte_below (firstTrace traceBits : Mem) (s : Mem × Mem) (i : ℕ) :
    Below (variableByte firstTrace traceBits s i).2 s.2 := by
  unfold variableByte
  split
  · intro j k hk
    dsimp only at hk
    by_cases hj : j = i
    · simp [hj] at hk
    · rwa [Function.update_of_ne hj] at hk
  · exact .rfl

theorem markVariable_below (g : MapGeometry) (firstTrace traceBits : Mem) (s : Mem × Mem) :
    Below (markVariable g firstTrace traceBits s).2 s.2 :=
  List.foldlRecOn (motive := fun t : Mem × Mem => Below t.2 s.2) _ _ .rfl
    fun t ht i _ => (variableByte_below firstTrace traceBits t i).trans ht

theorem Update.apply_below (g : MapGeometry) (virgin : Mem) (u : Update) :
    Below (u.apply g virgin) virgin := by
  cases u with
  | hasNewBits traceBits => exact hasNewBits_below g traceBits virgin
  | hasNewBitsUnclassified impl traceBits =>
    unfold apply
    dsimp only
    split
    · exact hasNewBitsUnclassified_below impl g traceBits virgin ‹_›
    · exact .rfl
  | markVariable varBytes firstTrace traceBits =>
    exact markVariable_below g firstTrace traceBits (varBytes, virgin)

theorem Phase.run_below (g : MapGeometry) (p : Phase) (s : StageState) :
    Below (p.run g s).virginBits s.virginBits :=
  List.foldlRecOn (motive := fun v : Mem => Below v s.virginBits) _ _ .rfl
    fun v hv u _ => (u.apply_below g v).trans hv

theorem siteLoop_below (g : MapGeometry) (e : StageInput) (ks : List ℕ) (s : StageState) :
    Below (siteLoop g e ks s).2.virginBits s.virginBits := by
  induction ks generalizing s with
  | nil => exact .rfl
  | cons k ks ih =>
    have hphase := (e.siteFuzz k).run_below g s
    unfold siteLoop
    split
    · exact ih s
    · split
      · dsimp only
        split
        · exact hphase
        · exact (ih _).trans hphase
      · exact ih s

theorem combineMaps_below (mapSize : ℕ) (virginBits virginSave : Mem) :
    Below (combineMaps mapSize virginBits virginSave) virginBits := by
  refine List.foldlRecOn (motive := fun v : Mem => Below v virginBits) _ _ .rfl
    fun v hv i _ => Below.trans ?_ hv
  intro j k hk
  by_cases hj : j / 8 = i
  · have hmod : j % 8 < 8 := Nat.mod_lt j (by decide)
    have hdecomp : 8 * i + j % 8 = j := by
      rw [← hj]
      exact Nat.div_add_mod j 8
    rw [← hdecomp, storeWord_apply _ _ _ hmod, byteOf_and, byteOf_loadWord _ i hmod, hdecomp,
      BitVec.getLsbD_and, Bool.and_eq_true] at hk
    exact hk.1
  · rwa [storeWord_of_ne _ _ _ hj] at hk

/-- The map that is put back for `its_fuzz` is one the stage started from, so merging it
can only lose bits. -/
theorem exitIts_below (g : MapGeometry) (shmMapSize : ℕ) (e : StageInput) {origin : Mem}
    (origHitCnt : ℕ) {s : StageState} (hs : Below s.virginBits origin) :
    Below (exitIts g shmMapSize e (memcpy (fun _ => 0) origin shmMapSize) origHitCnt s).virginBits
      origin := by
  unfold exitIts
  split
  · refine (combineMaps_below _ _ _).trans ((Phase.run_below _ _ _).trans ?_)
    intro i k hk
    dsimp only [memcpy] at hk
    split at hk
    · exact hk
    · exact hs i k hk
  · exact hs

theorem insertionStage_below (g : MapGeometry) (shmMapSize : ℕ) (e : StageInput)
    (s : StageState) :
    Below (insertionStage g shmMapSize e s).2.virginBits s.virginBits := by
  have hloop := siteLoop_below g e (List.range cmpMapW) s
  unfold insertionStage
  split
  · exact .rfl
  · split
    · exact .rfl
    · generalize siteLoop g e (List.range cmpMapW) s = result at hloop
      exact exitIts_below g shmMapSize e s.hitCnt hloop

theorem inputToStateStage_below (g : MapGeometry) (shmMapSize : ℕ) (e : StageInput)
    (s : StageState) :
    Below (inputToStateStage g shmMapSize e s).2.virginBits s.virginBits := by
  have hcolor := e.colorization.run_below g s
  unfold inputToStateStage
  split
  · exact insertionStage_below g shmMapSize e s
  · dsimp only
    split
    · exact hcolor
    · split
      · exact hcolor
      · exact (insertionStage_below g shmMapSize e _).trans hcolor

theorem step_below (g : MapGeometry) (s : StageState) (op : Op) :
    Below (step g s op).virginBits s.virginBits := by
  cases op with
  | update u => exact u.apply_below g s.virginBits
  | inputToStateStage shmMapSize e => exact inputToStateStage_below g shmMapSize e s

theorem run_below (g : MapGeometry) (s : StageState) (ops : List Op) :
    Below (run g s ops).virginBits s.virginBits :=
  List.foldlRecOn (motive := fun t : StageState => Below t.virginBits s.virginBits) _ _ .rfl
    fun t ht op _ => (step_below g t op).trans ht

/-- Between any two points of a run no bit of `virgin_bits` goes from 0 to 1. -/
theorem run_virgin_monotone (g : MapGeometry) (s : StageState) (ops ops' : List Op) :
    Below (run g s (ops ++ ops')).virginBits (run g s ops).virginBits := by
  have happend : run g s (ops ++ ops') = run g (run g s ops) ops' :=
    List.foldl_append
  rw [happend]
  exact run_below g (run g s ops) ops'

end AflPlusPlus.VirginMap
