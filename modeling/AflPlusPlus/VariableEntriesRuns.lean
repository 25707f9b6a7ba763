import AflPlusPlus.VariableEntries

/-!
# Sequences of calibrations

The fuzzer calibrates entries when it loads them, when it finds them and again when calibration
failed. After any of it the counter of variable entries stands for marks that no entry has.
-/

namespace AflPlusPlus.Fuzzer
open ByteWords CoverageMap FavoredSet

namespace AflState

/-- What the rest of the fuzzer does between two calibrations, as far as entries are counted and
marked. New entries are not marked. -/
structure BetweenCalibrations (s t : AflState) : Prop where
  marks_eq : t.marks = s.marks
  queuedItems_le : s.queuedItems ≤ t.queuedItems

/-- The states that a sequence of calibrations reaches, with the entries for which one of them
observed variable behaviour. -/
inductive Calibrated (s : AflState) : Finset ℕ → AflState → Prop
  | start : Calibrated s ∅ s
  | other {observed t u} : Calibrated s observed t → BetweenCalibrations t u →
      Calibrated s observed u
  | same {observed t q} (cfg e handicap fromQueue) : Calibrated s observed t →
      q < t.queuedItems → t.observes cfg e q fromQueue = false →
      Calibrated s observed (t.calibrateCase cfg e q handicap fromQueue).2
  | varying {observed t q} (cfg e handicap fromQueue) : Calibrated s observed t →
      q < t.queuedItems → t.observes cfg e q fromQueue = true →
      Calibrated s (insert q observed) (t.calibrateCase cfg e q handicap fromQueue).2

/-- The count that fast resume rebuilds from the entries. -/
def rebuiltVariable (s : AflState) : ℕ :=
  (List.range s.queuedItems).countP (fun q => (s.queueBuf q).varBehavior)

/-- No entry is marked or counted yet. -/
structure NoneVariable (s : AflState) : Prop where
  queuedVariable_eq : s.queuedVariable = 0
  varBehavior_eq : ∀ q, (s.queueBuf q).varBehavior = false

variable {cfg : Config} {e : Environment} {s t : AflState} {observed : Finset ℕ}

theorem Calibrated.flags (h : Calibrated s observed t) : t.marks.2 = s.marks.2 := by
  induction h with
  | start => rfl
  | other _ hbetween ih => exact (congrArg Prod.snd hbetween.marks_eq).trans ih
  | same cfg e handicap fromQueue _ _ _ ih => rw [calibrateCase_marks, ih]
  | varying cfg e handicap fromQueue _ _ _ ih => rw [calibrateCase_marks, ih]

/-- No calibration marks an entry. -/
theorem Calibrated.unmarked (h : Calibrated s observed t) (hs : s.NoneVariable) (q : ℕ) :
    (t.queueBuf q).varBehavior = false :=
  (congrFun h.flags q).trans (hs.varBehavior_eq q)

/-- Calibrations that observe nothing count nothing. -/
theorem Calibrated.queuedVariable_eq (h : Calibrated s observed t) :
    observed = ∅ → t.queuedVariable = s.queuedVariable := by
  induction h with
  | start => exact fun _ => rfl
  | other _ hbetween ih =>
    exact fun hnone => (congrArg Prod.fst hbetween.marks_eq).trans (ih hnone)
  | same cfg e handicap fromQueue _ _ hobserves ih =>
    intro hnone
    refine (congrArg Prod.fst (calibrateCase_marks handicap fromQueue _)).trans ?_
    rw [hobserves, if_neg (by simp), ih hnone]
  | varying cfg e handicap fromQueue _ _ _ _ =>
    exact fun hnone => absurd hnone (Finset.insert_ne_empty _ _)

theorem rebuiltVariable_eq_zero (h : ∀ q, (t.queueBuf q).varBehavior = false) :
    t.rebuiltVariable = 0 := by
  rw [rebuiltVariable, List.countP_eq_zero]
  intro q _
  rw [h q]
  exact Bool.false_ne_true

theorem calibrated_counted_iff (h : Calibrated s observed t) (hs : s.NoneVariable) :
    (t.queuedVariable = observed.card ∧
      (∀ q, (t.queueBuf q).varBehavior = true ↔ q ∈ observed) ∧
      t.rebuiltVariable = t.queuedVariable) ↔ observed = ∅ := by
  have hflags := h.unmarked hs
  constructor
  · rintro ⟨-, hmarked, -⟩
    refine Finset.eq_empty_of_forall_notMem fun q hq => ?_
    exact Bool.false_ne_true ((hflags q).symm.trans ((hmarked q).mpr hq))
  · intro hnone
    have hcount : t.queuedVariable = 0 := (h.queuedVariable_eq hnone).trans hs.queuedVariable_eq
    refine ⟨?_, fun q => ?_, ?_⟩
    · rw [hcount, hnone, Finset.card_empty]
    · rw [hflags q, hnone]
      simp
    · rw [rebuiltVariable_eq_zero hflags, hcount]

/-- A queue with one entry. -/
def oneEntry : AflState where
  geometry := QueueState.emptyQueue.geometry
  queuedItems := 1

/-- A target with one edge, which the runs for which `twice` holds hit twice. -/
def edgeTarget (twice : ℕ → Bool) : Environment where
  target execs _ := ⟨.ok, fun i => if i = 0 then (if twice execs then 2 else 1) else 0, false⟩
  sanTarget _ _ := .ok
  writeToTestcase _ len _ := len
  diffUs _ := 1
  xxh3 bytes := (bytes.headD 0).setWidth 64

theorem oneEntry_noneVariable : oneEntry.NoneVariable := ⟨rfl, fun _ => rfl⟩

theorem oneEntry_completes (twice : ℕ → Bool) (first : Bool) (execs timeout : ℕ) :
    oneEntry.completes {} first ((edgeTarget twice).target execs timeout) = true := by
  have hcount : ∀ b : Bool,
      oneEntry.countBytes (fun i => if i = 0 then (if b then 2 else 1) else 0) ≠ 0 := by
    decide +kernel
  have hrun := bne_iff_ne.mpr (hcount (twice execs))
  change (false || !first || oneEntry.countBytes
    (fun i => if i = 0 then (if twice execs then 2 else 1) else 0) != 0) = true
  rw [Bool.false_or, hrun, Bool.or_true]

theorem oneEntry_cycleChecksums (twice : ℕ → Bool) (timeout execs stageCur n : ℕ) :
    oneEntry.cycleChecksums {} (edgeTarget twice) timeout execs stageCur n =
      (List.range' execs n).map (fun k => if twice k then 2 else 1) := by
  have hhash : ∀ mem, oneEntry.hash64 (edgeTarget twice) (classifyCounts oneEntry.geometry mem) =
      (countClassLookup8 (mem 0)).setWidth 64 := by
    intro mem
    change (classifyCounts oneEntry.geometry mem 0).setWidth 64 = _
    rw [classifyCounts_apply, if_pos (by decide)]
  induction n generalizing execs stageCur with
  | zero => rfl
  | succ n ih =>
    rw [cycleChecksums, oneEntry_completes, if_pos rfl, hhash, ih, List.range'_succ, List.map_cons]
    congr 1
    change (countClassLookup8 (if twice execs then 2 else 1)).setWidth 64 = _
    cases twice execs <;> rfl

theorem oneEntry_observes (twice : ℕ → Bool) : oneEntry.observes {} (edgeTarget twice) 0 true =
    differ (0 :: (List.range' 0 calCycles).map (fun k => if twice k then 2 else 1)) := by
  rw [observes, calibrationChecksums, if_neg (by simp), oneEntry_cycleChecksums]
  rfl

theorem varying_entry_unmarked : ¬ ∀ (s t : AflState) (observed : Finset ℕ), s.NoneVariable →
    Calibrated s observed t → t.queuedVariable = observed.card ∧
      (∀ q, (t.queueBuf q).varBehavior = true ↔ q ∈ observed) ∧
      t.rebuiltVariable = t.queuedVariable := by
  intro hclaim
  have hobserves : oneEntry.observes {} (edgeTarget (· = 3)) 0 true = true := by
    rw [oneEntry_observes]
    decide +kernel
  have hrun := Calibrated.varying {} (edgeTarget (· = 3)) 0 true Calibrated.start Nat.zero_lt_one
    hobserves
  obtain ⟨-, hmarked, -⟩ := hclaim oneEntry _ _ oneEntry_noneVariable hrun
  have hflag := (hmarked 0).mpr (Finset.mem_insert_self _ _)
  rw [hrun.unmarked oneEntry_noneVariable] at hflag
  exact Bool.false_ne_true hflag

theorem calibrated_counted_steady :
    ((oneEntry.calibrateCase {} (edgeTarget fun _ => false) 0 0 true).2.queuedVariable =
        (∅ : Finset ℕ).card ∧
      (∀ q, ((oneEntry.calibrateCase {} (edgeTarget fun _ => false) 0 0 true).2.queueBuf
        q).varBehavior = true ↔ q ∈ (∅ : Finset ℕ)) ∧
      (oneEntry.calibrateCase {} (edgeTarget fun _ => false) 0 0 true).2.rebuiltVariable =
        (oneEntry.calibrateCase {} (edgeTarget fun _ => false) 0 0 true).2.queuedVariable) ↔
      (∅ : Finset ℕ) = ∅ := by
  have hobserves : oneEntry.observes {} (edgeTarget fun _ => false) 0 true = false := by
    rw [oneEntry_observes]
    decide +kernel
  exact calibrated_counted_iff
    (Calibrated.same {} (edgeTarget fun _ => false) 0 true Calibrated.start Nat.zero_lt_one
      hobserves) oneEntry_noneVariable

end AflState

end AflPlusPlus.Fuzzer
