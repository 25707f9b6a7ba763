import AflPlusPlus.PersistentRecord

/-!
# A dump replays the child

The ring always holds the inputs that have been recorded last for the child. They are what the
child has executed when each of its runs follows exactly one recorded write.
-/

namespace AflPlusPlus.PersistentRecord

open ByteBuffers RingTables TransitionSystems

variable {cfg : Config} {s t : State}

/-- The buffers that have been recorded. -/
def recorded (writes : List Write) : List Buffer :=
  writes.filterMap fun
    | .testcase buf => some buf
    | .withGap .. | .fuzzSend _ => none

/-- The input of the run was written once, recorded as the target found it, and is not empty. A new
child has a new process id. -/
def Execution.Recorded (cfg : Config) (e : Execution) : Prop :=
  (∃ buf, e.writes = [.testcase buf] ∧ (cfg.useShmemFuzz = true → buf.length ≤ maxFile)) ∧
    e.input ≠ [] ∧ e.reusedPid = false

/-- A cell holds a buffer that has been recorded. -/
def Cell.Has (buf : Buffer) (c : Cell) : Prop := c = { data := some buf, len := buf.length }

/-- A cell that is not dumped. -/
def Cell.Vacant (c : Cell) : Prop := c.len = 0

/-- The ring holds the buffers `before` and those of the writes since the last run, and the next
record comes after them. -/
structure State.Ring (cfg : Config) (s : State) (start : ℕ) (before : List Buffer) : Prop where
  cells : Contains Cell.Has Cell.Vacant cfg.persistentRecord start s.cells
    (before ++ recorded s.writes)
  idx : s.idx = (start + (before ++ recorded s.writes).length) % cfg.persistentRecord

/-- What holds in every state. When all inputs of the child have been recorded, they are in the
ring before those that have been written since. -/
structure State.Inv (cfg : Config) (s : State) : Prop where
  ring : ∃ start before, s.Ring cfg start before ∧
    ((∀ e ∈ s.executions, e.Recorded cfg) → before = s.executions.map Execution.input)
  input : ∀ w, s.writes = [w] → s.input = w.delivered cfg
  child : ∀ pid, s.child = some pid → s.pid = pid

theorem State.Inv.start : ({} : State).Inv cfg where
  ring := ⟨0, [], ⟨⟨holds_nil, fun _ _ _ => rfl⟩, (Nat.zero_mod _).symm⟩, fun _ => rfl⟩
  input := nofun
  child := nofun

theorem Config.pos (cfg : Config) : 0 < cfg.persistentRecord := by
  have := cfg.two_le
  omega

theorem State.Ring.idx_lt {start : ℕ} {before : List Buffer} (h : s.Ring cfg start before) :
    s.idx < cfg.persistentRecord := by
  rw [h.idx]
  exact Nat.mod_lt _ cfg.pos

theorem recorded_append_singleton (writes : List Write) (w : Write) :
    recorded (writes ++ [w]) = recorded writes ++ recorded [w] := List.filterMap_append

/-- A write puts what it records into the next cell. -/
theorem State.Ring.write {start : ℕ} {before : List Buffer} (h : s.Ring cfg start before)
    (w : Write) : (s.write cfg w).Ring cfg start before := by
  cases w with
  | testcase buf =>
    have hlt := h.idx_lt
    refine ⟨?_, ?_⟩
    · simp only [State.write, recorded_append_singleton]
      rw [← List.append_assoc, h.idx]
      exact h.cells.push rfl
    · simp only [State.write, recorded_append_singleton]
      rw [next_eq_mod hlt, h.idx, Nat.mod_add_mod, ← List.append_assoc]
      simp [recorded, Nat.add_assoc]
  | withGap mem skipAt skipLen postProcess =>
    refine ⟨?_, ?_⟩
    · simpa [State.write, recorded_append_singleton, recorded] using h.cells
    · simpa [State.write, recorded_append_singleton, recorded] using h.idx
  | fuzzSend buf =>
    refine ⟨?_, ?_⟩
    · simpa [State.write, recorded_append_singleton, recorded] using h.cells
    · simpa [State.write, recorded_append_singleton, recorded] using h.idx

theorem State.write_frame (cfg : Config) (s : State) (w : Write) :
    (s.write cfg w).input = w.delivered cfg ∧ (s.write cfg w).writes = s.writes ++ [w] ∧
      (s.write cfg w).executions = s.executions ∧ (s.write cfg w).child = s.child ∧
      (s.write cfg w).pid = s.pid := by
  cases w <;> exact ⟨rfl, rfl, rfl, rfl, rfl⟩

theorem State.Inv.write (h : s.Inv cfg) (w : Write) : (s.write cfg w).Inv cfg := by
  obtain ⟨start, before, hring, hbefore⟩ := h.ring
  obtain ⟨hinput, hwrites, hexecutions, hchild, hpid⟩ := State.write_frame cfg s w
  refine ⟨⟨start, before, hring.write w, by rwa [hexecutions]⟩, fun w' hw' => ?_, ?_⟩
  · rw [hwrites] at hw'
    have hlast : w = w' := by
      have := congrArg List.getLast? hw'
      simpa using this
    rw [hinput, hlast]
  · rw [hchild, hpid]
    exact h.child

/-- A new child keeps the last record only. -/
theorem State.Ring.childStarts {start : ℕ} {before : List Buffer} (h : s.Ring cfg start before)
    {pid : ℕ} (hpid : s.pid ≠ pid) :
    ∃ start' kept, (kept = [] ∨ ∃ buf, kept = [buf]) ∧
      (before ++ recorded s.writes).getLast? = kept.head? ∧
      ({ s.childStarts cfg pid with writes := [] } : State).Ring cfg start' kept := by
  have hpos := cfg.pos
  have hlt := h.idx_lt
  rcases List.eq_nil_or_concat' (before ++ recorded s.writes) with hnil | ⟨init, buf, hlast⟩
  · refine ⟨s.idx, [], .inl rfl, by rw [hnil]; rfl, ⟨holds_nil, fun p _ hp => ?_⟩, ?_⟩
    · have hcells := h.cells
      rw [hnil] at hcells
      rw [State.childStarts, if_pos hpid]
      dsimp only [Cell.Vacant]
      split_ifs
      · exact hcells.vacant_of_nil (Nat.mod_lt _ hpos)
      · rfl
    · rw [State.childStarts, if_pos hpid]
      exact (Nat.mod_eq_of_lt hlt).symm
  · have hidx := h.idx
    have hcells := h.cells
    rw [hlast] at hidx hcells
    rw [List.length_append, List.length_singleton, ← Nat.add_assoc] at hidx
    have hlastIdx : s.lastIdx cfg = (start + init.length) % cfg.persistentRecord := by
      rw [State.lastIdx, hidx]
      exact last_eq_mod hpos
    refine ⟨(start + init.length) % cfg.persistentRecord, [buf], .inr ⟨buf, rfl⟩,
      by rw [hlast]; simp, ?_, ?_⟩
    · refine hcells.keepLast hpos ?_ fun j hj => ?_
      · rw [State.childStarts, if_pos hpid, hlastIdx]
        exact if_pos rfl
      · rw [State.childStarts, if_pos hpid, hlastIdx]
        dsimp only
        rw [if_neg hj]
        rfl
    · rw [State.childStarts, if_pos hpid]
      dsimp only
      rw [hidx, Nat.mod_add_mod]
      rfl

theorem State.childStarts_frame (cfg : Config) (s : State) (pid : ℕ) :
    (s.childStarts cfg pid).pid = pid ∧ (s.childStarts cfg pid).idx = s.idx := by
  unfold State.childStarts
  split_ifs with h
  · exact ⟨rfl, rfl⟩
  · exact ⟨not_not.mp h, rfl⟩

/-- At the beginning of a run the ring holds what the child has executed, with the input of the
run, when all of it has been recorded. -/
theorem State.Inv.beginRun (h : s.Inv cfg) {fresh : Bool} {pid : ℕ}
    (hchild : fresh = false → s.child = some pid) :
    ∃ start before, (s.beginRun cfg fresh pid).Ring cfg start before ∧
      ((∀ e ∈ (s.beginRun cfg fresh pid).executions, e.Recorded cfg) →
        before = (s.beginRun cfg fresh pid).executions.map Execution.input) := by
  obtain ⟨start, before, hring, hbefore⟩ := h.ring
  -- a recorded execution is the last record
  have hlast : ∀ reused, Execution.Recorded cfg ⟨s.input, s.writes, reused⟩ →
      recorded s.writes = [s.input] ∧ reused = false := by
    rintro reused ⟨⟨buf, hwrites, hlen⟩, -, hreused⟩
    have hinput := h.input _ hwrites
    have hdelivered : Write.delivered cfg (.testcase buf) = buf := by
      unfold Write.delivered
      split_ifs with hshmem
      · exact List.take_of_length_le (hlen hshmem)
      · rfl
    dsimp only at hwrites hreused
    rw [hwrites, hinput, hdelivered]
    exact ⟨rfl, hreused⟩
  by_cases hpid : s.pid = pid
  · have hstarts : s.childStarts cfg pid = s := if_neg (not_not.mpr hpid)
    refine ⟨start, before ++ recorded s.writes, ⟨?_, ?_⟩, fun hrec => ?_⟩
    · simpa [State.beginRun, hstarts, recorded] using hring.cells
    · simpa [State.beginRun, hstarts, recorded] using hring.idx
    · simp only [State.beginRun] at hrec ⊢
      cases fresh with
      | true =>
        have hreused := (hlast _ (hrec _ List.mem_cons_self)).2
        simp [hpid] at hreused
      | false =>
        simp only [Bool.false_eq_true, if_false] at hrec ⊢
        rw [hbefore fun e he => hrec e (List.mem_append_left _ he),
          (hlast _ (hrec _ (List.mem_append_right _ List.mem_cons_self))).1, List.map_append]
        rfl
  · have hfresh : fresh = true := by
      by_contra hfresh
      exact hpid (h.child pid (hchild (Bool.not_eq_true _ ▸ hfresh)))
    obtain ⟨start', kept, hkept, hhead, hring'⟩ := hring.childStarts hpid
    refine ⟨start', kept, ⟨hring'.cells, hring'.idx⟩, fun hrec => ?_⟩
    simp only [State.beginRun, hfresh, if_true] at hrec ⊢
    rw [(hlast _ (hrec _ List.mem_cons_self)).1, List.getLast?_append, List.getLast?_singleton,
      Option.some_or] at hhead
    rcases hkept with rfl | ⟨buf, rfl⟩
    · exact absurd hhead (by simp)
    · simpa using hhead.symm

theorem State.endRun_frame (cfg : Config) (s : State) (pid : ℕ) (result : Result) :
    (s.endRun cfg pid result).cells = s.cells ∧ (s.endRun cfg pid result).idx = s.idx ∧
      (s.endRun cfg pid result).writes = s.writes ∧
      (s.endRun cfg pid result).executions = s.executions ∧
      (s.endRun cfg pid result).pid = s.pid ∧
      (s.endRun cfg pid result).child = if result = .ok true then some pid else none := by
  cases result <;> exact ⟨rfl, rfl, rfl, rfl, rfl, rfl⟩

theorem State.Inv.step {a : Action} (h : s.Inv cfg) (ht : s.step cfg a = some t) : t.Inv cfg := by
  cases a with
  | write w =>
    obtain rfl := Option.some.inj ht
    exact h.write w
  | fsrvStart =>
    obtain rfl := Option.some.inj ht
    obtain ⟨start, before, hring, -⟩ := h.ring
    refine ⟨⟨s.idx, [], ⟨⟨holds_nil, fun _ _ _ => rfl⟩, ?_⟩, fun _ => rfl⟩, nofun, nofun⟩
    exact (Nat.mod_eq_of_lt hring.idx_lt).symm
  | runTarget fresh pid result =>
    simp only [State.step, State.runTarget] at ht
    split_ifs at ht with hguard
    obtain rfl := Option.some.inj ht
    have hchild : fresh = false → s.child = some pid := by
      intro hfresh
      by_contra hne
      exact hguard (.inr ⟨hfresh, hne⟩)
    obtain ⟨start, before, hring, hbefore⟩ := h.beginRun hchild
    obtain ⟨hcells, hidx, hwrites, hexecutions, hpid, hstopped⟩ :=
      State.endRun_frame cfg (s.beginRun cfg fresh pid) pid result
    refine ⟨⟨start, before, ⟨?_, ?_⟩, ?_⟩, ?_, ?_⟩
    · rw [hcells, hwrites]
      exact hring.cells
    · rw [hidx, hwrites]
      exact hring.idx
    · rwa [hexecutions]
    · rw [hwrites]
      nofun
    · intro p hp
      rw [hstopped] at hp
      split_ifs at hp
      obtain rfl := Option.some.inj hp
      rw [hpid]
      exact (State.childStarts_frame cfg s pid).1

/-- A dump has the records of the ring, the empty ones apart. -/
theorem State.Ring.records {start : ℕ} {before : List Buffer} (h : s.Ring cfg start before)
    (hwrites : s.writes = []) (hne : ∀ buf ∈ before, buf ≠ []) :
    s.records cfg = before.drop (before.length - cfg.persistentRecord) := by
  have hcells := h.cells
  have hidx := h.idx
  rw [hwrites, show recorded [] = [] from rfl, List.append_nil] at hcells hidx
  have hread := hcells.filterMap_range (f := Cell.stored)
    (g := fun buf => if buf = [] then none else some buf) (fun c hc => by
      rw [Cell.stored, show c.len = 0 from hc]
      rfl) (fun buf c hc => by
      rw [show c = _ from hc, Cell.stored]
      by_cases hbuf : buf = []
      · simp [hbuf]
      · simp [hbuf])
  simp only [State.records, hidx, Nat.add_mod_mod]
  rw [hread]
  refine (List.filterMap_congr fun buf hbuf => ?_).trans List.filterMap_some
  exact if_neg (hne buf (List.mem_of_mem_drop hbuf))

end AflPlusPlus.PersistentRecord
