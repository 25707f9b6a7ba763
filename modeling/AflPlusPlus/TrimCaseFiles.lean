import AflPlusPlus.TrimCaseCustom

/-!
# The file of a trimmed entry

All of `trim_case`: the custom mutators that trim, the loops, and the new file that is written
when something was deleted. An execution that is interrupted leaves the loops without the new
file; when a chunk was deleted before, the length of the entry is not that of its file any
more.
-/

namespace AflPlusPlus.Trimming
open ByteWords CoverageMap ListBlocks TransitionSystems
open Fuzzer (Fault)

/-- The loop of the `AFL_NO_UNLINK` branch, when `write` returns the results in turn: every call
passes the start of the buffer. -/
def noUnlinkWrite (buf : List Byte) : ℕ → List ℤ → Option (List Byte)
  | written, [] => if written < buf.length then none else some []
  | written, result :: results =>
    if written < buf.length then
      (noUnlinkWrite buf (written + result.toNat) results).map (buf.take result.toNat ++ ·)
    else some []

/-- The post-processing before the new file is written, which may replace `in_buf`. -/
def LoopState.prepareWrite (afl : Afl) (s : LoopState) : LoopState :=
  if afl.customMutators ≠ [] ∧ ¬afl.postProcessKeepOriginal then
    let newMem := afl.postProcess s.content
    if newMem = [] ∨ afl.customMutators.all (·.customPostProcess.isNone) then
      { s with len := afl.clampSize s.len }
    else
      let newSize := afl.clampSize newMem.length
      { s with len := newSize, inBuf := afl.read newMem newSize }
  else s

/-- The execution is stopped or fails. -/
def LoopAction.Interrupted : LoopAction → Prop
  | .execute stopSoon fault => stopSoon ∨ fault = .error
  | .nextRound => False

/-- Where `trim_case` is; the first phase counts the mutators that still trim. -/
inductive CasePhase
  | customTrims (count : ℕ)
  | loops
  | writeBack
  | returned
  deriving DecidableEq

/-- The state of `trim_case` with the queue file. -/
structure CaseState where
  loop : LoopState
  file : List Byte
  phase : CasePhase

inductive CaseAction
  | customTrim (retval : ℤ) (actions : List CustomAction)
  | loop (action : LoopAction)
  | writeBack (writes : List ℤ)

namespace CaseState

/-- `in_buf[0..q->len)`. -/
def content (afl : Afl) (s : CaseState) : List Byte := afl.read s.loop.inBuf s.loop.len

/-- What follows when the loops are left. -/
def leaveLoops (file : List Byte) (loop : LoopState) : CaseState where
  loop := loop
  file := file
  phase := match loop.status with
    | .running => .loops
    | .finished => if loop.needsWrite then .writeBack else .returned
    | .aborted => .returned

/-- The buffer holds the queue file. -/
def start (afl : Afl) (file : List Byte) : CaseState :=
  let count := afl.customMutators.countP (·.customTrim)
  if 0 < count then
    { loop := LoopState.start file file.length, file := file, phase := .customTrims count }
  else leaveLoops file (LoopState.start file file.length)

/-- The file that `trim_case` writes. -/
def writeFile (afl : Afl) (buf : List Byte) (writes : List ℤ) : Option (List Byte) :=
  if afl.noUnlink then noUnlinkWrite buf 0 writes else ckWrite buf writes

def step (afl : Afl) (execCksum : BitVec 64) (s : CaseState) : CaseAction → Option CaseState
  | .customTrim retval actions =>
    match s.phase with
    | .customTrims (count + 1) =>
      (run (CustomState.step afl execCksum) (CustomState.start s.file s.loop.len retval)
          actions).bind fun c =>
        if c.status = .running then none
        else some
          { loop := { s.loop with len := c.len, fault := c.fault }
            file := c.file
            phase := if count = 0 then .returned else .customTrims count }
    | _ => none
  | .loop action =>
    if s.phase = .loops then (s.loop.step afl execCksum action).map (leaveLoops s.file) else none
  | .writeBack writes =>
    if s.phase = .writeBack then
      let loop := s.loop.prepareWrite afl
      (writeFile afl (afl.read loop.inBuf loop.len) writes).map fun file =>
        { loop := loop, file := file, phase := .returned }
    else none

/-- No call for the new file takes more than it was asked for, and the files of custom mutators are
written to the end. -/
def WritesGranted (afl : Afl) (execCksum : BitVec 64) (s : CaseState) : CaseAction → Prop
  | .customTrim retval actions => Along (CustomState.step afl execCksum) CustomState.WritesComplete
      (CustomState.start s.file s.loop.len retval) actions
  | .loop _ => True
  | .writeBack writes => Granted (s.loop.prepareWrite afl).len 0 writes

end CaseState

/-! ## Writing with short writes -/

/-- Every result is between one and what was asked for, until all is written. -/
def ShortWrites (size : ℕ) : ℕ → List ℤ → Prop
  | written, [] => written = size
  | written, result :: results => 1 ≤ result ∧ written + result ≤ size ∧
    ShortWrites size (written + result.toNat) results

/-- Every piece that a call takes is the same as the start of the buffer. -/
def PiecesRepeat (buf : List Byte) : ℕ → List ℤ → Prop
  | _, [] => True
  | written, result :: results => (buf.drop written).take result.toNat = buf.take result.toNat ∧
    PiecesRepeat buf (written + result.toNat) results

theorem ShortWrites.granted {size written : ℕ} {results : List ℤ}
    (h : ShortWrites size written results) : Granted size written results := by
  induction results generalizing written with
  | nil => trivial
  | cons result results ih => exact ⟨h.2.1, ih h.2.2⟩

section NoUnlinkWrite
variable {buf file : List Byte} {results : List ℤ} {written : ℕ}

/-- Calls that take all of the buffer end the loop. -/
theorem noUnlinkWrite_ends (h : ShortWrites buf.length written results) :
    ∃ file, noUnlinkWrite buf written results = some file := by
  induction results generalizing written with
  | nil =>
    obtain rfl : written = buf.length := h
    exact ⟨[], if_neg (Nat.lt_irrefl _)⟩
  | cons result results ih =>
    obtain ⟨hpos, hle, hrest⟩ := h
    obtain ⟨file, hfile⟩ := ih hrest
    refine ⟨buf.take result.toNat ++ file, ?_⟩
    rw [noUnlinkWrite, if_pos (by omega), hfile, Option.map_some]

/-- Calls that come after the end take nothing. -/
theorem piecesRepeat_of_granted (hgranted : Granted buf.length buf.length results) :
    PiecesRepeat buf buf.length results := by
  induction results with
  | nil => trivial
  | cons result results ih =>
    obtain ⟨hle, hrest⟩ := hgranted
    have hnone : result.toNat = 0 := by omega
    rw [hnone, Nat.add_zero] at hrest
    rw [PiecesRepeat, hnone, Nat.add_zero]
    exact ⟨rfl, ih hrest⟩

theorem noUnlinkWrite_iff (hwritten : written ≤ buf.length)
    (hgranted : Granted buf.length written results)
    (h : noUnlinkWrite buf written results = some file) :
    file = buf.drop written ↔ PiecesRepeat buf written results := by
  induction results generalizing written file with
  | nil =>
    rw [noUnlinkWrite] at h
    split at h
    · exact absurd h (by simp)
    · rw [← Option.some.inj h, List.drop_of_length_le (by omega)]
      exact iff_of_true rfl trivial
  | cons result results ih =>
    rcases hwritten.lt_or_eq with hlt | rfl
    · obtain ⟨hle, hrest⟩ := hgranted
      rw [noUnlinkWrite, if_pos hlt] at h
      obtain ⟨rest, hfile, rfl⟩ := Option.map_eq_some_iff.mp h
      rw [PiecesRepeat, ← ih (by omega) hrest hfile]
      have hsplit : buf.drop written =
          (buf.drop written).take result.toNat ++ buf.drop (written + result.toNat) := by
        rw [← List.drop_drop, List.take_append_drop]
      have hlen : (buf.take result.toNat).length =
          ((buf.drop written).take result.toNat).length := by
        rw [List.length_take, List.length_take, List.length_drop]
        omega
      constructor
      · intro h
        obtain ⟨hpiece, htail⟩ := List.append_inj (h.trans hsplit) hlen
        exact ⟨hpiece.symm, htail⟩
      · rintro ⟨hpiece, htail⟩
        rw [htail, ← hpiece]
        exact hsplit.symm
    · rw [noUnlinkWrite, if_neg (Nat.lt_irrefl _)] at h
      rw [← Option.some.inj h, List.drop_length]
      exact iff_of_true rfl (piecesRepeat_of_granted hgranted)

end NoUnlinkWrite

namespace CaseState

variable {afl : Afl} {execCksum : BitVec 64} {s t : CaseState}

/-- The results of the `write` calls leave the file with the buffer. -/
def Writes (afl : Afl) (buf : List Byte) (writes : List ℤ) : Prop :=
  if afl.noUnlink then PiecesRepeat buf 0 writes else Completes buf.length writes

/-- The step is no execution that is interrupted after a chunk was deleted, and the new file is
written as it should. -/
def KeepsFile (afl : Afl) (s : CaseState) : CaseAction → Prop
  | .customTrim _ _ => True
  | .loop action => s.loop.needsWrite = true → ¬action.Interrupted
  | .writeBack writes =>
    let loop := s.loop.prepareWrite afl
    Writes afl (afl.read loop.inBuf loop.len) writes

theorem writeFile_iff {buf file : List Byte} {writes : List ℤ}
    (hgranted : Granted buf.length 0 writes) (h : writeFile afl buf writes = some file) :
    file = buf ↔ Writes afl buf writes := by
  unfold Writes
  by_cases hunlink : afl.noUnlink = true
  · rw [writeFile, if_pos hunlink] at h
    rw [if_pos hunlink]
    exact noUnlinkWrite_iff (Nat.zero_le _) hgranted h
  · rw [writeFile, if_neg hunlink] at h
    rw [if_neg hunlink]
    exact ckWrite_iff hgranted h

end CaseState

/-- In the `AFL_NO_UNLINK` branch, short writes leave the file with the buffer exactly when each
call happens to take what stands at the start of the buffer as well. -/
theorem noUnlink_writeBack_iff (afl : Afl) (execCksum : BitVec 64) (s : CaseState)
    (hphase : s.phase = .writeBack) (hunlink : afl.noUnlink = true) (writes : List ℤ)
    (hshort : ShortWrites (s.loop.prepareWrite afl).len 0 writes) :
    ∃ t, s.step afl execCksum (.writeBack writes) = some t ∧ t.phase = .returned ∧
      (t.file = t.content afl ↔ PiecesRepeat (t.content afl) 0 writes) := by
  have hlen := afl.length_read (s.loop.prepareWrite afl).inBuf (s.loop.prepareWrite afl).len
  rw [← hlen] at hshort
  obtain ⟨file, hfile⟩ := noUnlinkWrite_ends hshort
  have hiff := noUnlinkWrite_iff (Nat.zero_le _) hshort.granted hfile
  refine ⟨⟨s.loop.prepareWrite afl, file, .returned⟩, ?_, rfl, ?_⟩
  · have hwrite : CaseState.writeFile afl (afl.read (s.loop.prepareWrite afl).inBuf
        (s.loop.prepareWrite afl).len) writes = some file := (if_pos hunlink).trans hfile
    rw [CaseState.step, if_pos hphase]
    dsimp only
    rw [hwrite, Option.map_some]
  · rw [List.drop_zero] at hiff
    exact hiff

/-! ## What is in the file when `trim_case` returns -/

theorem Afl.read_length (afl : Afl) (mem : List Byte) : afl.read mem mem.length = mem := by
  refine List.ext_getElem (afl.length_read _ _) fun i hi hi' => ?_
  simp [Afl.read, hi']

namespace LoopState

variable {afl : Afl} {execCksum : BitVec 64} {s t : LoopState}

/-- A deletion is recorded and makes the buffer shorter than the file. -/
structure Ahead (file : List Byte) (s : LoopState) : Prop where
  len_le : s.len ≤ s.inBuf.length
  removeLen_pos : s.status = .running → 0 < s.removeLen
  deleted : s.needsWrite = true → s.len < file.length
  kept : s.needsWrite = false → s.inBuf = file ∧ s.len = file.length

variable {file : List Byte}

theorem Ahead.enterRound (h : Ahead file { s with status := .finished }) (removeLen : ℕ) :
    (s.enterRound removeLen).Ahead file := by
  unfold LoopState.enterRound
  split
  · next hround =>
    have hmin : trimMinBytes = 4 := rfl
    exact { h with removeLen_pos := fun _ => by dsimp only; omega }
  · exact { h with removeLen_pos := nofun }

theorem Ahead.start (file : List Byte) : (LoopState.start file file.length).Ahead file := by
  have hfinished : ∀ s : LoopState, s.inBuf = file → s.len = file.length →
      s.needsWrite = false → s.status = .finished → s.Ahead file :=
    fun s hbuf hlen hneeds hstatus => ⟨by rw [hbuf, hlen],
      fun h => absurd (hstatus.symm.trans h) nofun, fun h => absurd (hneeds.symm.trans h) nofun,
      fun _ => ⟨hbuf, hlen⟩⟩
  unfold LoopState.start
  dsimp only
  split
  · exact hfinished _ rfl rfl rfl rfl
  · exact (hfinished _ rfl rfl rfl rfl).enterRound _

theorem start_status (file : List Byte) :
    (LoopState.start file file.length).needsWrite = false ∧
      (LoopState.start file file.length).status ≠ .aborted := by
  unfold LoopState.start LoopState.enterRound
  dsimp only
  split
  · exact ⟨rfl, nofun⟩
  · split <;> exact ⟨rfl, nofun⟩

/-- A step either aborts the loops and changes nothing, or it is not interrupted. -/
theorem Ahead.step (h : s.Ahead file) (a : LoopAction) (hstep : s.step afl execCksum a = some t) :
    t.Ahead file ∧ (a.Interrupted ∧ t.status = .aborted ∧ t.needsWrite = s.needsWrite ∨
      ¬a.Interrupted ∧ t.status ≠ .aborted) := by
  have hstill : s.status = .running → s.status ≠ .aborted := fun hrun => by simp [hrun]
  cases stepped hstep with
  | abort stopSoon fault _ _ hint =>
    refine ⟨{ h with removeLen_pos := fun hrun => ?_ }, .inl ⟨hint, rfl, rfl⟩⟩
    exact absurd hrun (by simp)
  | accept stopSoon fault traceBits hrun hpos hint =>
    have hend := pos_add_trimAvail_le hpos
    have hremove := h.removeLen_pos hrun
    have havail : 0 < s.trimAvail := by
      unfold trimAvail
      omega
    have hsize : s.len ≤ file.length := by
      cases hneeds : s.needsWrite with
      | true => exact (h.deleted hneeds).le
      | false => exact (h.kept hneeds).2.le
    refine ⟨⟨?_, fun _ => hremove, fun _ => ?_, fun hkept => ?_⟩, .inr ⟨hint, hstill hrun⟩⟩
    · change s.len - s.trimAvail ≤ (s.accept traceBits).inBuf.length
      rw [length_accept_inBuf h.len_le hpos]
      exact (Nat.sub_le _ _).trans h.len_le
    · change s.len - s.trimAvail < file.length
      omega
    · exact absurd hkept (by simp [accept])
  | reject stopSoon fault hrun _ hint =>
    exact ⟨{ h with }, .inr ⟨hint, hstill hrun⟩⟩
  | nextRound hrun =>
    have hfinished : Ahead file { s with status := .finished } :=
      { h with removeLen_pos := fun hrun => absurd hrun (by simp) }
    refine ⟨hfinished.enterRound _, .inr ⟨id, ?_⟩⟩
    unfold LoopState.enterRound
    split
    · exact hstill hrun
    · simp

end LoopState

namespace CaseState

variable {afl : Afl} {execCksum : BitVec 64} {s t : CaseState} {file : List Byte}

/-- Inside the loops, or before the new file is written, the queue file is the old one. -/
structure Active (file : List Byte) (s : CaseState) : Prop where
  phase : s.phase = .loops ∨ s.phase = .writeBack
  file_eq : s.file = file
  ahead : s.loop.Ahead file

theorem returned_stuck (h : s.phase = .returned) : Stuck (step afl execCksum) s := by
  intro a
  cases a <;> simp [step, h]

theorem content_of_kept (h : s.loop.inBuf = file ∧ s.loop.len = file.length) :
    s.content afl = file := by
  rw [content, h.1, h.2, Afl.read_length]

/-- Where the loops lead to: on, to the new file, or out with a file that holds the buffer. -/
theorem leaveLoops_cases {loop : LoopState} (h : loop.Ahead file)
    (hstatus : loop.status ≠ .aborted) :
    (leaveLoops file loop).phase = .returned ∧
        (leaveLoops file loop).file = (leaveLoops file loop).content afl ∨
      Active file (leaveLoops file loop) := by
  cases hs : loop.status with
  | running => exact .inr ⟨.inl (by simp [leaveLoops, hs]), rfl, h⟩
  | finished =>
    cases hneeds : loop.needsWrite with
    | true => exact .inr ⟨.inr (by simp [leaveLoops, hs, hneeds]), rfl, h⟩
    | false =>
      refine .inl ⟨by simp [leaveLoops, hs, hneeds], ?_⟩
      exact (content_of_kept (h.kept hneeds)).symm
  | aborted => exact absurd hs hstatus

/-- A step returns with a file that holds the buffer exactly when it is not interrupted after a
deletion and writes what it should; otherwise it goes on. -/
theorem Active.step (h : s.Active file) (a : CaseAction)
    (hgranted : s.WritesGranted afl execCksum a)
    (hstep : s.step afl execCksum a = some t) :
    (t.phase = .returned ∧ (t.file = t.content afl ↔ s.KeepsFile afl a)) ∨
      (t.Active file ∧ s.KeepsFile afl a) := by
  cases a with
  | customTrim retval actions =>
    rcases h.phase with hphase | hphase <;> simp [CaseState.step, hphase] at hstep
  | loop action =>
    rw [CaseState.step] at hstep
    split at hstep
    · obtain ⟨loop, hloop, rfl⟩ := Option.map_eq_some_iff.mp hstep
      rw [h.file_eq]
      obtain ⟨hahead, ⟨hint, hstatus, hneeds⟩ | ⟨hint, hstatus⟩⟩ := h.ahead.step action hloop
      · refine .inl ⟨by simp [leaveLoops, hstatus], ?_⟩
        change file = afl.read loop.inBuf loop.len ↔
          (s.loop.needsWrite = true → ¬action.Interrupted)
        cases hdel : s.loop.needsWrite with
        | true =>
          refine iff_of_false (fun heq => ?_) fun hkeep => hkeep rfl hint
          have hlt := hahead.deleted (hneeds.trans hdel)
          have hlen := congrArg List.length heq
          rw [Afl.length_read] at hlen
          omega
        | false =>
          obtain ⟨hbuf, hlen⟩ := hahead.kept (hneeds.trans hdel)
          refine iff_of_true ?_ nofun
          rw [hbuf, hlen, Afl.read_length]
      · have hkeeps : s.KeepsFile afl (.loop action) := fun _ => hint
        rcases @leaveLoops_cases afl _ _ hahead hstatus with ⟨hret, hfile⟩ | hactive
        · exact .inl ⟨hret, iff_of_true hfile hkeeps⟩
        · exact .inr ⟨hactive, hkeeps⟩
    · exact absurd hstep (by simp)
  | writeBack writes =>
    rw [CaseState.step] at hstep
    split at hstep
    · obtain ⟨new, hwrite, rfl⟩ := Option.map_eq_some_iff.mp hstep
      refine .inl ⟨rfl, writeFile_iff ?_ hwrite⟩
      change Granted (afl.read _ _).length 0 writes
      rw [Afl.length_read]
      exact hgranted
    · exact absurd hstep (by simp)

/-- Without custom mutators that trim, the loops start at once. -/
theorem start_cases (hcustom : afl.customMutators.countP (·.customTrim) = 0) (file : List Byte) :
    (start afl file).phase = .returned ∧ (start afl file).file = (start afl file).content afl ∨
      (start afl file).Active file := by
  obtain ⟨-, hstatus⟩ := LoopState.start_status file
  have hstart : start afl file = leaveLoops file (LoopState.start file file.length) := by
    unfold start
    rw [hcustom]
    rfl
  rw [hstart]
  exact leaveLoops_cases (LoopState.Ahead.start file) hstatus

/-- Custom mutators that trim leave a file with the length of the entry. -/
structure CustomActive (s : CaseState) : Prop where
  phase : (∃ count, s.phase = .customTrims count) ∨ s.phase = .returned
  length_eq : s.loop.len = s.file.length

theorem CustomActive.step (h : s.CustomActive) (a : CaseAction)
    (hgranted : s.WritesGranted afl execCksum a) (hstep : s.step afl execCksum a = some t) :
    t.CustomActive := by
  cases a with
  | customTrim retval actions =>
    rw [CaseState.step] at hstep
    split at hstep
    · next count hphase =>
      obtain ⟨c, hrun, hstep⟩ := Option.bind_eq_some_iff.mp hstep
      split at hstep
      · exact absurd hstep (by simp)
      · obtain ⟨hlen, -⟩ := trimCaseCustom_returns afl execCksum h.length_eq hgranted hrun
        rw [← Option.some.inj hstep]
        refine ⟨?_, hlen⟩
        by_cases hcount : count = 0
        · exact .inr (if_pos hcount)
        · exact .inl ⟨count, if_neg hcount⟩
    · exact absurd hstep (by simp)
  | loop action =>
    rcases h.phase with ⟨count, hphase⟩ | hphase <;> simp [CaseState.step, hphase] at hstep
  | writeBack writes =>
    rcases h.phase with ⟨count, hphase⟩ | hphase <;> simp [CaseState.step, hphase] at hstep

end CaseState

/-- When `trim_case` returns, the file holds `in_buf[0..q->len)` exactly when no execution was
interrupted after a chunk had been deleted, and the calls for the new file wrote the buffer.
When a custom mutator trims, in a buffer of its own, the length is that of the file. -/
theorem trimCase_file_iff (afl : Afl) (execCksum : BitVec 64) (file : List Byte)
    (actions : List CaseAction) (t : CaseState)
    (hgranted : Along (CaseState.step afl execCksum) (CaseState.WritesGranted afl execCksum)
      (CaseState.start afl file) actions)
    (hrun : run (CaseState.step afl execCksum) (CaseState.start afl file) actions = some t)
    (hret : t.phase = .returned) :
    (afl.customMutators.countP (·.customTrim) = 0 → (t.file = t.content afl ↔
      Along (CaseState.step afl execCksum) (CaseState.KeepsFile afl) (CaseState.start afl file)
        actions)) ∧
    (0 < afl.customMutators.countP (·.customTrim) → t.loop.len = t.file.length) := by
  constructor
  · intro hcustom
    rcases CaseState.start_cases hcustom file with ⟨hphase, hfile⟩ | hactive
    · obtain ⟨rfl, rfl⟩ := (CaseState.returned_stuck hphase).run_eq hrun
      exact iff_of_true hfile trivial
    · refine @run_ends_iff_along _ _ _ (CaseState.Active file) _ (fun s => s.phase = .returned) _ _
        (fun s a u hs hD hu => hs.step a hD hu) (fun s hs => CaseState.returned_stuck hs)
        (fun s hs hphase => ?_) _ _ _ hactive hgranted hrun hret
      rcases hs.phase with h | h <;> exact absurd (h.symm.trans hphase) nofun
  · intro hcustom
    have hlen := ((LoopState.Ahead.start file).kept (LoopState.start_status file).1).2
    have hstart : (CaseState.start afl file).CustomActive := by
      unfold CaseState.start
      rw [if_pos hcustom]
      exact ⟨.inl ⟨_, rfl⟩, hlen⟩
    exact (run_invariant_along (fun s a u hs hD hu => CaseState.CustomActive.step hs a hD hu)
      hstart hgranted hrun).length_eq

section Examples

/-- An entry of nine bytes, of which any chunk can be deleted. -/
def nineBytes : List Byte := [0, 1, 2, 3, 4, 5, 6, 7, 8]

/-- A target whose trace is always the same. -/
def steady : Afl := recognizer fun _ => true

/-- The chunk that is tried next has been deleted. -/
def CaseState.deleted (s : CaseState) (traceBits : Mem) : CaseState :=
  leaveLoops s.file { s.loop.accept traceBits with fault := .ok }

theorem steady_step {s : CaseState} (hphase : s.phase = .loops) (hrun : s.loop.status = .running)
    (hpos : s.loop.removePos < s.loop.len) :
    ∃ traceBits, s.step steady 1 (.loop (.execute false .ok)) = some (s.deleted traceBits) := by
  rcases @LoopState.tryChunk_cases steady 1 s.loop false .ok hpos with
    ⟨hint, -⟩ | ⟨-, ⟨-, traceBits, ht⟩ | ⟨hck, -⟩⟩
  · exact absurd hint (by decide)
  · refine ⟨traceBits, ?_⟩
    rw [CaseState.deleted, ← ht, CaseState.step, if_pos hphase, LoopState.step,
      if_pos ⟨hrun, hpos⟩, Option.map_some]
  · rw [steady, recognizer_cksum] at hck
    exact absurd rfl hck

/-- The round is over, and the next one would have chunks that are too small. -/
theorem lastRound_step {afl : Afl} {execCksum : BitVec 64} {s : CaseState}
    (hphase : s.phase = .loops) (hrun : s.loop.status = .running)
    (hpos : ¬s.loop.removePos < s.loop.len)
    (hlast : s.loop.removeLen / 2 < max (s.loop.lenP2 / trimEndSteps) trimMinBytes) :
    s.step afl execCksum (.loop .nextRound) = some (CaseState.leaveLoops s.file
      { s.loop with removeLen := s.loop.removeLen / 2, status := .finished }) := by
  rw [CaseState.step, if_pos hphase, LoopState.step, if_pos ⟨hrun, hpos⟩, Option.map_some,
    LoopState.enterRound, if_neg (Nat.not_le.mpr hlast)]

/-- A run that is stopped after the first deletion returns with a length of five and a file of
nine bytes. -/
theorem trimCase_stopped : ∃ t,
    run (CaseState.step steady 1) (CaseState.start steady nineBytes)
      [.loop (.execute false .ok), .loop (.execute true .ok)] = some t ∧
    t.phase = .returned ∧ t.loop.len = 5 ∧ t.file = nineBytes ∧ t.file ≠ t.content steady := by
  obtain ⟨m, hfirst⟩ := steady_step (s := CaseState.start steady nineBytes) rfl rfl (by decide)
  rw [run_cons, hfirst, Option.bind_some]
  refine ⟨_, rfl, rfl, rfl, rfl, fun heq => ?_⟩
  have hlen := congrArg List.length heq
  rw [CaseState.content, Afl.length_read] at hlen
  have hlen : 9 = 5 := hlen
  omega

/-- Two chunks are deleted, the first round is the last one, and the four bytes that are left are
written by two calls. -/
def twoDeletions : List CaseAction :=
  [.loop (.execute false .ok), .loop (.execute false .ok), .loop .nextRound, .writeBack [3, 1]]

theorem trimCase_file_twoDeletions : ∃ t,
    run (CaseState.step steady 1) (CaseState.start steady nineBytes) twoDeletions = some t ∧
    t.file = t.content steady ∧ t.loop.len = 4 := by
  obtain ⟨m, hfirst⟩ := steady_step (s := CaseState.start steady nineBytes) rfl rfl (by decide)
  obtain ⟨m', hsecond⟩ := steady_step (s := (CaseState.start steady nineBytes).deleted m) rfl rfl
    (show 4 < 5 by decide)
  set s := (CaseState.start steady nineBytes).deleted m
  set u := s.deleted m'
  set v := CaseState.leaveLoops u.file
    { u.loop with removeLen := u.loop.removeLen / 2, status := .finished }
  have hthird : u.step steady 1 (.loop .nextRound) = some v :=
    lastRound_step rfl rfl (show ¬4 < 4 by decide)
      ((show 4 / 2 < trimMinBytes by decide).trans_le (le_max_right _ _))
  have hfourth : v.step steady 1 (.writeBack [3, 1]) =
      some ⟨v.loop.prepareWrite steady, [0, 1, 2, 3], .returned⟩ := rfl
  have hrun : run (CaseState.step steady 1) (CaseState.start steady nineBytes) twoDeletions =
      some ⟨v.loop.prepareWrite steady, [0, 1, 2, 3], .returned⟩ := by
    rw [twoDeletions, run_cons, hfirst, Option.bind_some, run_cons, hsecond, Option.bind_some,
      run_cons, hthird, Option.bind_some, run_cons, hfourth]
    rfl
  have halong : ∀ C : CaseState → CaseAction → Prop,
      C (CaseState.start steady nineBytes) (.loop (.execute false .ok)) →
      C s (.loop (.execute false .ok)) → C u (.loop .nextRound) → C v (.writeBack [3, 1]) →
      Along (CaseState.step steady 1) C (CaseState.start steady nineBytes) twoDeletions := by
    intro C hone htwo hthree hfour
    refine ⟨hone, fun s' hs' => ?_⟩
    obtain rfl := Option.some.inj (hfirst.symm.trans hs')
    refine ⟨htwo, fun u' hu' => ?_⟩
    obtain rfl := Option.some.inj (hsecond.symm.trans hu')
    refine ⟨hthree, fun v' hv' => ?_⟩
    obtain rfl := Option.some.inj (hthird.symm.trans hv')
    exact ⟨hfour, fun _ _ => trivial⟩
  refine ⟨_, hrun, ?_, rfl⟩
  refine ((trimCase_file_iff steady 1 nineBytes twoDeletions _ ?_ hrun rfl).1 rfl).2 ?_
  · exact halong _ trivial trivial trivial ⟨show (0 : ℤ) + 3 ≤ 4 by decide,
      show (3 : ℤ) + 1 ≤ 4 by decide, trivial⟩
  · refine halong _ (fun _ => by simp [LoopAction.Interrupted])
      (fun _ => by simp [LoopAction.Interrupted]) (fun _ => id) ?_
    exact Or.inr (Or.inr ⟨by decide, show (0 : ℤ) + 3 < 4 by decide,
      show (0 : ℤ) + 3 ≠ 4 - 0 by decide, Or.inl rfl⟩)

/-- Five bytes are left and about to be written without unlinking the old file. -/
def fiveLeft : CaseState where
  loop := { inBuf := nineBytes, len := 5, lenP2 := 8, removeLen := 4, removePos := 5,
            needsWrite := true, cleanTrace := fun _ => 0, fault := .ok, status := .finished }
  file := nineBytes
  phase := .writeBack

def keepsLink : Afl := { recognizer (fun _ => true) with noUnlink := true }

/-- The four bytes that are left repeat their first half, and each call takes one half. -/
theorem noUnlink_writeBack_halves : ∃ t,
    { fiveLeft with loop := { fiveLeft.loop with inBuf := [0, 1, 0, 1, 2], len := 4 } }.step
      keepsLink 1 (.writeBack [2, 2]) = some t ∧ t.file = t.content keepsLink := by
  obtain ⟨t, hstep, -, hiff⟩ := noUnlink_writeBack_iff keepsLink 1
    { fiveLeft with loop := { fiveLeft.loop with inBuf := [0, 1, 0, 1, 2], len := 4 } } rfl rfl
    [2, 2] ⟨by decide, by decide, by decide, by decide, rfl⟩
  obtain rfl := Option.some.inj hstep
  exact ⟨_, hstep, hiff.2 ⟨rfl, rfl, trivial⟩⟩

/-- A first call that takes two of the five bytes makes the next one start over. -/
theorem noUnlink_writeBack_resends : ∃ t,
    fiveLeft.step keepsLink 1 (.writeBack [2, 3]) = some t ∧
    t.content keepsLink = [0, 1, 2, 3, 4] ∧ t.file = [0, 1, 0, 1, 2] :=
  ⟨_, rfl, by decide, by decide⟩

end Examples

end AflPlusPlus.Trimming
