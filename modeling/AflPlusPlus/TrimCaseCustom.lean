import AflPlusPlus.TrimCaseLoop

/-!
# Trimming by a custom mutator

`trim_case_custom` of `afl-fuzz-mutators.c` and the writing of files. A step is an iteration of
the loop with the answers of the mutator and of the execution as its label, or the end of the
loop with the results of the `write` calls. The length of the entry and its file only change
together, when the loop has ended.
-/

namespace AflPlusPlus.Trimming
open ByteWords CoverageMap TransitionSystems
open Fuzzer (Fault)

/-- The `n` bytes of memory where the buffer starts. -/
def Afl.read (afl : Afl) (mem : List Byte) (n : ℕ) : List Byte :=
  (List.range n).map fun i => mem.getD i (afl.behind i)

theorem Afl.length_read (afl : Afl) (mem : List Byte) (n : ℕ) : (afl.read mem n).length = n := by
  simp [Afl.read]

/-- The bounds that a post-processed size is forced into. -/
def Afl.clampSize (afl : Afl) (newSize : ℕ) : ℕ :=
  if newSize < afl.minLength then afl.minLength
  else if newSize > afl.maxLength then afl.maxLength else newSize

/-- `write_to_testcase(afl, mem, len, 0)` with custom mutators: the buffer and the length that
the caller goes on with; none stands for the length zero. -/
def Afl.writeToTestcase (afl : Afl) (mem : List Byte) : Option (List Byte) :=
  let newMem := afl.postProcess mem
  if newMem = [] then none
  else if afl.postProcessKeepOriginal then some mem
  else some (afl.read newMem (afl.clampSize newMem.length))

/-- The loop of `ck_write` from the offset on, when `write` returns the results in turn; the file
gets what each call took. There is no result when the calls do not suffice. -/
def ckWriteLoop (buf : List Byte) : ℕ → List ℤ → Option (List Byte)
  | _, [] => none
  | off, res :: results =>
    let len := buf.length - off
    let taken := (buf.drop off).take res.toNat
    if res ≠ len ∧ 0 < res ∧ off + res ≠ len then
      (ckWriteLoop buf (off + res.toNat) results).map (taken ++ ·)
    else some taken

/-- What `ck_write` makes of a new file. -/
def ckWrite (buf : List Byte) (results : List ℤ) : Option (List Byte) :=
  if buf.length = 0 then some [] else ckWriteLoop buf 0 results

/-- No call takes more than what is left of `size` bytes. -/
def Granted (size : ℕ) : ℕ → List ℤ → Prop
  | _, [] => True
  | off, res :: results => off + res ≤ size ∧ Granted size (off + res.toNat) results

/-- The loop of `ck_write` goes on from the offset until all bytes are taken. It is left before
when a call fails, and when the bytes taken so far are as many as the call was asked for. -/
def CompletesFrom (size : ℕ) : ℕ → List ℤ → Prop
  | _, [] => False
  | off, res :: results => off + res = size ∨
    0 < res ∧ off + res < size ∧ off + res ≠ size - off ∧ CompletesFrom size (off + res.toNat) results

/-- `ck_write` takes the whole buffer. -/
def Completes (size : ℕ) (results : List ℤ) : Prop := size = 0 ∨ CompletesFrom size 0 results

section CkWrite
variable {buf file : List Byte} {results : List ℤ} {off : ℕ}

theorem ckWriteLoop_of_completes (hoff : off ≤ buf.length)
    (h : CompletesFrom buf.length off results) : ckWriteLoop buf off results = some (buf.drop off) := by
  induction results generalizing off with
  | nil => exact h.elim
  | cons res results ih =>
    have hlen : ((buf.length - off : ℕ) : ℤ) = buf.length - off := by omega
    rw [ckWriteLoop, hlen]
    rcases h with hlast | ⟨hpos, hlt, hne, hrest⟩
    · rw [if_neg (by omega), List.take_of_length_le]
      rw [List.length_drop]
      omega
    · rw [if_pos ⟨by omega, hpos, hne⟩, ih (by omega) hrest, Option.map_some, ← List.drop_drop,
        List.take_append_drop]

/-- A loop that is left before does not take everything. -/
theorem completes_of_ckWriteLoop (hoff : off < buf.length)
    (hgranted : Granted buf.length off results)
    (h : ckWriteLoop buf off results = some (buf.drop off)) :
    CompletesFrom buf.length off results := by
  induction results generalizing off with
  | nil => exact absurd h (by simp [ckWriteLoop])
  | cons res results ih =>
    obtain ⟨hle, hrest⟩ := hgranted
    have hlen : ((buf.length - off : ℕ) : ℤ) = buf.length - off := by omega
    rw [ckWriteLoop, hlen] at h
    split at h
    · next hcond =>
      obtain ⟨hne, hpos, hother⟩ := hcond
      obtain ⟨file, hfile, happend⟩ := Option.map_eq_some_iff.mp h
      refine Or.inr ⟨hpos, by omega, hother, ih (by omega) hrest ?_⟩
      have hsplit : buf.drop off = (buf.drop off).take res.toNat ++ buf.drop (off + res.toNat) := by
        rw [← List.drop_drop, List.take_append_drop]
      rw [hfile, List.append_cancel_left (happend.trans hsplit)]
    · have htaken := congrArg List.length (Option.some.inj h)
      rw [List.length_take, List.length_drop] at htaken
      exact Or.inl (by omega)

theorem ckWrite_of_completes (h : Completes buf.length results) :
    ckWrite buf results = some buf := by
  unfold ckWrite
  split
  · next hnil => rw [List.length_eq_zero_iff.mp hnil]
  · next hne => exact ckWriteLoop_of_completes (Nat.zero_le _) (h.resolve_left hne)

theorem ckWrite_iff (hgranted : Granted buf.length 0 results)
    (h : ckWrite buf results = some file) : file = buf ↔ Completes buf.length results := by
  constructor
  · rintro rfl
    unfold ckWrite at h
    split at h
    · next hnil => exact Or.inl hnil
    · next hne =>
      exact Or.inr (completes_of_ckWriteLoop (Nat.pos_of_ne_zero hne) hgranted h)
  · intro hcompletes
    exact Option.some.inj (h.symm.trans (ckWrite_of_completes hcompletes))

end CkWrite

/-- An `s32` stored in a `u32`. -/
def storeU32 (x : ℤ) : ℕ := (BitVec.ofInt 32 x).toNat

/-- The variables of `trim_case_custom`; `len` is `q->len`, `file` the queue file. -/
structure CustomState where
  len : ℕ
  file : List Byte
  outBuf : Option (List Byte)
  stageCur : ℕ
  stageMax : ℕ
  fault : Fault
  status : LoopStatus

/-- An iteration: the proposal of `afl_custom_trim`, what its execution does, and the answer of
`afl_custom_post_trim`. Or the way out of the loop, with the results of the `write` calls. -/
inductive CustomAction
  | propose (retbuf : List Byte) (stopSoon : Bool) (fault : Fault) (traceBits : Mem) (answer : ℤ)
  | finish (writes : List ℤ)

namespace CustomState

/-- `retval` is what `afl_custom_init_trim` returned. Even if it is negative it is stored:
`unlikely(retval)` is zero or one and never below zero. -/
def start (file : List Byte) (len : ℕ) (retval : ℤ) : CustomState :=
  { len := len, file := file, outBuf := none, stageCur := 0, stageMax := storeU32 retval,
    fault := .ok, status := .running }

/-- The mutator learns that the proposal failed; a negative answer ends the program. -/
def unsuccessful (s : CustomState) (answer : ℤ) : Option CustomState :=
  if answer < 0 then none else some { s with stageCur := answer.toNat }

/-- An iteration of the loop. -/
def tryProposal (afl : Afl) (execCksum : BitVec 64) (s : CustomState) (retbuf : List Byte)
    (stopSoon : Bool) (fault : Fault) (traceBits : Mem) (answer : ℤ) : Option CustomState :=
  match if retbuf = [] then none else afl.writeToTestcase retbuf with
  | none => s.unsuccessful answer
  | some retbuf =>
    let s := { s with fault := fault }
    if stopSoon ∨ fault = .error then some { s with status := .aborted }
    else if afl.hash64 (classifyCounts afl.geometry traceBits) = execCksum then
      some { s with outBuf := some retbuf, stageCur := storeU32 answer }
    else s.unsuccessful answer

def step (afl : Afl) (execCksum : BitVec 64) (s : CustomState) : CustomAction → Option CustomState
  | .propose retbuf stopSoon fault traceBits answer =>
    if s.status = .running ∧ s.stageCur < s.stageMax then
      s.tryProposal afl execCksum retbuf stopSoon fault traceBits answer
    else none
  | .finish writes =>
    if s.status = .running ∧ ¬s.stageCur < s.stageMax then
      match s.outBuf with
      | none => some { s with status := .finished }
      | some outBuf => (ckWrite outBuf writes).map fun file =>
          { s with file := file, len := outBuf.length, status := .finished }
    else none

/-- The `write` calls take the whole buffer. -/
def WritesComplete (s : CustomState) : CustomAction → Prop
  | .propose .. => True
  | .finish writes => ∀ outBuf, s.outBuf = some outBuf → Completes outBuf.length writes

variable {afl : Afl} {execCksum : BitVec 64} {s t : CustomState} {file : List Byte} {len : ℕ}

/-- While the loop runs, and after an abort, the entry is what it was; afterwards its length is
that of its file. -/
structure Consistent (file : List Byte) (len : ℕ) (s : CustomState) : Prop where
  unchanged : s.status ≠ .finished → s.file = file ∧ s.len = len
  length_eq : s.len = s.file.length

theorem unsuccessful_eq_some {answer : ℤ} (h : s.unsuccessful answer = some t) :
    t.file = s.file ∧ t.len = s.len := by
  unfold unsuccessful at h
  split at h
  · exact absurd h (by simp)
  · rw [← Option.some.inj h]
    exact ⟨rfl, rfl⟩

/-- An iteration touches neither the file nor the length. -/
theorem tryProposal_frame {retbuf : List Byte} {stopSoon : Bool} {fault : Fault}
    {traceBits : Mem} {answer : ℤ}
    (h : s.tryProposal afl execCksum retbuf stopSoon fault traceBits answer = some t) :
    t.file = s.file ∧ t.len = s.len := by
  unfold tryProposal at h
  split at h
  · exact unsuccessful_eq_some h
  · dsimp only at h
    split at h
    · rw [← Option.some.inj h]
      exact ⟨rfl, rfl⟩
    · split at h
      · rw [← Option.some.inj h]
        exact ⟨rfl, rfl⟩
      · exact unsuccessful_eq_some (s := { s with fault := fault }) h

theorem Consistent.step (h : s.Consistent file len) (a : CustomAction) (hwrites : s.WritesComplete a)
    (hstep : s.step afl execCksum a = some t) : t.Consistent file len := by
  cases a with
  | propose retbuf stopSoon fault traceBits answer =>
    rw [CustomState.step] at hstep
    split at hstep
    · next hguard =>
      obtain ⟨hfile, hlen⟩ := tryProposal_frame hstep
      obtain ⟨hfile', hlen'⟩ := h.unchanged (by rw [hguard.1]; nofun)
      refine ⟨fun _ => ⟨hfile.trans hfile', hlen.trans hlen'⟩, ?_⟩
      rw [hlen, hfile]
      exact h.length_eq
    · exact absurd hstep (by simp)
  | finish writes =>
    rw [CustomState.step] at hstep
    split at hstep
    · next hguard =>
      split at hstep
      · rw [← Option.some.inj hstep]
        exact ⟨fun hne => absurd rfl hne, h.length_eq⟩
      · next outBuf hout =>
        rw [ckWrite_of_completes (hwrites outBuf hout), Option.map_some] at hstep
        rw [← Option.some.inj hstep]
        exact ⟨fun hne => absurd rfl hne, rfl⟩
    · exact absurd hstep (by simp)

theorem Consistent.start (retval : ℤ) (h : len = file.length) :
    (CustomState.start file len retval).Consistent file len :=
  ⟨fun _ => ⟨rfl, rfl⟩, h⟩

end CustomState

/-- Whatever a custom mutator proposes and answers and whatever the target does, the length of
the entry is that of its file when `trim_case_custom` returns, and an abort leaves both as
they were. -/
theorem trimCaseCustom_returns (afl : Afl) (execCksum : BitVec 64) {file : List Byte} {len : ℕ}
    {retval : ℤ} {actions : List CustomAction} {t : CustomState} (hlen : len = file.length)
    (hwrites : Along (CustomState.step afl execCksum) CustomState.WritesComplete
      (CustomState.start file len retval) actions)
    (hrun : run (CustomState.step afl execCksum) (CustomState.start file len retval) actions =
      some t) :
    t.len = t.file.length ∧ (t.status ≠ .finished → t.file = file ∧ t.len = len) := by
  have h := run_invariant_along (fun s a t hs hC hstep => CustomState.Consistent.step hs a hC hstep)
    (CustomState.Consistent.start retval hlen) hwrites hrun
  exact ⟨h.length_eq, h.unchanged⟩

/-- A mutator whose only proposal, two bytes, is accepted and written by two calls. -/
theorem trimCaseCustom_returns_twoBytes : ∃ t,
    run (CustomState.step (recognizer fun _ => true) 1) (CustomState.start [0, 1, 2, 3] 4 1)
      [.propose [1, 2] false .ok (oneHitIf true) 1, .finish [1, 1]] = some t ∧
    t.file = [1, 2] ∧ t.len = t.file.length := by
  have hcksum : (recognizer fun _ => true).hash64 (classifyCounts
      (recognizer fun _ => true).geometry (oneHitIf true)) = 1 := by
    rw [classifyCounts_oneHitIf]
    decide
  have hwrite : (recognizer fun _ => true).writeToTestcase [1#8, 2#8] = some [1, 2] := by decide
  have hone : storeU32 1 = 1 := by decide
  have hfirst : (CustomState.start [0, 1, 2, 3] 4 1).step (recognizer fun _ => true) 1
      (.propose [1, 2] false .ok (oneHitIf true) 1) =
        some ⟨4, [0, 1, 2, 3], some [1, 2], 1, 1, .ok, .running⟩ := by
    simp [CustomState.step, CustomState.start, CustomState.tryProposal, hwrite, hcksum,
      hone]
  have hrun : run (CustomState.step (recognizer fun _ => true) 1)
      (CustomState.start [0, 1, 2, 3] 4 1)
      [.propose [1, 2] false .ok (oneHitIf true) 1, .finish [1, 1]] =
        some ⟨2, [1, 2], some [1, 2], 1, 1, .ok, .finished⟩ := by
    rw [run_cons, hfirst]
    rfl
  have hwhole : Along (CustomState.step (recognizer fun _ => true) 1) CustomState.WritesComplete
      (CustomState.start [0, 1, 2, 3] 4 1)
      [.propose [1, 2] false .ok (oneHitIf true) 1, .finish [1, 1]] := by
    refine ⟨trivial, fun s hs => ⟨fun outBuf hout => ?_, fun _ _ => trivial⟩⟩
    rw [hfirst] at hs
    obtain rfl := Option.some.inj hs
    rw [← Option.some.inj hout]
    exact Or.inr (Or.inr ⟨by decide, by decide, by decide, Or.inl rfl⟩)
  have hreturns := trimCaseCustom_returns (recognizer fun _ => true) 1 (by decide) hwhole hrun
  exact ⟨_, hrun, rfl, hreturns.1⟩

end AflPlusPlus.Trimming
