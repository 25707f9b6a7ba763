import AflPlusPlus.ForkserverHandshakeStreams

/-!
# The handshake always succeeds

Whatever the order in which the two sides go on, the bytes in the status pipe followed by
those that the target has still to write are those that the fuzzer has still to read. The
same holds for the control pipe. Every step moves bytes, so that the handshake ends, and
there is always a step until nothing is left to be read.
-/

namespace AflPlusPlus.ForkserverHandshake
open ByteWords ByteBuffers Pipes TransitionSystems

variable {t : Target} {f : Fsrv} {tokens : List Token}

/-! ## One step -/

variable {capacity : ℕ}

namespace State

/-- The bytes in a pipe and those still to be written to it are those still to be read. -/
structure Inv (t : Target) (f : Fsrv) (tokens : List Token) (s : State capacity) : Prop where
  targetAt : TargetAt t s.target
  fsrvAt : FsrvAt t f tokens s.fsrv s.fsrvPoint
  st_eq : s.st.bytes ++ t.toWrite s.target = t.toFsrv s.fsrvPoint
  ctl_eq : s.ctl.bytes ++ s.fsrvPoint.toWrite = s.target.toRead

theorem inv_start : (start f : State capacity).Inv t f tokens where
  targetAt := .writeVersion
  fsrvAt := .readStatus
  st_eq := List.nil_append _
  ctl_eq := List.nil_append _

/-- A write appends what the target had to write first, and a reply is read as a whole. -/
theorem targetStep_inv {s s' : State capacity} {n : ℕ} (hs : s.targetStep t n = some s') :
    (∃ reply ctl, s.target = .readReply ∧ s.ctl.read 4 = some (reply, ctl) ∧
      s' = { s with
        target := if reply.length ≠ 4 then .exited else Target.onReply (loadAt 4 reply 0), ctl }) ∨
    (∃ offset len st, s.target = .writeDict offset len ∧ 1 ≤ n ∧ n ≤ len ∧
      s.st.write ((t.dict.drop offset).take n) = some st ∧
      s' = { s with target := Target.dictLoop (offset + n) (len - n), st }) ∨
    ∃ w next st, t.word s.target = some (w, next) ∧ s.st.write (wordBytes w) = some st ∧
      s' = { s with target := next, st } := by
  obtain ⟨point, g, p, st, ctl⟩ := s
  unfold targetStep at hs
  cases point with
  | readReply =>
    obtain ⟨⟨bytes, rest⟩, hread, hs⟩ := Option.bind_eq_some_iff.1 hs
    exact .inl ⟨bytes, rest, rfl, hread, (Option.some.inj hs).symm⟩
  | writeDict offset len =>
    dsimp only at hs
    split at hs
    · next hn =>
      obtain ⟨st', hwrite, hs⟩ := Option.bind_eq_some_iff.1 hs
      exact .inr (.inl ⟨offset, len, st', rfl, hn.1, hn.2, hwrite, (Option.some.inj hs).symm⟩)
    · exact absurd hs (by simp)
  | writeVersion | writeOptions | writeMapSize | writeDictLen | writeWelcome =>
    obtain ⟨⟨w, next⟩, hword, hs⟩ := Option.bind_eq_some_iff.1 hs
    obtain ⟨st', hwrite, hs⟩ := Option.bind_eq_some_iff.1 hs
    exact .inr (.inr ⟨w, next, st', hword, hwrite, (Option.some.inj hs).symm⟩)
  | ready | exited => exact absurd hs (by simp [Target.word])

theorem fsrvStep_inv {s s' : State capacity} {n : ℕ} (hs : s.fsrvStep n = some s') :
    (∃ keep ctl, s.fsrvPoint = .writeReply keep ∧
      s.ctl.write (wordBytes (keep ^^^ 0xffffffff#32)) = some ctl ∧
      s' = { s with fsrvPoint := .readOptions keep, ctl }) ∨
    (∃ keep dictSize dict piece st, s.fsrvPoint = .readDict keep dictSize dict ∧ 1 ≤ n ∧
      n ≤ s.st.bytes.length ∧ dict.length + n ≤ dictSize.toNat ∧
      s.st.read n = some (piece, st) ∧
      s' = { s with
        fsrv := (s.fsrv.dictLoop keep dictSize (dict ++ piece)).1
        fsrvPoint := (s.fsrv.dictLoop keep dictSize (dict ++ piece)).2
        st }) ∨
    ∃ bytes st g next, s.st.read 4 = some (bytes, st) ∧
      s.fsrv.onWord (loadAt 4 bytes 0) s.fsrvPoint = some (g, next) ∧
      (bytes.length = 4 → s' = { s with fsrv := g, fsrvPoint := next, st }) := by
  obtain ⟨point, g, p, st, ctl⟩ := s
  unfold fsrvStep at hs
  cases p with
  | writeReply keep =>
    obtain ⟨ctl', hwrite, hs⟩ := Option.bind_eq_some_iff.1 hs
    exact .inl ⟨keep, ctl', rfl, hwrite, (Option.some.inj hs).symm⟩
  | readDict keep dictSize dict =>
    dsimp only at hs
    split at hs
    · next hn =>
      obtain ⟨⟨piece, st'⟩, hread, hs⟩ := Option.bind_eq_some_iff.1 hs
      exact .inr (.inl ⟨keep, dictSize, dict, piece, st', rfl, hn.1, hn.2.1, hn.2.2, hread,
        (Option.some.inj hs).symm⟩)
    · exact absurd hs (by simp)
  | readStatus | readOptions | readMapSize | readDictSize | readStatus2 | ready | oldModel
  | fatal | shortRead =>
    obtain ⟨⟨bytes, st'⟩, hread, hs⟩ := Option.bind_eq_some_iff.1 hs
    obtain ⟨⟨g', next⟩, hword, hs⟩ := Option.bind_eq_some_iff.1 hs
    refine .inr (.inr ⟨bytes, st', g', next, hread, hword, fun hlen => ?_⟩)
    dsimp only at hs
    rw [if_neg (not_not.2 hlen)] at hs
    exact (Option.some.inj hs).symm

end State

theorem FsrvAt.of_writeReply {g : Fsrv} {keep : BitVec 32}
    (h : FsrvAt t f tokens g (.writeReply keep)) : g = f ∧ keep = version := by
  cases h with
  | writeReply => exact ⟨rfl, rfl⟩

theorem FsrvAt.of_readDict {g : Fsrv} {keep dictSize : BitVec 32} {dict : Buffer}
    (h : FsrvAt t f tokens g (.readDict keep dictSize dict)) :
    ∃ m < t.dict.length, g = f.sized t ∧ keep = version ∧ dictSize = t.dictLen ∧
      dict = t.dict.take m := by
  cases h with
  | readDict hm => exact ⟨_, hm, rfl, rfl, rfl, rfl⟩

/-! ## Lengths -/

theorem length_fromDict : t.fromDict.length = t.dict.length + 8 ∨
    t.fromDict.length = 4 ∧ t.dict.length = 0 := by
  unfold Target.fromDict
  cases hd : t.hasDictionary with
  | false =>
    rw [Target.hasDictionary, decide_eq_false_iff_not, not_not] at hd
    exact .inr ⟨by simp, hd⟩
  | true =>
    refine .inl ?_
    simp only [↓reduceIte, List.length_append, length_wordBytes]
    omega

theorem length_fromOptions : t.fromOptions.length = t.fromDict.length + 8 := by
  simp [Target.fromOptions, Target.fromMapSize]
  omega

theorem TargetAt.length_toWrite {p : TargetPoint} (hat : TargetAt t p) :
    p = .ready ∧ t.toWrite p = [] ∨ 4 ≤ (t.toWrite p).length := by
  cases hat with
  | ready => exact .inl ⟨rfl, rfl⟩
  | writeVersion | writeDictLen | writeDict | writeWelcome =>
    exact .inr (by simp [Target.toWrite]; try omega)
  | readReply | writeOptions => exact .inr (by rw [Target.toWrite, length_fromOptions]; omega)
  | writeMapSize => exact .inr (by simp [Target.toWrite, Target.fromMapSize])

/-- What is on its way starts at the beginning of a word when the fuzzer reads one. -/
theorem aligned {p : TargetPoint} {g : Fsrv} {q : FsrvPoint} {w : BitVec 32}
    {next : Fsrv × FsrvPoint} (hp : TargetAt t p) (hq : FsrvAt t f tokens g q)
    (hw : g.onWord w q = some next) :
    (t.toFsrv q).length ≤ (t.toWrite p).length ∨
      (t.toWrite p).length + 4 ≤ (t.toFsrv q).length := by
  have hdict := @length_fromDict t
  cases hq with
  | writeReply | readDict | ready => exact absurd hw (by simp [Fsrv.onWord])
  | readStatus | readOptions | readMapSize | readDictSize | readStatus2 =>
    cases hp <;>
      simp only [Target.toWrite, Target.toFsrv, length_fromOptions, Target.fromMapSize,
        List.length_append, length_wordBytes, List.length_nil, List.length_drop] <;>
      omega

theorem FsrvAt.length_toFsrv {g : Fsrv} {q : FsrvPoint} (hat : FsrvAt t f tokens g q) :
    q = .ready ∨ 4 ≤ (t.toFsrv q).length := by
  cases hat with
  | ready => exact .inl rfl
  | readStatus | readDictSize | readDict | readStatus2 =>
    exact .inr (by simp [Target.toFsrv]; try omega)
  | writeReply | readOptions => exact .inr (by rw [Target.toFsrv, length_fromOptions]; omega)
  | readMapSize => exact .inr (by simp [Target.toFsrv, Target.fromMapSize])

/-- What stands at the front of both sides can be taken from both. -/
theorem take_drop_of_append_eq {a b c d : Buffer} {n : ℕ} (h : a ++ b = c ++ d)
    (ha : n ≤ a.length) (hc : n ≤ c.length) :
    a.take n = c.take n ∧ a.drop n ++ b = c.drop n ++ d := by
  constructor
  · rw [← List.take_append_of_le_length ha, h, List.take_append_of_le_length hc]
  · rw [← List.drop_append_of_le_length ha, h, List.drop_append_of_le_length hc]

theorem FsrvAt.toWrite_cases {g : Fsrv} {q : FsrvPoint} (hat : FsrvAt t f tokens g q) :
    q = .readStatus ∨ (∃ keep, q = .writeReply keep) ∨ q.toWrite = [] := by
  cases hat with
  | readStatus => exact .inl rfl
  | writeReply => exact .inr (.inl ⟨_, rfl⟩)
  | readOptions | readMapSize | readDictSize | readDict | readStatus2 | ready =>
    exact .inr (.inr rfl)

theorem length_reply : reply.length = 4 := length_wordBytes _

namespace State

/-- The bytes still to be written and read by the two sides. -/
def remaining (t : Target) (s : State capacity) : ℕ :=
  (t.toWrite s.target).length + s.target.toRead.length + (t.toFsrv s.fsrvPoint).length +
    s.fsrvPoint.toWrite.length

namespace Inv

variable {s s' : State capacity} {n : ℕ} (hi : s.Inv t f tokens)
include hi

/-- A reply in the control pipe is there as a whole, and the fuzzer has nothing to add. -/
theorem ctl_eq_reply (hpoint : s.target = .readReply) (hne : s.ctl.bytes ≠ []) :
    s.ctl.bytes = reply ∧ s.fsrvPoint.toWrite = [] := by
  have hctl := hi.ctl_eq
  rw [hpoint, TargetPoint.toRead] at hctl
  rcases hi.fsrvAt.toWrite_cases with hfirst | ⟨keep, hkeep⟩ | hnone
  · rw [hfirst] at hctl
    exact absurd (List.append_left_eq_self.1 hctl) hne
  · rw [hkeep] at hctl
    exact absurd (List.append_left_eq_self.1 hctl) hne
  · rw [hnone, List.append_nil] at hctl
    exact ⟨hctl, hnone⟩

/-- There is no reply in the control pipe as long as the fuzzer has not written it. -/
theorem ctl_eq_nil {keep : BitVec 32} (hpoint : s.fsrvPoint = .writeReply keep) :
    s.ctl.bytes = [] := by
  have hctl := hi.ctl_eq
  rw [hpoint, FsrvPoint.toWrite] at hctl
  cases hread : s.target with
  | writeVersion | readReply =>
    rw [hread] at hctl
    exact List.append_left_eq_self.1 hctl
  | writeOptions | writeMapSize | writeDictLen | writeDict | writeWelcome | ready | exited =>
    rw [hread] at hctl
    exact (List.append_eq_nil_iff.1 hctl).1

theorem targetStep (hs : s.targetStep t n = some s') :
    s'.Inv t f tokens ∧ s'.remaining t < s.remaining t := by
  have hat := hi.targetAt
  have hst := hi.st_eq
  have hctl := hi.ctl_eq
  rcases targetStep_inv hs with ⟨bytes, ctl, hpoint, hread, rfl⟩ |
    ⟨offset, len, st, hpoint, hn, hlen, hwrite, rfl⟩ | ⟨w, next, st, hword, hwrite, rfl⟩
  · obtain ⟨hne, rfl, hrest⟩ := Pipe.read_eq_some hread
    obtain ⟨hreply, hnone⟩ := hi.ctl_eq_reply hpoint hne
    have htake : s.ctl.bytes.take 4 = reply := by
      rw [hreply, List.take_of_length_le length_reply.le]
    rw [htake, if_neg (not_not.2 length_reply), onReply_reply]
    rw [hpoint] at hst
    refine ⟨⟨.writeOptions, hi.fsrvAt, hst, ?_⟩, ?_⟩
    · rw [hnone, hrest, hreply, List.drop_of_length_le length_reply.le]
      rfl
    · have hlen := length_reply
      rw [remaining, remaining, hpoint]
      simp only [Target.toWrite, TargetPoint.toRead, List.length_nil]
      omega
  · rw [hpoint] at hat hst hctl
    obtain ⟨hlen0, hsum⟩ : len ≠ 0 ∧ offset + len = t.dict.length := by
      cases hat with
      | writeDict hlen hsum => exact ⟨hlen, hsum⟩
    obtain ⟨hnext, hnextWrite, hnextRead⟩ :=
      TargetAt.dictLoop (show offset + n + (len - n) = t.dict.length by omega)
    refine ⟨⟨hnext, hi.fsrvAt, ?_, hctl.trans hnextRead.symm⟩, ?_⟩
    · rw [hnextWrite, Pipe.write_eq_some hwrite, ← hst, Target.toWrite, ← List.drop_drop,
        List.append_assoc, ← List.append_assoc (List.take _ _), List.take_append_drop]
    · rw [remaining, remaining, hnextWrite, hnextRead, hpoint]
      simp only [Target.toWrite, TargetPoint.toRead, List.length_append, List.length_drop]
      omega
  · obtain ⟨hnext, hnextWrite, hnextRead⟩ := hat.word hword
    refine ⟨⟨hnext, hi.fsrvAt, ?_, hctl.trans hnextRead.symm⟩, ?_⟩
    · rw [Pipe.write_eq_some hwrite, List.append_assoc, ← hnextWrite]
      exact hst
    · simp only [remaining, hnextRead, hnextWrite, List.length_append, length_wordBytes]
      omega

theorem fsrvStep (h : Compatible t f tokens) (hs : s.fsrvStep n = some s') :
    s'.Inv t f tokens ∧ s'.remaining t < s.remaining t := by
  have hat := hi.fsrvAt
  have hst := hi.st_eq
  have hctl := hi.ctl_eq
  rcases fsrvStep_inv hs with ⟨keep, ctl, hpoint, hwrite, rfl⟩ |
    ⟨keep, dictSize, dict, piece, st, hpoint, hn, havail, hsize, hread, rfl⟩ |
    ⟨bytes, st, g, next, hread, hword, hfull⟩
  · rw [hpoint] at hat hst hctl
    obtain ⟨hf, rfl⟩ := hat.of_writeReply
    refine ⟨⟨hi.targetAt, ?_, hst, ?_⟩, ?_⟩
    · rw [hf]
      exact .readOptions
    · rw [Pipe.write_eq_some hwrite, List.append_assoc]
      exact hctl
    · have hlen := length_reply
      rw [remaining, remaining, hpoint]
      simp only [Target.toFsrv, FsrvPoint.toWrite, List.length_nil]
      omega
  · rw [hpoint] at hat hst hctl
    obtain ⟨m, hm, hf, rfl, rfl, rfl⟩ := hat.of_readDict
    have hlen : (t.dict.take m).length = m := List.length_take_of_le hm.le
    rw [hlen, h.toNat_dictLen] at hsize
    obtain ⟨-, rfl, hrest⟩ := Pipe.read_eq_some hread
    rw [Target.toFsrv, hlen] at hst
    obtain ⟨hpiece, hbehind⟩ := take_drop_of_append_eq hst havail
      (by rw [List.length_drop]; omega)
    have hdict : t.dict.take m ++ s.st.bytes.take n = t.dict.take (m + n) := by
      rw [hpiece, List.take_add]
    obtain ⟨hnext, hnextRead, hnextWrite⟩ := dictLoop_take h hsize
    rw [hdict, hf]
    refine ⟨⟨hi.targetAt, hnext, ?_, ?_⟩, ?_⟩
    · rw [hnextRead, ← List.drop_drop, ← hbehind, hrest]
    · rw [hnextWrite]
      exact hctl
    · rw [remaining, remaining, hnextRead, hnextWrite, hpoint, Target.toFsrv, hlen]
      simp only [List.length_append, List.length_drop, FsrvPoint.toWrite]
      omega
  · obtain ⟨hne, rfl, hrest⟩ := Pipe.read_eq_some hread
    obtain ⟨w, rest, hstream, hnext⟩ := hat.onWord h hword
    have hlong : 4 ≤ s.st.bytes.length := by
      have hlen := congrArg List.length hst
      rw [List.length_append] at hlen
      have hpos := List.length_pos_iff.2 hne
      rcases aligned hi.targetAt hat hword with hnone | hword <;> omega
    rw [hstream] at hst
    obtain ⟨htake, hbehind⟩ := take_drop_of_append_eq hst hlong (length_wordBytes w).ge
    rw [List.take_of_length_le (length_wordBytes w).le] at htake
    rw [List.drop_of_length_le (length_wordBytes w).le, List.nil_append] at hbehind
    obtain ⟨hnextAt, hnextRead, hnextWrite⟩ := hnext (by rw [htake, loadAt_wordBytes])
    rw [hfull (by rw [htake, length_wordBytes])]
    refine ⟨⟨hi.targetAt, hnextAt, ?_, ?_⟩, ?_⟩
    · rw [hrest, hnextRead]
      exact hbehind
    · rw [hnextWrite]
      exact hctl
    · simp only [remaining, hnextRead, hnextWrite, hstream, List.length_append, length_wordBytes]
      omega

theorem step (h : Compatible t f tokens) {a : Action} (hs : s.step t a = some s') :
    s'.Inv t f tokens ∧ s'.remaining t < s.remaining t := by
  cases a with
  | target n => exact hi.targetStep hs
  | fsrv n => exact hi.fsrvStep h hs

end Inv

/-! ## Until both are ready -/

/-- Both sides wait for the first request to run the target, with the calls of
`add_extra_func` made. -/
structure Established (t : Target) (f : Fsrv) (calls : List Buffer) (s : State capacity) :
    Prop where
  target_ready : s.target = .ready
  fsrv_ready : s.fsrvPoint = .ready
  st_empty : s.st.bytes = []
  ctl_empty : s.ctl.bytes = []
  realMapSize_eq : s.fsrv.realMapSize = t.mapSize
  mapSize_eq : s.fsrv.mapSize.toNat = (t.mapSize.toNat + 63) / 64 * 64
  useShmemFuzz_eq : s.fsrv.useShmemFuzz = (f.useShmemFuzz || t.sharedmemFuzzing)
  extras_eq : s.fsrv.extras = f.extras ++ calls

theorem Inv.established {s : State capacity} (hi : s.Inv t f tokens) (h : Compatible t f tokens)
    (hready : s.fsrvPoint = .ready) : s.Established t f (f.calls tokens) := by
  have hat := hi.fsrvAt
  have hst := hi.st_eq
  have hctl := hi.ctl_eq
  rw [hready] at hat hst hctl
  obtain ⟨hempty, hsaid⟩ := List.append_eq_nil_iff.1 hst
  have htarget : s.target = .ready := by
    rcases hi.targetAt.length_toWrite with ⟨htarget, -⟩ | hlong
    · exact htarget
    · rw [hsaid] at hlong
      exact absurd hlong (by decide)
  rw [htarget] at hctl
  have hfed : s.fsrv = f.fed t tokens := by
    generalize s.fsrv = g at hat
    cases hat with
    | ready => rfl
  refine ⟨htarget, hready, hempty, (List.append_eq_nil_iff.1 hctl).1, ?_, ?_, ?_, ?_⟩ <;>
    rw [hfed]
  · rfl
  · exact h.roundedSize_eq
  · rfl
  · rfl

variable {s : State capacity}

/-- With room for a word, the target waits for the reply only. -/
theorem exists_targetStep (hcap : 4 ≤ capacity) (hat : TargetAt t s.target)
    (hroom : s.st.bytes = []) (hready : s.target ≠ .ready)
    (hwait : s.target = .readReply → s.ctl.bytes ≠ []) : ∃ s', s.targetStep t 1 = some s' := by
  have hfits : ∀ bs : Buffer, bs.length ≤ 4 → ∃ st, s.st.write bs = some st := fun bs hbs =>
    Pipe.exists_write (by rw [hroom, List.length_nil]; omega)
  have hwords : ∀ w next, t.word s.target = some (w, next) → ∃ s',
      ((t.word s.target).bind fun p => (s.st.write (wordBytes p.1)).bind fun st =>
        some { s with target := p.2, st }) = some s' := by
    intro w next hword
    obtain ⟨st, hst⟩ := hfits (wordBytes w) (length_wordBytes w).le
    rw [hword, Option.bind_some, hst]
    exact ⟨_, rfl⟩
  obtain ⟨point, g, q, st, ctl⟩ := s
  cases hat with
  | writeVersion | writeOptions | writeMapSize | writeDictLen | writeWelcome =>
    exact hwords _ _ rfl
  | readReply =>
    obtain ⟨bytes, rest, hread⟩ := Pipe.exists_read 4 (hwait rfl)
    dsimp only at hread
    simp only [targetStep, hread]
    exact ⟨_, rfl⟩
  | @writeDict offset len hlen hsum =>
    obtain ⟨st', hst⟩ := hfits ((t.dict.drop offset).take 1)
      ((List.length_take_le _ _).trans (by decide))
    dsimp only at hst
    simp only [targetStep, hst, if_pos (⟨le_rfl, Nat.pos_of_ne_zero hlen⟩ : 1 ≤ 1 ∧ 1 ≤ len)]
    exact ⟨_, rfl⟩
  | ready => exact absurd rfl hready

/-- The fuzzer goes on with what is in the pipe, and writes its reply at once. -/
theorem exists_fsrvStep (hcap : 4 ≤ capacity) (h : Compatible t f tokens)
    (hat : FsrvAt t f tokens s.fsrv s.fsrvPoint) (hready : s.fsrvPoint ≠ .ready)
    (hst : (∀ keep, s.fsrvPoint ≠ .writeReply keep) → s.st.bytes ≠ [])
    (hctl : ∀ keep, s.fsrvPoint = .writeReply keep → s.ctl.bytes = []) :
    ∃ s', s.fsrvStep 1 = some s' := by
  obtain ⟨point, g, q, st, ctl⟩ := s
  dsimp only at hat hready hst hctl
  cases hat with
  | readStatus | readOptions | readMapSize | readDictSize | readStatus2 =>
    obtain ⟨bytes, rest, hread⟩ := Pipe.exists_read 4 (hst (by simp))
    simp only [fsrvStep, hread, Option.bind_eq_bind, Option.bind_some, Fsrv.onWord]
    split <;> exact ⟨_, rfl⟩
  | writeReply =>
    have hroom : ctl.bytes.length + (wordBytes (version ^^^ 0xffffffff#32)).length ≤ capacity := by
      rw [hctl version rfl, List.length_nil, length_wordBytes, Nat.zero_add]
      exact hcap
    obtain ⟨ctl', hwrite⟩ := Pipe.exists_write hroom
    simp only [fsrvStep, hwrite]
    exact ⟨_, rfl⟩
  | @readDict n hn =>
    have hne := hst (by simp)
    obtain ⟨bytes, rest, hread⟩ := Pipe.exists_read 1 hne
    have hroom : (t.dict.take n).length + 1 ≤ t.dictLen.toNat := by
      rw [List.length_take_of_le hn.le, h.toNat_dictLen]
      exact hn
    simp only [fsrvStep, hread,
      if_pos (⟨le_rfl, List.length_pos_iff.2 hne, hroom⟩ : 1 ≤ 1 ∧ 1 ≤ st.bytes.length ∧ _)]
    exact ⟨_, rfl⟩
  | ready => exact absurd rfl hready

/-- When neither side can go on, they have said everything. -/
theorem Inv.ready_of_stuck (hi : s.Inv t f tokens) (h : Compatible t f tokens)
    (hcap : 4 ≤ capacity) (hstuck : Stuck (State.step t) s) : s.fsrvPoint = .ready := by
  by_contra hready
  have hempty : s.st.bytes = [] ∧ ∀ keep, s.fsrvPoint ≠ .writeReply keep := by
    by_contra hgoes
    obtain ⟨s', hs'⟩ := exists_fsrvStep hcap h hi.fsrvAt hready
      (fun hnot hst => hgoes ⟨hst, hnot⟩) fun _ => hi.ctl_eq_nil
    exact absurd ((hstuck (.fsrv 1)).symm.trans hs') (by simp)
  have hst := hi.st_eq
  rw [hempty.1, List.nil_append] at hst
  have htarget : s.target ≠ .ready := by
    intro hsaid
    rcases hi.fsrvAt.length_toFsrv with hready' | hlong
    · exact hready hready'
    · rw [← hst, hsaid, Target.toWrite, List.length_nil] at hlong
      exact absurd hlong (by decide)
  have hwait : s.target = .readReply → s.ctl.bytes ≠ [] := by
    intro hpoint hnone
    have hctl := hi.ctl_eq
    rw [hpoint, hnone, List.nil_append] at hctl
    rw [hpoint] at hst
    rcases hi.fsrvAt.toWrite_cases with hfirst | ⟨keep, hkeep⟩ | hnothing
    · rw [hfirst] at hst
      exact absurd (congrArg List.length hst) (by simp [Target.toWrite, Target.toFsrv])
    · exact hempty.2 keep hkeep
    · rw [hnothing] at hctl
      exact absurd (congrArg List.length hctl) (by simp [TargetPoint.toRead, length_reply])
  obtain ⟨s', hs'⟩ := exists_targetStep hcap hi.targetAt hempty.1 htarget hwait
  exact absurd ((hstuck (.target 1)).symm.trans hs') (by simp)

end State

/-! ## The handshake -/

/-- The handshake ends, whatever the order of the steps and the sizes of the pieces, with both
sides ready for the first request. The dictionary is fed to the fuzzer token by token, unless
`AFL_NO_AUTODICT` is set or it has no use for it. -/
theorem handshake_established (h : Compatible t f tokens) (hcap : 4 ≤ capacity) :
    EndsIn (State.step t) (State.Established t f (f.calls tokens))
      (State.start f : State capacity) :=
  endsIn_of_measure (State.remaining t) (fun _ _ _ hi hs => (hi.step h hs).1)
    (fun _ _ _ hi hs => (hi.step h hs).2)
    (fun _ hi hstuck => hi.established h (hi.ready_of_stuck h hcap hstuck)) State.inv_start

def sampleToken : Token := ⟨[0x47#8, 0x45#8, 0x54#8], by decide⟩

def sampleTarget : Target := ⟨100#32, true, some (blob [sampleToken])⟩

/-- The settings of `afl-fuzz`. -/
def sampleFsrv : Fsrv := { mapSize := 0x800000#32, supportShmemFuzz := true, addExtraFunc := true }

theorem sample_compatible (ignoreAutodict : Bool) :
    Compatible sampleTarget { sampleFsrv with ignoreAutodict } [sampleToken] where
  mapSize_le := show sampleTarget.mapSize ≤ sampleFsrv.sharedMap by decide
  aligned := show 64 ∣ sampleFsrv.mapSize.toNat by decide
  shmem := fun _ => rfl
  dict_eq := rfl
  dict_size := fun _ => by decide

theorem handshake_established_sample : EndsIn (State.step sampleTarget)
    (State.Established sampleTarget sampleFsrv [[0x47#8, 0x45#8, 0x54#8]])
    (State.start sampleFsrv : State 4096) :=
  handshake_established (sample_compatible false) (by decide)

/-- The settings of `afl-fuzz` under `AFL_NO_AUTODICT`. -/
def noAutodictFsrv : Fsrv := { sampleFsrv with ignoreAutodict := true }

/-- Each side goes on when the other waits, and the dictionary passes in two pieces. -/
def sampleActions : List Action :=
  [.target 0, .fsrv 0, .fsrv 0, .target 0, .target 0, .fsrv 0, .target 0, .fsrv 0, .target 0,
    .fsrv 0, .target 3, .fsrv 2, .target 1, .fsrv 2, .target 0, .fsrv 0]

theorem State.stuck_of_ready {s : State capacity} (htarget : s.target = .ready)
    (hfsrv : s.fsrvPoint = .ready) : Stuck (State.step t) s := by
  obtain ⟨point, g, q, st, ctl⟩ := s
  dsimp only at htarget hfsrv
  subst htarget hfsrv
  intro a
  cases a with
  | target n => rfl
  | fsrv n =>
    simp only [step, fsrvStep, Fsrv.onWord, Option.bind_eq_bind, Option.bind_none,
      Option.bind_fun_none]

/-- Under `AFL_NO_AUTODICT` the dictionary is read, but not used. -/
theorem handshake_no_autodict :
    Compatible sampleTarget noAutodictFsrv [sampleToken] ∧
      ¬EndsIn (State.step sampleTarget)
        (State.Established sampleTarget noAutodictFsrv ([sampleToken].map Token.bytes))
        (State.start noAutodictFsrv : State 4096) := by
  refine ⟨sample_compatible true, ?_⟩
  have hend : (run (State.step sampleTarget) (State.start noAutodictFsrv : State 4096)
      sampleActions).map (fun s => (s.target, s.fsrvPoint, s.fsrv.extras)) =
        some (.ready, .ready, []) := by decide
  obtain ⟨s, hrun, hs⟩ := Option.map_eq_some_iff.1 hend
  rw [Prod.mk.injEq, Prod.mk.injEq] at hs
  refine not_endsIn hrun (State.stuck_of_ready hs.1 hs.2.1) fun hestablished => ?_
  have hextras := hestablished.extras_eq
  rw [hs.2.2] at hextras
  exact absurd hextras (by decide)

end AflPlusPlus.ForkserverHandshake
