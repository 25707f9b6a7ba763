import AflPlusPlus.ForkserverRunsInvariants

/-!
# The steps of a run keep the invariant

Each step of the fuzzer, of the target and of a child is taken in few of the phases, and leads
to the next one or leaves the phase as it is.
-/

namespace AflPlusPlus.ForkserverRuns
variable {cfg : Settings} {s s' : State}

namespace State

theorem inv_start : ({} : State).Inv where
  alone := fun _ _ => rfl
  table := ⟨nofun, nofun, nofun, .nil⟩
  answered := nofun
  later := fun _ _ => rfl
  timeout := fun h => absurd rfl h
  phase := .idle rfl rfl rfl rfl rfl rfl rfl (.inl ⟨rfl, rfl⟩)

/-- A word that is read now leaves the other requests alone. -/
theorem received_receive (s : State) (m : Message) (st : List Message) :
    (s.receive m st).received s.completed = s.received s.completed ++ [m] :=
  Function.update_self ..

/-- A change to the one process leaves the others absent. -/
theorem alone_update {procs : ℕ → Option Proc} {childPid : ℕ}
    (h : ∀ pid, pid ≠ childPid ∨ pid = 0 → procs pid = none) (hpos : 0 < childPid)
    (proc : Option Proc) :
    ∀ pid, pid ≠ childPid ∨ pid = 0 → Function.update procs childPid proc pid = none := by
  intro pid hpid
  have hne : pid ≠ childPid := by omega
  exact (Function.update_of_ne hne _ _).trans (h pid hpid)

theorem pos_of_some {procs : ℕ → Option Proc} {childPid : ℕ} {p : Proc}
    (h : ∀ pid, pid ≠ childPid ∨ pid = 0 → procs pid = none) (hp : procs childPid = some p) :
    0 < childPid := by
  by_contra hzero
  rw [h childPid (.inr (by omega))] at hp
  exact absurd hp (by simp)

namespace Inv

theorem answered_receive (h : s.Inv) (m : Message) (st : List Message) :
    ∀ k < s.completed, (s.receive m st).Answered k := by
  intro k hk
  obtain ⟨c, m₁, m₂, hserved, hreceived, hm⟩ := h.answered k hk
  exact ⟨c, m₁, m₂, hserved, (Function.update_of_ne hk.ne _ _).trans hreceived, hm⟩

theorem later_receive (h : s.Inv) (m : Message) (st : List Message) :
    ∀ k, s.completed < k → (s.receive m st).received k = [] :=
  fun k hk => (Function.update_of_ne hk.ne' _ _).trans (h.later k hk)

/-! ## Steps of the fuzzer -/

theorem request (h : s.Inv) {timeout : ℕ} (hs : s.request timeout = some s') : s'.Inv := by
  unfold State.request at hs
  split at hs
  · next hguard =>
    obtain ⟨hpoint, hpos, hlt⟩ := hguard
    obtain rfl := Option.some.inj hs
    refine { h with
      timeout := fun _ => ⟨hpos, hlt⟩
      phase := ?_ }
    cases h.phase with
    | idle hfsrv htarget hctl hst haccepted hrequests hreceived hrest =>
      exact .asked ⟨rfl, hst, by rw [hrequests], rfl, hreceived⟩ htarget (by rw [hctl]; rfl)
        haccepted hrest
    | asked hasking | reaping hasking | spawning hasking =>
      exact absurd (hasking.point_eq.symm.trans hpoint) (by simp)
    | serving hserving => exact absurd hpoint hserving.fsrv.point_ne_idle
  · exact absurd hs (by simp)

/-- The first word of the status pipe, which is about the child of this request. -/
theorem serving_of_st (h : s.Inv) {m : Message} {st : List Message} (hst : s.st = m :: st)
    (hidle : s.fsrv.point ≠ .idle) :
    ∃ c owed kinds, s.Serving c owed (m.kind :: kinds) ∧
      Carries s.target.childPid c s.completed m ∧
      (∀ m ∈ st, Carries s.target.childPid c s.completed m) ∧
      st.map Message.kind ++ owed = kinds := by
  obtain ⟨c, owed, expected, hserving⟩ :=
    h.phase.serving_of_fsrv hidle fun _ => by rw [hst]; exact List.cons_ne_nil _ _
  have hall := hserving.carries
  have hkinds := hserving.kinds
  rw [hst] at hall hkinds
  rw [List.map_cons, List.cons_append] at hkinds
  exact ⟨c, owed, _, hkinds ▸ hserving, hall m List.mem_cons_self,
    fun m hm => hall m (List.mem_cons_of_mem _ hm), rfl⟩

theorem readPid (h : s.Inv) (hs : s.readPid = some s') : s'.Inv := by
  unfold State.readPid at hs
  split at hs
  · next m st hpoint hst =>
    obtain rfl := Option.some.inj hs
    obtain ⟨c, owed, kinds, hserving, hm, hall, hkinds⟩ :=
      h.serving_of_st hst (by rw [hpoint]; simp)
    obtain ⟨hexpected, htime, hspared, hreceived⟩ := hserving.fsrv.of_readPid hpoint
    obtain ⟨hkind, rfl⟩ := List.cons.inj hexpected
    have hpid : IsPid c s.completed m :=
      ⟨by rw [hm.word_eq hkind]; exact_mod_cast hserving.pid_pos, hkind, hm.child_eq,
        hm.request_eq⟩
    refine { h with
      table := ?_
      answered := h.answered_receive m st
      later := h.later_receive m st
      phase := .serving { hserving with
        fsrv := ?_
        carries := hall
        kinds := hkinds } }
    · rw [hm.child_eq]
      exact h.table.logged (.inr rfl) hspared
    · exact .select (if_neg (not_le.2 hpid.1)) htime (hm.word_eq hkind) hserving.pid_pos
        ((received_receive s m st).trans (by rw [hreceived]; rfl)) hpid
  · exact absurd hs (by simp)

/-- The time that `read_s32_timed` reports for a word is positive and not over the timeout. -/
theorem execMs_spec (f : Fsrv) (hpos : 0 < f.timeout) (elapsed : ℕ) :
    f.execMs elapsed ≠ 0 ∧ f.afterRead (f.execMs elapsed) = .report (f.execMs elapsed) := by
  have hexec : f.execMs elapsed = max 1 (min f.timeout elapsed) := rfl
  refine ⟨by omega, if_neg ?_⟩
  omega

/-- When the timeout passes, the child is killed, unless `timeout_ms + 1` overflows. -/
theorem afterRead_timeout (f : Fsrv) (hlt : f.timeout < 2 ^ 32) :
    f.timeout = 2 ^ 32 - 1 ∧ f.afterRead ((f.timeout + 1) % 2 ^ 32) = .report 0 ∨
      ∃ execMs ≠ 0, f.afterRead ((f.timeout + 1) % 2 ^ 32) = .kill execMs := by
  by_cases hmax : f.timeout = 2 ^ 32 - 1
  · have hzero : (f.timeout + 1) % 2 ^ 32 = 0 := by rw [hmax]; rfl
    rw [hzero]
    exact .inl ⟨hmax, if_neg (Nat.not_lt_zero _)⟩
  · have hnext : (f.timeout + 1) % 2 ^ 32 = f.timeout + 1 := Nat.mod_eq_of_lt (by omega)
    rw [hnext]
    exact .inr ⟨_, Nat.succ_ne_zero _, if_pos (Nat.lt_succ_self _)⟩

theorem rank_afterRead (f : Fsrv) (execMs : ℕ) :
    (f.afterRead execMs).rank < FsrvPoint.select.rank := by
  unfold Fsrv.afterRead
  split
  · exact Nat.lt_succ_self 3
  · exact Nat.lt_of_lt_of_le (Nat.lt_succ_self 1) (by decide)

theorem select (h : s.Inv) {elapsed : ℕ} (hs : s.select elapsed = some s') : s'.Inv := by
  unfold State.select at hs
  split at hs
  · next m st hpoint hst =>
    obtain rfl := Option.some.inj hs
    obtain ⟨c, owed, kinds, hserving, hm, hall, hkinds⟩ :=
      h.serving_of_st hst (by rw [hpoint]; simp)
    obtain ⟨hexpected, -, -, -, m₁, hreceived, hpid⟩ := hserving.fsrv.of_select hpoint
    obtain ⟨hkind, rfl⟩ := List.cons.inj hexpected
    obtain ⟨hpos, -⟩ := h.timeout (by rw [hserving.requests_eq]; simp)
    obtain ⟨hexec, hnext⟩ := execMs_spec { s.fsrv with childStatus := m.word } hpos elapsed
    exact { h with
      answered := h.answered_receive m st
      later := h.later_receive m st
      phase := .serving { hserving with
        fsrv := .report hnext hexec ((received_receive s m st).trans (by rw [hreceived]; rfl)) hpid
          ⟨hkind, hm.child_eq, hm.request_eq⟩
        carries := hall
        kinds := hkinds } }
  · exact absurd hs (by simp)

theorem readStatus (h : s.Inv) (hs : s.readStatus = some s') : s'.Inv := by
  unfold State.readStatus at hs
  split at hs
  · next execMs m st hpoint hst =>
    obtain rfl := Option.some.inj hs
    obtain ⟨c, owed, kinds, hserving, hm, hall, hkinds⟩ :=
      h.serving_of_st hst (by rw [hpoint]; simp)
    obtain ⟨hexpected, hexec, m₁, hreceived, hpid⟩ := hserving.fsrv.of_readStatus hpoint
    obtain ⟨hkind, rfl⟩ := List.cons.inj hexpected
    exact { h with
      answered := h.answered_receive m st
      later := h.later_receive m st
      phase := .serving { hserving with
        fsrv := .report rfl hexec ((received_receive s m st).trans (by rw [hreceived]; rfl)) hpid
          ⟨hkind, hm.child_eq, hm.request_eq⟩
        carries := hall
        kinds := hkinds } }
  · exact absurd hs (by simp)

theorem selectTimeout (h : s.Inv) (hs : s.selectTimeout = some s') : s'.Inv := by
  unfold State.selectTimeout at hs
  split at hs
  · next hpoint hst =>
    obtain rfl := Option.some.inj hs
    obtain ⟨c, owed, expected, hserving⟩ :=
      h.phase.serving_of_fsrv (by rw [hpoint]; simp) (by rw [hpoint]; simp)
    obtain ⟨rfl, htime, hpid, hpos, m, hreceived, hm⟩ := hserving.fsrv.of_select hpoint
    obtain ⟨-, hhigh⟩ := h.timeout (by rw [hserving.requests_eq]; simp)
    refine { h with
      phase := .serving { hserving with fsrv := ?_ } }
    rcases afterRead_timeout { s.fsrv with childStatus := -1 } hhigh with
      ⟨hmax, hnext⟩ | ⟨execMs, hexec, hnext⟩
    · exact .givesUp (.inl hnext) hmax hreceived hm
    · exact .kill hnext hexec htime hpid hpos hreceived hm
  · exact absurd hs (by simp)

theorem reported_spec (cfg : Settings) (f : Fsrv) (execFail : Bool) :
    (f.reported cfg execFail).point = .idle ∧
      (f.reported cfg execFail).lastRunTimedOut = f.lastRunTimedOut ∧
      (f.reported cfg execFail).timeout = f.timeout := by
  unfold Fsrv.reported
  dsimp only
  split_ifs <;> exact ⟨rfl, rfl, rfl⟩

theorem report (h : s.Inv) {execFail : Bool} (hs : s.report cfg execFail = some s') :
    s'.Inv := by
  unfold State.report at hs
  split at hs
  · next execMs hpoint =>
    obtain ⟨c, owed, expected, hserving⟩ :=
      h.phase.serving_of_fsrv (by rw [hpoint]; simp) (by rw [hpoint]; simp)
    split at hs
    · next hzero =>
      subst hzero
      obtain rfl := Option.some.inj hs
      obtain ⟨rfl, htime, m, hreceived, hm⟩ := hserving.fsrv.of_report_zero hpoint
      exact { h with
        phase := .serving { hserving with
          fsrv := .givesUp (.inr rfl) htime hreceived hm } }
    · next hexec =>
      obtain rfl := Option.some.inj hs
      obtain ⟨rfl, m, m', hreceived, hm, hm'⟩ := hserving.fsrv.of_report hpoint hexec
      obtain ⟨hst, rfl⟩ := List.append_eq_nil_iff.1 hserving.kinds
      obtain ⟨htarget, hrest⟩ := hserving.target.of_nil rfl
      obtain ⟨hnextPoint, hnextTime, hnextTimeout⟩ := reported_spec cfg s.fsrv execFail
      refine { h with
        answered := ?_
        later := fun k hk => h.later k (Nat.lt_of_succ_lt hk)
        timeout := ?_
        phase := ?_ }
      · intro k hk
        rcases Nat.lt_succ_iff_lt_or_eq.1 hk with hk | rfl
        · exact h.answered k hk
        · exact ⟨c, m, m', hserving.served_eq, hreceived, hm, hm'⟩
      · intro hrequests
        rw [hnextTimeout]
        exact h.timeout hrequests
      · refine .idle hnextPoint htarget hserving.ctl_eq (List.map_eq_nil_iff.1 hst)
          hserving.accepted_eq hserving.requests_eq (h.later _ (Nat.lt_succ_self _)) ?_
        rw [hnextTime]
        exact hrest
  · exact absurd hs (by simp)

/-- `SIGKILL` reaches the child of this request or nobody, since its id is not taken again
before it is reaped. -/
theorem kill (h : s.Inv) (hs : s.kill = some s') : s'.Inv := by
  unfold State.kill at hs
  split at hs
  · next execMs hpoint =>
    obtain ⟨c, owed, expected, hserving⟩ :=
      h.phase.serving_of_fsrv (by rw [hpoint]; simp) (by rw [hpoint]; simp)
    obtain ⟨rfl, hexec, htime, hpid, hpos, m, hreceived, hm⟩ := hserving.fsrv.of_kill hpoint
    have hchildPid : 0 < s.fsrv.childPid := by rw [hpid]; exact_mod_cast hpos
    have hnat : s.fsrv.childPid.toNat = s.target.childPid := by rw [hpid, Int.toNat_natCast]
    dsimp only at hs
    rw [if_pos hchildPid, if_pos hchildPid, hnat] at hs
    cases hproc : s.procs s.target.childPid with
    | none =>
      rw [hproc] at hs
      obtain rfl := Option.some.inj hs
      refine { h with
        phase := .serving { hserving with
          target := ?_
          fsrv := .readStatus rfl hexec Nat.one_ne_zero hreceived hm } }
      have htarget := hserving.target
      rw [hproc] at htarget
      rw [hproc]
      exact htarget.absent
    | some p =>
      rw [hproc] at hs
      obtain rfl := Option.some.inj hs
      have htable := h.table
      have htarget := hserving.target
      rw [hproc] at htable htarget
      refine { h with
        alone := ?_
        table := ?_
        phase := .serving { hserving with
          target := ?_
          fsrv := .readStatus rfl hexec Nat.one_ne_zero hreceived hm } }
      · exact alone_update h.alone hserving.pid_pos _
      · exact htable.killed.update s.procs _
      · exact (htarget.kill Nat.one_ne_zero).update s.procs _
  · exact absurd hs (by simp)

/-! ## Steps of the target -/

theorem readRequest (h : s.Inv) (hs : s.readRequest = some s') : s'.Inv := by
  unfold State.readRequest at hs
  split at hs
  · next w ctl hpoint hctl =>
    cases h.phase with
    | idle _ _ hempty => exact absurd (hctl.symm.trans hempty) (by simp)
    | @asked w' hasking htarget hone haccepted hrest =>
      obtain ⟨rfl, rfl⟩ := List.cons.inj (hctl.symm.trans hone)
      split at hs
      · next hboth =>
        obtain rfl := Option.some.inj hs
        rcases hrest with ⟨hstopped, -⟩ | ⟨-, p, hproc, hhalted, hkilled⟩
        · exact absurd (hstopped.symm.trans hboth.1) (by simp)
        · exact { h with
            phase := .reaping { hasking with } rfl rfl (congrArg _ haccepted) rfl hproc hhalted
              (hkilled.2 hboth.2) }
      · next hnot =>
        obtain rfl := Option.some.inj hs
        refine { h with
          phase := .spawning { hasking with } rfl rfl (congrArg _ haccepted) ?_ }
        rcases hrest with hgone | ⟨hstopped, p, hproc, hhalted, hkilled⟩
        · exact .inl hgone
        · exact .inr ⟨hstopped, p, hproc, hhalted,
            hkilled.trans (iff_false_intro fun hw => hnot ⟨hstopped, hw⟩)⟩
    | reaping _ htarget | spawning _ htarget => exact absurd (htarget.symm.trans hpoint) (by simp)
    | serving hserving => exact absurd (hctl.symm.trans hserving.ctl_eq) (by simp)
  · exact absurd hs (by simp)

theorem reap (h : s.Inv) (hs : s.reap = some s') : s'.Inv := by
  have hphase : s.target.point = .reap → s.Asking ∧ s.ctl = [] ∧ s.accepted = s.completed + 1 ∧
      s.target.childStopped = false ∧
      ∃ p, s.procs s.target.childPid = some p ∧ p.Halted := by
    intro hpoint
    cases h.phase with
    | reaping hasking _ hctl haccepted hstopped hproc hhalted =>
      exact ⟨hasking, hctl, haccepted, hstopped, _, hproc, hhalted⟩
    | idle _ htarget | asked _ htarget | spawning _ htarget =>
      exact absurd (htarget.symm.trans hpoint) (by simp)
    | serving hserving => exact absurd hpoint hserving.target.point_ne.1
  unfold State.reap at hs
  split at hs
  · next hpoint hnone =>
    obtain ⟨-, -, -, -, p, hproc, -⟩ := hphase hpoint
    exact absurd (hproc.symm.trans hnone) (by simp)
  · next p hpoint hproc =>
    obtain ⟨hasking, hctl, haccepted, hstopped, -⟩ := hphase hpoint
    obtain ⟨⟨status, left⟩, hwait, hs⟩ := Option.bind_eq_some_iff.1 hs
    obtain rfl := Option.some.inj hs
    obtain rfl : left = none := by
      rcases Proc.wait_spec hwait with ⟨-, hleft, -⟩ | ⟨-, huntraced, -⟩
      · exact hleft
      · exact absurd huntraced (by simp)
    exact { h with
      alone := alone_update h.alone (pos_of_some h.alone hproc) _
      table := h.table.reaped.update s.procs _
      phase := .spawning { hasking with } rfl hctl haccepted
        (.inl ⟨hstopped, Function.update_self ..⟩) }
  · exact absurd hs (by simp)

/-- The child that serves a request is recorded for this request only. -/
theorem answered_serve (h : s.Inv) (haccepted : s.accepted = s.completed + 1) (child : ℕ) :
    (∀ k < s.completed, (s.serve child).Answered k) ∧
      (s.serve child).served s.completed = some child := by
  have hindex : s.accepted - 1 = s.completed := by rw [haccepted, Nat.add_sub_cancel]
  constructor
  · intro k hk
    obtain ⟨c, m, m', hserved, hreceived⟩ := h.answered k hk
    refine ⟨c, m, m', ?_, hreceived⟩
    exact (Function.update_of_ne (by omega) _ _).trans hserved
  · unfold serve
    rw [hindex]
    exact Function.update_self ..

theorem spawning_of_point (h : s.Inv) (hpoint : s.target.point = .forkOrResume) : s.Asking ∧
    s.ctl = [] ∧ s.accepted = s.completed + 1 ∧
    Rest s.target.childStopped (s.procs s.target.childPid) False := by
  cases h.phase with
  | spawning hasking _ hctl haccepted hrest => exact ⟨hasking, hctl, haccepted, hrest⟩
  | idle _ htarget | asked _ htarget | reaping _ htarget =>
    exact absurd (htarget.symm.trans hpoint) (by simp)
  | serving hserving => exact absurd hpoint hserving.target.point_ne.2

theorem fork (h : s.Inv) {pid : ℕ} (hs : s.fork pid = some s') : s'.Inv := by
  unfold State.fork at hs
  split at hs
  · next hpoint =>
    obtain ⟨hasking, hctl, haccepted, hrest⟩ := h.spawning_of_point hpoint
    obtain ⟨hanswered, hserved⟩ := h.answered_serve haccepted s.forked
    split at hs
    · next hguard =>
      obtain ⟨hstopped, hpos, -⟩ := hguard
      obtain rfl := Option.some.inj hs
      rw [Bool.not_eq_true'] at hstopped
      have hnone : ∀ q, s.procs q = none := by
        intro q
        rcases hrest with ⟨-, hgone⟩ | ⟨hstopped', -⟩
        · by_cases hq : q = s.target.childPid
          · rw [hq, hgone]
          · exact h.alone q (.inl hq)
        · exact absurd (hstopped.symm.trans hstopped') (by simp)
      refine { h with
        alone := alone_update (fun q _ => hnone q) hpos _
        table := h.table.spawned.update s.procs pid
        answered := hanswered
        phase := @Phase.serving _ s.forked [.pid, .status] [.pid, .status]
          ⟨hctl, haccepted, hasking.requests_eq, hserved, hpos, ?_, ?_, ?_, ?_⟩ }
      · have hserves : TargetServes { s.target with childPid := pid, point := .writePid }
            (some ⟨s.forked, .running, false⟩) (s.fsrv.lastRunTimedOut ≠ 0) s.forked
            [.pid, .status] :=
          .writePid rfl hstopped rfl rfl (fun sig => by simp)
            (iff_of_false (by simp) (not_not.2 hasking.in_time))
        exact hserves.update s.procs pid
      · exact .readPid hasking.point_eq hasking.in_time
          (fun hmem => lt_irrefl _ (h.table.killed_lt _ hmem)) hasking.received_eq
      · intro m hm
        exact absurd (hasking.st_eq ▸ hm) (by simp)
      · exact congrArg (fun st => List.map Message.kind st ++ [Kind.pid, .status]) hasking.st_eq
    · exact absurd hs (by simp)
  · exact absurd hs (by simp)

/-- The child that is resumed has not been killed. -/
theorem resume (h : s.Inv) (hs : s.resume = some s') : s'.Inv := by
  unfold State.resume at hs
  split at hs
  · next hpoint =>
    obtain ⟨hasking, hctl, haccepted, hrest⟩ := h.spawning_of_point hpoint
    split at hs
    · next hstopped =>
      rcases hrest with ⟨hstopped', -⟩ | ⟨-, p, hproc, -, hkilled⟩
      · exact absurd (hstopped'.symm.trans hstopped) (by simp)
      · have hspared : p.killed = false := Bool.eq_false_iff.2 hkilled.1
        have htable := h.table
        dsimp only at hs
        rw [hproc] at hs htable
        obtain rfl := Option.some.inj hs
        obtain ⟨hanswered, hserved⟩ := h.answered_serve haccepted p.child
        obtain ⟨hchild, hkilled', hnew⟩ := p.cont_spec
        have hpos := pos_of_some h.alone hproc
        have hlog := htable.spared p rfl hspared
        refine { h with
          alone := alone_update h.alone hpos _
          table := ((htable.changed hchild hkilled').logged (.inl rfl) hlog).update s.procs _
          answered := hanswered
          phase := @Phase.serving _ p.child [.pid, .status] [.pid, .status]
            ⟨hctl, haccepted, hasking.requests_eq, hserved, hpos, ?_, ?_, ?_, ?_⟩ }
        · have hserves : TargetServes { s.target with childStopped := false, point := .writePid }
              (some p.cont) (s.fsrv.lastRunTimedOut ≠ 0) p.child [.pid, .status] :=
            .writePid rfl rfl rfl hchild hnew
              (iff_of_false (by rw [hkilled', hspared]; simp) (not_not.2 hasking.in_time))
          exact hserves.update s.procs _
        · refine .readPid hasking.point_eq hasking.in_time ?_ hasking.received_eq
          intro hmem
          rcases List.mem_append.1 hmem with hmem | hmem
          · exact hlog hmem
          · simp at hmem
        · intro m hm
          exact absurd (hasking.st_eq ▸ hm) (by simp)
        · exact congrArg (fun st => List.map Message.kind st ++ [Kind.pid, .status]) hasking.st_eq
    · exact absurd hs (by simp)
  · exact absurd hs (by simp)

/-- A word that is written about the child of the request is one that it carries. -/
theorem Serving.write {c : ℕ} {owed expected : List Kind} (h : s.Serving c owed expected)
    {m : Message} (hm : Carries s.target.childPid c s.completed m) :
    ∀ m' ∈ s.st ++ [m], Carries s.target.childPid c s.completed m' := by
  intro m' hm'
  rcases List.mem_append.1 hm' with hm' | hm'
  · exact h.carries m' hm'
  · rwa [List.mem_singleton.1 hm']

theorem writePid (h : s.Inv) (hs : s.writePid = some s') : s'.Inv := by
  unfold State.writePid at hs
  split at hs
  · next hpoint =>
    obtain rfl := Option.some.inj hs
    obtain ⟨c, owed, expected, hserving⟩ := h.phase.serving_of_target (by rw [hpoint]; simp)
      (by rw [hpoint]; simp) (by rw [hpoint]; simp)
    obtain ⟨rfl, hstopped, p, hproc, hchild, hnew, hkilled⟩ :=
      hserving.target.of_writePid hpoint
    have hindex : s.accepted - 1 = s.completed := by
      rw [hserving.accepted_eq, Nat.add_sub_cancel]
    refine { h with
      phase := .serving { hserving with
        target := .waitChild rfl hstopped hproc hchild hnew hkilled
        carries := Serving.write hserving ⟨?_, hindex, fun _ => rfl⟩
        kinds := ?_ } }
    · rw [hproc, Option.map_some, hchild]
    · rw [← hserving.kinds]
      simp
  · exact absurd hs (by simp)

theorem waitChild (h : s.Inv) (hs : s.waitChild cfg = some s') : s'.Inv := by
  have hphase : s.target.point = .waitChild → ∃ c expected,
      s.Serving c [.status] expected ∧ s.target.childStopped = false ∧
      ∃ p, s.procs s.target.childPid = some p ∧ p.child = c ∧
        (p.killed = true ↔ s.fsrv.lastRunTimedOut ≠ 0) := by
    intro hpoint
    obtain ⟨c, owed, expected, hserving⟩ := h.phase.serving_of_target (by rw [hpoint]; simp)
      (by rw [hpoint]; simp) (by rw [hpoint]; simp)
    obtain ⟨rfl, hstopped, p, hproc, hchild, -, hkilled⟩ := hserving.target.of_waitChild hpoint
    exact ⟨c, expected, hserving, hstopped, p, hproc, hchild, hkilled⟩
  unfold State.waitChild at hs
  split at hs
  · next hpoint hnone =>
    obtain ⟨-, -, -, -, p, hproc, -⟩ := hphase hpoint
    exact absurd (hproc.symm.trans hnone) (by simp)
  · next p hpoint hproc =>
    obtain ⟨c, expected, hserving, hstopped, q, hq, hchild, hkilled⟩ := hphase hpoint
    obtain rfl := Option.some.inj (hproc.symm.trans hq)
    obtain ⟨⟨status, left⟩, hwait, hs⟩ := Option.bind_eq_some_iff.1 hs
    obtain rfl := Option.some.inj hs
    have htable := h.table
    rw [hproc] at htable
    have hleft : Table left s.forked s.log ∧
        Rest (s.target.childStopped || wIfStopped status) left (s.fsrv.lastRunTimedOut ≠ 0) := by
      rw [hstopped, Bool.false_or]
      rcases Proc.wait_spec hwait with ⟨hdead, rfl, -⟩ | ⟨hstops, -, sig, -, rfl⟩
      · exact ⟨htable.reaped, .inl ⟨hdead, rfl⟩⟩
      · exact ⟨htable.changed rfl rfl, .inr ⟨hstops, _, rfl, .inl ⟨sig, rfl⟩, hkilled⟩⟩
    exact { h with
      alone := alone_update h.alone hserving.pid_pos _
      table := hleft.1.update s.procs _
      phase := .serving { hserving with
        target := .writeStatus (congrArg _ hchild) (hleft.2.update s.procs _) } }
  · exact absurd hs (by simp)

theorem writeStatus (h : s.Inv) (hs : s.writeStatus = some s') : s'.Inv := by
  unfold State.writeStatus at hs
  split at hs
  · next status child hpoint =>
    obtain rfl := Option.some.inj hs
    obtain ⟨c, owed, expected, hserving⟩ := h.phase.serving_of_target (by rw [hpoint]; simp)
      (by rw [hpoint]; simp) (by rw [hpoint]; simp)
    obtain ⟨rfl, rfl, hrest⟩ := hserving.target.of_writeStatus hpoint
    have hindex : s.accepted - 1 = s.completed := by
      rw [hserving.accepted_eq, Nat.add_sub_cancel]
    refine { h with
      phase := .serving { hserving with
        target := .readRequest rfl hrest
        carries := Serving.write hserving ⟨rfl, hindex, by simp⟩
        kinds := ?_ } }
    rw [← hserving.kinds]
    simp
  · exact absurd hs (by simp)

/-! ## Steps of a child -/

/-- The only child that can take a step is the one that the target knows of. -/
theorem childStep_cases (h : s.Inv) {pid : ℕ} {event : ChildEvent}
    (hs : s.childStep pid event = some s') :
    pid = s.target.childPid ∧ ∃ p p', s.procs s.target.childPid = some p ∧
      p.step event = some p' ∧ s' = s.setProc s.target.childPid (some p') := by
  unfold State.childStep at hs
  obtain ⟨p, hproc, hs⟩ := Option.bind_eq_some_iff.1 hs
  obtain ⟨p', hstep, hs⟩ := Option.bind_eq_some_iff.1 hs
  obtain rfl := Option.some.inj hs
  obtain rfl : pid = s.target.childPid := by
    by_contra hne
    rw [h.alone pid (.inl hne)] at hproc
    exact absurd hproc (by simp)
  exact ⟨rfl, p, p', hproc, hstep, rfl⟩

theorem childStep (h : s.Inv) {pid : ℕ} {event : ChildEvent}
    (hs : s.childStep pid event = some s') :
    s'.Inv := by
  obtain ⟨rfl, p, p', hproc, hstep, rfl⟩ := h.childStep_cases hs
  have hpos := pos_of_some h.alone hproc
  obtain ⟨hchild, hkilled, -⟩ := Proc.step_spec hstep
  have htable := h.table
  rw [hproc] at htable
  have hrest : ∀ {killed}, Rest s.target.childStopped (s.procs s.target.childPid) killed →
      Rest s.target.childStopped
        (Function.update s.procs s.target.childPid (some p') s.target.childPid) killed := by
    intro killed hrest
    rw [hproc] at hrest
    exact (hrest.step hstep).update s.procs _
  refine { h with
    alone := alone_update h.alone hpos _
    table := (htable.changed hchild hkilled).update s.procs _
    phase := ?_ }
  cases h.phase with
  | idle hfsrv htarget hctl hst haccepted hrequests hreceived h =>
    exact .idle hfsrv htarget hctl hst haccepted hrequests hreceived (hrest h)
  | asked hasking htarget hctl haccepted h =>
    exact .asked { hasking with } htarget hctl haccepted (hrest h)
  | reaping hasking htarget hctl haccepted hstopped hq hhalted hk =>
    obtain rfl := Option.some.inj (hproc.symm.trans hq)
    exact .reaping { hasking with } htarget hctl haccepted hstopped (Function.update_self ..)
      (hhalted.step hstep) (hkilled.trans hk)
  | spawning hasking htarget hctl haccepted h =>
    exact .spawning { hasking with } htarget hctl haccepted (hrest h)
  | serving hserving =>
    have htarget := hserving.target
    rw [hproc] at htarget
    exact .serving { hserving with
      target := (htarget.step hstep).update s.procs _ }

theorem step (h : s.Inv) {a : Action} (hs : s.step cfg a = some s') : s'.Inv := by
  cases a with
  | request timeout => exact h.request hs
  | readPid => exact h.readPid hs
  | select elapsed => exact h.select hs
  | selectTimeout => exact h.selectTimeout hs
  | kill => exact h.kill hs
  | readStatus => exact h.readStatus hs
  | report execFail => exact h.report hs
  | readRequest => exact h.readRequest hs
  | reap => exact h.reap hs
  | fork pid => exact h.fork hs
  | resume => exact h.resume hs
  | writePid => exact h.writePid hs
  | waitChild => exact h.waitChild hs
  | writeStatus => exact h.writeStatus hs
  | child pid event => exact h.childStep hs

end Inv

end State

end AflPlusPlus.ForkserverRuns
