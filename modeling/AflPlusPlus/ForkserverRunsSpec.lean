import AflPlusPlus.ForkserverRunsSteps

/-!
# Every run request is answered by its child

Every completed request has received the process id and the status of one child, whatever the
order in which the child, the timeout and the signals came. A request that has been made
leads to its completion in finitely many steps, since every step but the request brings the
end nearer and there is always one to take.
-/

namespace AflPlusPlus.ForkserverRuns
open TransitionSystems

variable {cfg : Settings} {s s' : State}

namespace State

/-- A step that does not begin a request. -/
def serveStep (cfg : Settings) (s : State) : Action → Option State
  | .request _ => none
  | a => s.step cfg a

/-- The steps that the fuzzer and the target have still to take for the request. -/
def duties (s : State) : ℕ := s.fsrv.point.rank + s.target.point.rank + 6 * s.ctl.length

/-- What is left to do for the request. Each step of the fuzzer or the target may let the child
run again. -/
def remaining (s : State) : ℕ := 3 * s.duties + rank (s.procs s.target.childPid)

theorem remaining_lt (h : s'.duties < s.duties) : s'.remaining < s.remaining := by
  have hrank := rank_le (s'.procs s'.target.childPid)
  unfold remaining
  omega

theorem fsrv_remaining (hfsrv : s'.fsrv.point.rank < s.fsrv.point.rank)
    (htarget : s'.target = s.target) (hctl : s'.ctl = s.ctl) : s'.remaining < s.remaining := by
  refine remaining_lt ?_
  rw [duties, duties, htarget, hctl]
  omega

theorem target_remaining (htarget : s'.target.point.rank < s.target.point.rank)
    (hfsrv : s'.fsrv = s.fsrv) (hctl : s'.ctl = s.ctl) : s'.remaining < s.remaining := by
  refine remaining_lt ?_
  rw [duties, duties, hfsrv, hctl]
  omega

/-- Every step of serving a request brings its end nearer. -/
theorem Inv.serveStep (h : s.Inv) {a : Action} (hs : s.serveStep cfg a = some s') :
    s'.remaining < s.remaining ∧ s'.requests = s.requests := by
  cases a with
  | request timeout => exact absurd hs (by simp [State.serveStep])
  | readPid =>
    simp only [State.serveStep, State.step, State.readPid] at hs
    split at hs
    · next hpoint _ =>
      obtain rfl := Option.some.inj hs
      refine ⟨fsrv_remaining ?_ rfl rfl, rfl⟩
      rw [hpoint]
      dsimp only
      split <;> decide
    · exact absurd hs (by simp)
  | select elapsed =>
    simp only [State.serveStep, State.step, State.select] at hs
    split at hs
    · next hpoint _ =>
      obtain rfl := Option.some.inj hs
      refine ⟨fsrv_remaining ?_ rfl rfl, rfl⟩
      rw [hpoint]
      exact rank_afterRead _ _
    · exact absurd hs (by simp)
  | selectTimeout =>
    simp only [State.serveStep, State.step, State.selectTimeout] at hs
    split at hs
    · next hpoint _ =>
      obtain rfl := Option.some.inj hs
      refine ⟨fsrv_remaining ?_ rfl rfl, rfl⟩
      rw [hpoint]
      exact rank_afterRead _ _
    · exact absurd hs (by simp)
  | kill =>
    simp only [State.serveStep, State.step, State.kill] at hs
    split at hs
    · next hpoint =>
      have hrank : ∀ {execMs execMs'},
          (FsrvPoint.readStatus execMs).rank < (FsrvPoint.kill execMs').rank :=
        fun {_ _} => Nat.lt_succ_self 2
      split at hs
      · split at hs
        · obtain rfl := Option.some.inj hs
          exact ⟨fsrv_remaining (by rw [hpoint]; exact hrank) rfl rfl, rfl⟩
        · obtain rfl := Option.some.inj hs
          exact ⟨fsrv_remaining (by rw [hpoint]; exact hrank) rfl rfl, rfl⟩
      · obtain rfl := Option.some.inj hs
        exact ⟨fsrv_remaining (by rw [hpoint]; exact hrank) rfl rfl, rfl⟩
    · exact absurd hs (by simp)
  | readStatus =>
    simp only [State.serveStep, State.step, State.readStatus] at hs
    split at hs
    · next hpoint _ =>
      obtain rfl := Option.some.inj hs
      exact ⟨fsrv_remaining (by rw [hpoint]; exact Nat.lt_succ_self 1) rfl rfl, rfl⟩
    · exact absurd hs (by simp)
  | report execFail =>
    simp only [State.serveStep, State.step, State.report] at hs
    split at hs
    · next hpoint =>
      split at hs
      · obtain rfl := Option.some.inj hs
        exact ⟨fsrv_remaining (by rw [hpoint]; exact Nat.lt_succ_self 0) rfl rfl, rfl⟩
      · obtain rfl := Option.some.inj hs
        refine ⟨fsrv_remaining ?_ rfl rfl, rfl⟩
        rw [hpoint, (reported_spec cfg s.fsrv execFail).1]
        exact Nat.lt_succ_self 0
    · exact absurd hs (by simp)
  | readRequest =>
    simp only [State.serveStep, State.step, State.readRequest] at hs
    split at hs
    · next hpoint hctl =>
      split at hs
      · obtain rfl := Option.some.inj hs
        refine ⟨remaining_lt ?_, rfl⟩
        simp only [duties, hpoint, hctl, TargetPoint.rank, List.length_cons]
        omega
      · obtain rfl := Option.some.inj hs
        refine ⟨remaining_lt ?_, rfl⟩
        simp only [duties, hpoint, hctl, TargetPoint.rank, List.length_cons]
        omega
    · exact absurd hs (by simp)
  | reap =>
    simp only [State.serveStep, State.step, State.reap] at hs
    split at hs
    · next hpoint _ =>
      obtain rfl := Option.some.inj hs
      exact ⟨target_remaining (by rw [hpoint]; exact Nat.succ_pos 4) rfl rfl, rfl⟩
    · next hpoint _ =>
      obtain ⟨⟨status, left⟩, -, hs⟩ := Option.bind_eq_some_iff.1 hs
      obtain rfl := Option.some.inj hs
      exact ⟨target_remaining (by rw [hpoint]; exact Nat.lt_succ_self 4) rfl rfl, rfl⟩
    · exact absurd hs (by simp)
  | fork pid =>
    simp only [State.serveStep, State.step, State.fork] at hs
    split at hs
    · next hpoint =>
      split at hs
      · obtain rfl := Option.some.inj hs
        exact ⟨target_remaining (by rw [hpoint]; exact Nat.lt_succ_self 3) rfl rfl, rfl⟩
      · exact absurd hs (by simp)
    · exact absurd hs (by simp)
  | resume =>
    simp only [State.serveStep, State.step, State.resume] at hs
    split at hs
    · next hpoint =>
      split at hs
      · split at hs
        · obtain rfl := Option.some.inj hs
          exact ⟨target_remaining (by rw [hpoint]; exact Nat.lt_succ_self 3) rfl rfl, rfl⟩
        · obtain rfl := Option.some.inj hs
          exact ⟨target_remaining (by rw [hpoint]; exact Nat.lt_succ_self 3) rfl rfl, rfl⟩
      · exact absurd hs (by simp)
    · exact absurd hs (by simp)
  | writePid =>
    simp only [State.serveStep, State.step, State.writePid] at hs
    split at hs
    · next hpoint =>
      obtain rfl := Option.some.inj hs
      exact ⟨target_remaining (by rw [hpoint]; exact Nat.lt_succ_self 2) rfl rfl, rfl⟩
    · exact absurd hs (by simp)
  | waitChild =>
    simp only [State.serveStep, State.step, State.waitChild] at hs
    split at hs
    · next hpoint _ =>
      obtain rfl := Option.some.inj hs
      exact ⟨target_remaining (by rw [hpoint]; exact Nat.succ_pos 1) rfl rfl, rfl⟩
    · next hpoint _ =>
      obtain ⟨⟨status, left⟩, -, hs⟩ := Option.bind_eq_some_iff.1 hs
      obtain rfl := Option.some.inj hs
      exact ⟨target_remaining (by rw [hpoint]; exact Nat.lt_succ_self 1) rfl rfl, rfl⟩
    · exact absurd hs (by simp)
  | writeStatus =>
    simp only [State.serveStep, State.step, State.writeStatus] at hs
    split at hs
    · next hpoint =>
      obtain rfl := Option.some.inj hs
      exact ⟨target_remaining (by rw [hpoint]; exact Nat.lt_succ_self 0) rfl rfl, rfl⟩
    · exact absurd hs (by simp)
  | child pid event =>
    obtain ⟨rfl, p, p', hproc, hstep, rfl⟩ := h.childStep_cases hs
    refine ⟨Nat.add_lt_add_left ?_ _, rfl⟩
    have hnow : (s.setProc s.target.childPid (some p')).procs s.target.childPid = some p' :=
      Function.update_self ..
    exact (congrArg rank hnow).trans_lt (by rw [hproc]; exact Proc.rank_step hstep)

/-! ## There is always a step -/

/-- The fuzzer is done with its requests, or it has given up at the end of the largest timeout,
which it takes for an error. -/
def Served (requests : ℕ) (s : State) : Prop :=
  s.fsrv.point = .idle ∧ s.completed = requests ∨
    s.fsrv.point = .fatal ∧ s.fsrv.timeout = 2 ^ 32 - 1

theorem not_stuck {a : Action} (hstuck : Stuck (serveStep cfg) s)
    (h : ∃ s', s.serveStep cfg a = some s') : False := by
  obtain ⟨s', hs'⟩ := h
  exact absurd ((hstuck a).symm.trans hs') (by simp)

/-- A process that has been killed dies or is dead. -/
theorem exists_wait_or_dies {p : Proc} (hkilled : p.killed = true) (untraced : Bool) :
    (∃ r, p.wait untraced = some r) ∨ ∃ p', p.step .dies = some p' := by
  cases hstate : p.state with
  | running | stopped sig reported =>
    right
    simp only [Proc.step, hkilled, hstate]
    exact ⟨_, rfl⟩
  | dead death =>
    left
    simp only [Proc.wait, hstate]
    exact ⟨_, rfl⟩

theorem exists_dies {pid : ℕ} {p p' : Proc} (hproc : s.procs pid = some p)
    (hdies : p.step .dies = some p') : ∃ s', s.serveStep cfg (.child pid .dies) = some s' := by
  refine ⟨s.setProc pid (some p'), ?_⟩
  simp [serveStep, step, childStep, hproc, hdies]

/-- A target that owes the status of a killed child can go on, or the child can. -/
theorem exists_status {c : ℕ} (h : TargetServes s.target (s.procs s.target.childPid)
      (s.fsrv.lastRunTimedOut ≠ 0) c [.status]) (htime : s.fsrv.lastRunTimedOut ≠ 0) :
    ∃ a s', s.serveStep cfg a = some s' := by
  cases h with
  | waitChild hpoint hstopped hproc hchild hnew hkilled =>
    rcases exists_wait_or_dies (hkilled.2 htime) cfg.isPersistent with ⟨r, hwait⟩ | ⟨p', hdies⟩
    · refine ⟨.waitChild, ?_⟩
      simp only [State.serveStep, step, waitChild, hpoint, hproc, hwait]
      exact ⟨_, rfl⟩
    · exact ⟨_, exists_dies hproc hdies⟩
  | writeStatus hpoint =>
    refine ⟨.writeStatus, ?_⟩
    simp only [State.serveStep, step, writeStatus, hpoint]
    exact ⟨_, rfl⟩

/-- While a child serves a request, some step can be taken until the fuzzer has given up. -/
theorem Serving.exists_step {c : ℕ} {owed expected : List Kind} (h : s.Serving c owed expected)
    (hfatal : s.fsrv.point ≠ .fatal) : ∃ a s', s.serveStep cfg a = some s' := by
  have htarget := h.target
  have hkinds := h.kinds
  cases h.fsrv with
  | readPid hfsrv =>
    cases hst : s.st with
    | nil =>
      rw [hst, List.map_nil, List.nil_append] at hkinds
      subst hkinds
      cases htarget with
      | writePid hpoint =>
        refine ⟨.writePid, ?_⟩
        simp only [State.serveStep, step, writePid, hpoint]
        exact ⟨_, rfl⟩
    | cons m st =>
      refine ⟨.readPid, ?_⟩
      simp only [State.serveStep, step, readPid, hfsrv, hst]
      exact ⟨_, rfl⟩
  | select hfsrv =>
    cases hst : s.st with
    | nil =>
      refine ⟨.selectTimeout, ?_⟩
      simp only [State.serveStep, step, selectTimeout, hfsrv, hst]
      exact ⟨_, rfl⟩
    | cons m st =>
      refine ⟨.select 0, ?_⟩
      simp only [State.serveStep, step, select, hfsrv, hst]
      exact ⟨_, rfl⟩
  | kill hfsrv =>
    refine ⟨.kill, ?_⟩
    simp only [State.serveStep, step, kill, hfsrv]
    split
    · split <;> exact ⟨_, rfl⟩
    · exact ⟨_, rfl⟩
  | readStatus hfsrv _ htime =>
    cases hst : s.st with
    | nil =>
      rw [hst, List.map_nil, List.nil_append] at hkinds
      subst hkinds
      exact exists_status htarget htime
    | cons m st =>
      refine ⟨.readStatus, ?_⟩
      simp only [State.serveStep, step, readStatus, hfsrv, hst]
      exact ⟨_, rfl⟩
  | givesUp hgives =>
    rcases hgives with hfsrv | hfsrv
    · refine ⟨.report false, ?_⟩
      simp only [State.serveStep, step, report, hfsrv]
      exact ⟨_, rfl⟩
    · exact absurd hfsrv hfatal
  | report hfsrv =>
    refine ⟨.report false, ?_⟩
    simp only [State.serveStep, step, report, hfsrv]
    split <;> exact ⟨_, rfl⟩

theorem Inv.served_of_stuck (h : s.Inv) (hstuck : Stuck (State.serveStep cfg) s) :
    Served s.requests s := by
  cases h.phase with
  | idle hfsrv _ _ _ _ hrequests => exact .inl ⟨hfsrv, hrequests.symm⟩
  | asked hasking htarget hctl =>
    refine (not_stuck (a := .readRequest) hstuck ?_).elim
    simp only [State.serveStep, State.step, State.readRequest, htarget, hctl]
    split <;> exact ⟨_, rfl⟩
  | @reaping p hasking htarget hctl haccepted hstopped hproc hhalted hkilled =>
    rcases exists_wait_or_dies hkilled false with ⟨r, hwait⟩ | ⟨p', hdies⟩
    · refine (not_stuck (a := .reap) hstuck ?_).elim
      simp only [State.serveStep, State.step, State.reap, htarget, hproc, hwait]
      exact ⟨_, rfl⟩
    · exact (not_stuck hstuck (exists_dies hproc hdies)).elim
  | spawning hasking htarget hctl haccepted hrest =>
    rcases hrest with ⟨hstopped, -⟩ | ⟨hstopped, p, hproc, -⟩
    · have hfree : s.procs (s.target.childPid + 1) = none := h.alone _ (.inl (by omega))
      refine (not_stuck (a := .fork (s.target.childPid + 1)) hstuck ?_).elim
      simp [State.serveStep, State.step, State.fork, htarget, hstopped, hfree]
    · refine (not_stuck (a := .resume) hstuck ?_).elim
      simp only [State.serveStep, State.step, State.resume, htarget, hstopped, if_true, hproc]
      exact ⟨_, rfl⟩
  | serving hserving =>
    by_cases hfatal : s.fsrv.point = .fatal
    · refine .inr ⟨hfatal, ?_⟩
      exact hserving.fsrv.of_fatal hfatal
    · obtain ⟨a, hstep⟩ : ∃ a s', s.serveStep cfg a = some s' := hserving.exists_step hfatal
      exact (not_stuck hstuck hstep).elim

end State

/-! ## The run protocol -/

/-- In every run of the fuzzer, the target and its children, each completed request has received
exactly the process id and the status of the child that served it, in this order. A child that
has been killed is neither resumed nor named for a later request. From every state the request
that is being made is completed, unless a timeout of `2 ^ 32 - 1` milliseconds passes. -/
theorem run_protocol {actions : List Action} (h : run (State.step cfg) {} actions = some s) :
    (∀ k < s.completed, s.Answered k) ∧ s.log.Pairwise Event.Before ∧
      EndsIn (State.serveStep cfg) (State.Served s.requests) s := by
  have hinv : s.Inv := run_invariant (fun _ _ _ hi hs => hi.step hs) State.inv_start h
  refine ⟨hinv.answered, hinv.table.ordered, ?_⟩
  have hserve : ∀ (t : State) a t', t.serveStep cfg a = some t' → t.step cfg a = some t' := by
    intro t a t' ht
    cases a with
    | request => exact absurd ht (by simp [State.serveStep])
    | _ => exact ht
  refine endsIn_of_measure (P := fun t => t.Inv ∧ t.requests = s.requests) State.remaining
    ?_ ?_ ?_ ⟨hinv, rfl⟩
  · rintro t a t' ⟨ht, hrequests⟩ hs
    exact ⟨ht.step (hserve t a t' hs), (ht.serveStep hs).2.trans hrequests⟩
  · rintro t a t' ⟨ht, -⟩ hs
    exact (ht.serveStep hs).1
  · rintro t ⟨ht, hrequests⟩ hstuck
    exact hrequests ▸ ht.served_of_stuck hstuck

def sigstop : Signal := ⟨19, by decide, by decide⟩

/-- The first child stops just before the timeout, and is killed when its stop is reported. -/
def raceActions : List Action :=
  [.request 20, .readRequest, .fork 7, .writePid, .readPid, .child 7 (.stops sigstop),
    .selectTimeout, .waitChild, .kill, .writeStatus, .readStatus, .report false,
    .request 20, .readRequest, .child 7 .dies, .reap, .fork 8, .writePid, .readPid,
    .child 8 (.exits 0), .waitChild, .writeStatus, .select 5, .report false]

theorem run_protocol_race : ∃ s, run (State.step { isPersistent := true }) {} raceActions = some s ∧
    s.completed = 2 ∧ (∀ k < s.completed, s.Answered k) ∧ s.log.Pairwise Event.Before ∧
    EndsIn (State.serveStep { isPersistent := true }) (State.Served s.requests) s := by
  have hend : (run (State.step { isPersistent := true }) {} raceActions).map State.completed =
      some 2 := by decide
  obtain ⟨s, hrun, hcompleted⟩ := Option.map_eq_some_iff.1 hend
  exact ⟨s, hrun, hcompleted, run_protocol hrun⟩

end AflPlusPlus.ForkserverRuns
