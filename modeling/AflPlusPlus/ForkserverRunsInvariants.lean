import AflPlusPlus.ForkserverRuns

/-!
# What holds between the fuzzer and the target

At most one child is not reaped, the one of the last request. Between two requests it is
stopped, with the stop reported, or gone, and it has been killed exactly when the fuzzer is
about to say so. While a request is served, the kinds of the words in the status pipe and of
those that the target has still to write are the kinds that the fuzzer has still to read.
-/

namespace AflPlusPlus.ForkserverRuns
open TransitionSystems

/-! ## Wait statuses -/

theorem wIfStopped_status (d : Death) : wIfStopped d.status = false := by
  rw [wIfStopped, decide_eq_false_iff_not]
  cases d with
  | exited code =>
    simp only [Death.status]
    omega
  | signaled sig core =>
    have hle := sig.le
    simp only [Death.status]
    cases core <;> simp <;> omega

theorem wIfStopped_stoppedStatus (sig : Signal) : wIfStopped (stoppedStatus sig) = true := by
  rw [wIfStopped, decide_eq_true_iff, stoppedStatus]
  omega

/-! ## Single processes -/

namespace Proc

/-- The process is stopped and its parent knows it, unless it has been killed since. -/
def Halted (p : Proc) : Prop :=
  (∃ sig, p.state = .stopped sig true) ∨ p.killed = true ∧ ∃ d, p.state = .dead d

/-- The parent has still something to learn about the process. -/
def Unreported (p : Proc) : Prop := ∀ sig, p.state ≠ .stopped sig true

variable {p p' : Proc} {event : ChildEvent}

theorem step_spec (h : p.step event = some p') : p'.child = p.child ∧ p'.killed = p.killed ∧
    (∀ sig, p'.state ≠ .stopped sig true) ∧
    ((∀ d, p.state ≠ .dead d) ∧ ((∃ sig reported, p.state = .stopped sig reported) →
      p.killed = true ∧ ∃ d, p'.state = .dead d)) := by
  cases event with
  | stops sig | exits code | crashes sig core =>
    unfold step at h
    dsimp only at h
    split at h
    · next hstate =>
      rw [← Option.some.inj h, hstate]
      simp
    · exact absurd h (by simp)
  | dies =>
    unfold step at h
    dsimp only at h
    split at h
    · next hkilled hstate =>
      rw [← Option.some.inj h, hstate]
      simp [hkilled]
    · next hkilled hstate =>
      rw [← Option.some.inj h, hstate]
      simp [hkilled]
    · exact absurd h (by simp)

theorem Halted.step (hp : p.Halted) (h : p.step event = some p') : p'.Halted := by
  obtain ⟨-, hkilled, -, halive, hstopped⟩ := step_spec h
  rcases hp with ⟨sig, hstate⟩ | ⟨-, d, hstate⟩
  · obtain ⟨hk, hdead⟩ := hstopped ⟨sig, true, hstate⟩
    exact .inr ⟨hkilled.trans hk, hdead⟩
  · exact absurd hstate (halive d)

theorem Unreported.step (h : p.step event = some p') : p'.Unreported := (step_spec h).2.2.1

/-- A process that is waited for is reaped when it is dead, and reported when it stopped. -/
theorem wait_spec {untraced : Bool} {status : ℤ} {left : Option Proc}
    (h : p.wait untraced = some (status, left)) :
    (wIfStopped status = false ∧ left = none ∧ ∃ d, p.state = .dead d) ∨
    (wIfStopped status = true ∧ untraced = true ∧ ∃ sig, p.state = .stopped sig false ∧
      left = some { p with state := .stopped sig true }) := by
  unfold wait at h
  split at h
  · exact absurd h (by simp)
  · next sig reported hstate =>
    split at h
    · next hwait =>
      obtain ⟨rfl, rfl⟩ := Prod.mk.inj (Option.some.inj h)
      simp only [Bool.and_eq_true, Bool.not_eq_true'] at hwait
      obtain ⟨huntraced, rfl⟩ := hwait
      exact .inr ⟨wIfStopped_stoppedStatus sig, huntraced, sig, hstate, rfl⟩
    · exact absurd h (by simp)
  · next d hstate =>
    obtain ⟨rfl, rfl⟩ := Prod.mk.inj (Option.some.inj h)
    exact .inl ⟨wIfStopped_status d, rfl, d, hstate⟩

theorem cont_spec (p : Proc) :
    p.cont.child = p.child ∧ p.cont.killed = p.killed ∧ p.cont.Unreported := by
  unfold cont
  split
  · exact ⟨rfl, rfl, fun sig => by simp⟩
  · next hstate => exact ⟨rfl, rfl, fun sig h => hstate sig true h⟩

end Proc

/-- What a process can still do before it is dead. -/
def Proc.rank (p : Proc) : ℕ :=
  match p.state with
  | .running => 2
  | .stopped _ _ => 1
  | .dead _ => 0

def rank (proc : Option Proc) : ℕ := proc.elim 0 Proc.rank

theorem rank_le (proc : Option Proc) : rank proc ≤ 2 := by
  cases proc with
  | none => exact Nat.zero_le 2
  | some p =>
    unfold rank Proc.rank
    dsimp only [Option.elim_some]
    split <;> omega

theorem Proc.rank_step {p p' : Proc} {event : ChildEvent} (h : p.step event = some p') :
    p'.rank < p.rank := by
  cases event with
  | stops sig | exits code | crashes sig core =>
    simp only [step] at h
    split at h
    · next hstate =>
      rw [← Option.some.inj h]
      simp [rank, hstate]
    · exact absurd h (by simp)
  | dies =>
    simp only [step] at h
    split at h
    · next hstate =>
      rw [← Option.some.inj h]
      simp [rank, hstate]
    · next hstate =>
      rw [← Option.some.inj h]
      simp [rank, hstate]
    · exact absurd h (by simp)

/-- The steps that the fuzzer has still to take for a request, at most. -/
def FsrvPoint.rank : FsrvPoint → ℕ
  | .readPid => 5
  | .select => 4
  | .kill _ => 3
  | .readStatus _ => 2
  | .report _ => 1
  | .idle | .fatal => 0

/-- The steps that the target has still to take for a request that it has read. -/
def TargetPoint.rank : TargetPoint → ℕ
  | .reap => 5
  | .forkOrResume => 4
  | .writePid => 3
  | .waitChild => 2
  | .writeStatus _ _ => 1
  | .readRequest | .exited => 0

/-! ## The history -/

/-- A child that is killed is neither resumed nor named afterwards. -/
def Event.Before (e₁ e₂ : Event) : Prop :=
  ∀ c, e₁ = .killed c → e₂ ≠ .resumed c ∧ e₂ ≠ .named c

/-- The one process, the number of children and the events. -/
structure Table (proc : Option Proc) (forked : ℕ) (log : List Event) : Prop where
  child_lt : ∀ p, proc = some p → p.child < forked
  spared : ∀ p, proc = some p → p.killed = false → .killed p.child ∉ log
  killed_lt : ∀ c, .killed c ∈ log → c < forked
  ordered : log.Pairwise Event.Before

namespace Table

variable {proc : Option Proc} {p p' : Proc} {forked : ℕ} {log : List Event}

theorem update (h : Table proc forked log) (procs : ℕ → Option Proc) (pid : ℕ) :
    Table (Function.update procs pid proc pid) forked log := by
  rwa [Function.update_self]

theorem reaped (h : Table proc forked log) : Table none forked log :=
  ⟨nofun, nofun, h.killed_lt, h.ordered⟩

theorem changed (h : Table (some p) forked log) (hchild : p'.child = p.child)
    (hkilled : p'.killed = p.killed) : Table (some p') forked log where
  child_lt := by
    rintro _ ⟨⟩
    exact hchild ▸ h.child_lt p rfl
  spared := by
    rintro _ ⟨⟩ hspared
    exact hchild ▸ h.spared p rfl (hkilled ▸ hspared)
  killed_lt := h.killed_lt
  ordered := h.ordered

theorem spawned (h : Table proc forked log) :
    Table (some ⟨forked, .running, false⟩) (forked + 1) log where
  child_lt := by
    rintro _ ⟨⟩
    exact Nat.lt_succ_self forked
  spared := by
    rintro _ ⟨⟩ - hmem
    exact lt_irrefl _ (h.killed_lt forked hmem)
  killed_lt := fun c hmem => (h.killed_lt c hmem).trans (Nat.lt_succ_self forked)
  ordered := h.ordered

theorem killed (h : Table (some p) forked log) :
    Table (some { p with killed := true }) forked (log ++ [.killed p.child]) where
  child_lt := by
    rintro _ ⟨⟩
    exact h.child_lt p rfl
  spared := by
    rintro _ ⟨⟩ hspared
    exact absurd hspared (by simp)
  killed_lt := by
    intro c hmem
    rcases List.mem_append.1 hmem with hmem | hmem
    · exact h.killed_lt c hmem
    · obtain rfl := Event.killed.inj (List.mem_singleton.1 hmem)
      exact h.child_lt p rfl
  ordered := by
    refine List.pairwise_append.2 ⟨h.ordered, List.pairwise_singleton _ _, ?_⟩
    intro e he e' he' c hc
    rw [List.mem_singleton.1 he']
    simp

theorem logged (h : Table proc forked log) {e : Event} {c : ℕ} (he : e = .resumed c ∨ e = .named c)
    (hspared : .killed c ∉ log) : Table proc forked (log ++ [e]) where
  child_lt := h.child_lt
  spared := by
    intro p hp hkilled hmem
    rcases List.mem_append.1 hmem with hmem | hmem
    · exact h.spared p hp hkilled hmem
    · rcases he with rfl | rfl <;> simp at hmem
  killed_lt := by
    intro c hmem
    rcases List.mem_append.1 hmem with hmem | hmem
    · exact h.killed_lt c hmem
    · rcases he with rfl | rfl <;> simp at hmem
  ordered := by
    refine List.pairwise_append.2 ⟨h.ordered, List.pairwise_singleton _ _, ?_⟩
    rintro e₁ he₁ e₂ he₂ c' rfl
    rw [List.mem_singleton.1 he₂]
    have hne : c' ≠ c := fun hc => hspared (hc ▸ he₁)
    rcases he with rfl | rfl <;> simp [hne.symm]

end Table

/-! ## The control of both sides -/

/-- What the target keeps of its child between two requests. -/
def Rest (childStopped : Bool) (proc : Option Proc) (killed : Prop) : Prop :=
  (childStopped = false ∧ proc = none) ∨
    (childStopped = true ∧ ∃ p, proc = some p ∧ p.Halted ∧ (p.killed = true ↔ killed))

theorem Rest.update {childStopped : Bool} {proc : Option Proc} {killed : Prop}
    (h : Rest childStopped proc killed) (procs : ℕ → Option Proc) (pid : ℕ) :
    Rest childStopped (Function.update procs pid proc pid) killed := by
  rwa [Function.update_self]

theorem Rest.step {childStopped : Bool} {p p' : Proc} {event : ChildEvent} {killed : Prop}
    (h : Rest childStopped (some p) killed) (hp : p.step event = some p') :
    Rest childStopped (some p') killed := by
  rcases h with ⟨-, hproc⟩ | ⟨hstopped, q, hproc, hhalted, hkilled⟩
  · exact absurd hproc (by simp)
  · obtain rfl := Option.some.inj hproc
    refine .inr ⟨hstopped, p', rfl, hhalted.step hp, ?_⟩
    rw [(Proc.step_spec hp).2.1]
    exact hkilled

/-- Where the target is while child `c` serves a request, and the words that it will write. -/
inductive TargetServes (target : Target) (proc : Option Proc) (timedOut : Prop) (c : ℕ) :
    List Kind → Prop
  | writePid {p} (hpoint : target.point = .writePid) (hstopped : target.childStopped = false)
      (hproc : proc = some p) (hchild : p.child = c) (hnew : p.Unreported)
      (hkilled : p.killed = true ↔ timedOut) :
      TargetServes target proc timedOut c [.pid, .status]
  | waitChild {p} (hpoint : target.point = .waitChild) (hstopped : target.childStopped = false)
      (hproc : proc = some p) (hchild : p.child = c) (hnew : p.Unreported)
      (hkilled : p.killed = true ↔ timedOut) :
      TargetServes target proc timedOut c [.status]
  | writeStatus {status} (hpoint : target.point = .writeStatus status c)
      (hrest : Rest target.childStopped proc timedOut) :
      TargetServes target proc timedOut c [.status]
  | readRequest (hpoint : target.point = .readRequest)
      (hrest : Rest target.childStopped proc timedOut) : TargetServes target proc timedOut c []

/-- The word about the child that serves request `k`. -/
def IsPid (c k : ℕ) (m : Message) : Prop :=
  0 < m.word ∧ m.kind = .pid ∧ m.child = some c ∧ m.request = k

def IsStatus (c k : ℕ) (m : Message) : Prop :=
  m.kind = .status ∧ m.child = some c ∧ m.request = k

/-- The fuzzer gives up when its largest timeout passes, since it takes the overflow of
`timeout_ms + 1` for an error. -/
def GivesUp (f : Fsrv) : Prop := f.point = .report 0 ∨ f.point = .fatal

/-- Where the fuzzer is while child `c` serves request `k`, and the words that it will read. -/
inductive FsrvServes (f : Fsrv) (childPid : ℕ) (log : List Event) (received : List Message)
    (c k : ℕ) : List Kind → Prop
  | readPid (hpoint : f.point = .readPid) (htime : f.lastRunTimedOut = 0)
      (hspared : .killed c ∉ log) (hreceived : received = []) :
      FsrvServes f childPid log received c k [.pid, .status]
  | select {m} (hpoint : f.point = .select) (htime : f.lastRunTimedOut = 0)
      (hpid : f.childPid = childPid) (hpos : 0 < childPid) (hreceived : received = [m])
      (hm : IsPid c k m) : FsrvServes f childPid log received c k [.status]
  | kill {m execMs} (hpoint : f.point = .kill execMs) (hexec : execMs ≠ 0)
      (htime : f.lastRunTimedOut = 0) (hpid : f.childPid = childPid) (hpos : 0 < childPid)
      (hreceived : received = [m]) (hm : IsPid c k m) :
      FsrvServes f childPid log received c k [.status]
  | readStatus {m execMs} (hpoint : f.point = .readStatus execMs) (hexec : execMs ≠ 0)
      (htime : f.lastRunTimedOut ≠ 0) (hreceived : received = [m]) (hm : IsPid c k m) :
      FsrvServes f childPid log received c k [.status]
  | givesUp {m} (hpoint : GivesUp f) (htime : f.timeout = 2 ^ 32 - 1) (hreceived : received = [m])
      (hm : IsPid c k m) : FsrvServes f childPid log received c k [.status]
  | report {m m' execMs} (hpoint : f.point = .report execMs) (hexec : execMs ≠ 0)
      (hreceived : received = [m, m']) (hm : IsPid c k m) (hm' : IsStatus c k m') :
      FsrvServes f childPid log received c k []

/-- A word in the status pipe is for request `k` and about child `c`. -/
structure Carries (childPid c k : ℕ) (m : Message) : Prop where
  child_eq : m.child = some c
  request_eq : m.request = k
  word_eq : m.kind = .pid → m.word = childPid

namespace FsrvServes

variable {f : Fsrv} {childPid c k execMs : ℕ} {log : List Event} {received : List Message}
  {expected : List Kind} (h : FsrvServes f childPid log received c k expected)
include h

theorem point_ne_idle : f.point ≠ .idle := by
  intro hpoint
  cases h <;> simp_all [GivesUp]

theorem of_readPid (hpoint : f.point = .readPid) : expected = [.pid, .status] ∧
    f.lastRunTimedOut = 0 ∧ .killed c ∉ log ∧ received = [] := by
  cases h with
  | readPid _ htime hspared hreceived => exact ⟨rfl, htime, hspared, hreceived⟩
  | _ => simp_all [GivesUp]

theorem of_select (hpoint : f.point = .select) : expected = [.status] ∧
    f.lastRunTimedOut = 0 ∧ f.childPid = childPid ∧ 0 < childPid ∧
    ∃ m, received = [m] ∧ IsPid c k m := by
  cases h with
  | select _ htime hpid hpos hreceived hm => exact ⟨rfl, htime, hpid, hpos, _, hreceived, hm⟩
  | _ => simp_all [GivesUp]

theorem of_kill (hpoint : f.point = .kill execMs) : expected = [.status] ∧ execMs ≠ 0 ∧
    f.lastRunTimedOut = 0 ∧ f.childPid = childPid ∧ 0 < childPid ∧
    ∃ m, received = [m] ∧ IsPid c k m := by
  cases h with
  | kill hkill hexec htime hpid hpos hreceived hm =>
    obtain rfl := FsrvPoint.kill.inj (hkill.symm.trans hpoint)
    exact ⟨rfl, hexec, htime, hpid, hpos, _, hreceived, hm⟩
  | _ => simp_all [GivesUp]

theorem of_readStatus (hpoint : f.point = .readStatus execMs) : expected = [.status] ∧
    execMs ≠ 0 ∧ ∃ m, received = [m] ∧ IsPid c k m := by
  cases h with
  | readStatus hread hexec _ hreceived hm =>
    obtain rfl := FsrvPoint.readStatus.inj (hread.symm.trans hpoint)
    exact ⟨rfl, hexec, _, hreceived, hm⟩
  | _ => simp_all [GivesUp]

theorem of_report (hpoint : f.point = .report execMs) (hexec : execMs ≠ 0) : expected = [] ∧
    ∃ m m', received = [m, m'] ∧ IsPid c k m ∧ IsStatus c k m' := by
  cases h with
  | report _ _ hreceived hm hm' => exact ⟨rfl, _, _, hreceived, hm, hm'⟩
  | givesUp hgives =>
    rcases hgives with hgives | hgives
    · exact absurd (FsrvPoint.report.inj (hgives.symm.trans hpoint)).symm hexec
    · exact absurd (hgives.symm.trans hpoint) (by simp)
  | _ => simp_all

/-- A fuzzer that takes the end of the wait for an error does not complete the request. -/
theorem of_report_zero (hpoint : f.point = .report 0) : expected = [.status] ∧
    f.timeout = 2 ^ 32 - 1 ∧ ∃ m, received = [m] ∧ IsPid c k m := by
  cases h with
  | givesUp _ htime hreceived hm => exact ⟨rfl, htime, _, hreceived, hm⟩
  | report hreport hexec =>
    exact absurd (FsrvPoint.report.inj (hreport.symm.trans hpoint)) hexec
  | _ => simp_all

theorem of_fatal (hpoint : f.point = .fatal) : f.timeout = 2 ^ 32 - 1 := by
  cases h with
  | givesUp _ htime => exact htime
  | _ => simp_all

end FsrvServes

namespace TargetServes

variable {target : Target} {proc : Option Proc} {timedOut : Prop} {c : ℕ} {owed : List Kind}
  (h : TargetServes target proc timedOut c owed)
include h

theorem of_writePid (hpoint : target.point = .writePid) : owed = [.pid, .status] ∧
    target.childStopped = false ∧ ∃ p, proc = some p ∧ p.child = c ∧ p.Unreported ∧
      (p.killed = true ↔ timedOut) := by
  cases h with
  | writePid _ hstopped hproc hchild hnew hkilled =>
    exact ⟨rfl, hstopped, _, hproc, hchild, hnew, hkilled⟩
  | _ => simp_all

theorem of_waitChild (hpoint : target.point = .waitChild) : owed = [.status] ∧
    target.childStopped = false ∧ ∃ p, proc = some p ∧ p.child = c ∧ p.Unreported ∧
      (p.killed = true ↔ timedOut) := by
  cases h with
  | waitChild _ hstopped hproc hchild hnew hkilled =>
    exact ⟨rfl, hstopped, _, hproc, hchild, hnew, hkilled⟩
  | _ => simp_all

theorem of_writeStatus {status : ℤ} {child : ℕ}
    (hpoint : target.point = .writeStatus status child) :
    owed = [.status] ∧ child = c ∧ Rest target.childStopped proc timedOut := by
  cases h with
  | writeStatus hwrite hrest =>
    obtain ⟨-, rfl⟩ := TargetPoint.writeStatus.inj (hwrite.symm.trans hpoint)
    exact ⟨rfl, rfl, hrest⟩
  | _ => simp_all

theorem point_ne : target.point ≠ .reap ∧ target.point ≠ .forkOrResume := by
  cases h <;> simp_all

theorem of_nil (howed : owed = []) :
    target.point = .readRequest ∧ Rest target.childStopped proc timedOut := by
  cases h with
  | readRequest hpoint hrest => exact ⟨hpoint, hrest⟩
  | _ => simp at howed

theorem update (procs : ℕ → Option Proc) (pid : ℕ) :
    TargetServes target (Function.update procs pid proc pid) timedOut c owed := by
  rwa [Function.update_self]

omit h in
/-- A child that is gone is not concerned by the timeout. -/
theorem absent {timedOut' : Prop} (h : TargetServes target none timedOut c owed) :
    TargetServes target none timedOut' c owed := by
  cases h with
  | writePid _ _ hproc | waitChild _ _ hproc => exact absurd hproc (by simp)
  | writeStatus hpoint hrest =>
    refine .writeStatus hpoint (.inl ?_)
    rcases hrest with hrest | ⟨-, p, hproc, -⟩
    · exact hrest
    · exact absurd hproc (by simp)
  | readRequest hpoint hrest =>
    refine .readRequest hpoint (.inl ?_)
    rcases hrest with hrest | ⟨-, p, hproc, -⟩
    · exact hrest
    · exact absurd hproc (by simp)

omit h in
theorem step {p p' : Proc} {event : ChildEvent}
    (h : TargetServes target (some p) timedOut c owed) (hp : p.step event = some p') :
    TargetServes target (some p') timedOut c owed := by
  obtain ⟨hchild', hkilled', -⟩ := Proc.step_spec hp
  cases h with
  | writePid hpoint hstopped hproc hchild _ hkilled =>
    obtain rfl := Option.some.inj hproc
    exact .writePid hpoint hstopped rfl (hchild'.trans hchild) (Proc.Unreported.step hp)
      (by rw [hkilled']; exact hkilled)
  | waitChild hpoint hstopped hproc hchild _ hkilled =>
    obtain rfl := Option.some.inj hproc
    exact .waitChild hpoint hstopped rfl (hchild'.trans hchild) (Proc.Unreported.step hp)
      (by rw [hkilled']; exact hkilled)
  | writeStatus hpoint hrest => exact .writeStatus hpoint (hrest.step hp)
  | readRequest hpoint hrest => exact .readRequest hpoint (hrest.step hp)

omit h in
theorem kill {p : Proc} (h : TargetServes target (some p) timedOut c owed) {timedOut' : Prop}
    (htime : timedOut') :
    TargetServes target (some { p with killed := true }) timedOut' c owed := by
  have hrest : ∀ {b}, Rest b (some p) timedOut →
      Rest b (some { p with killed := true }) timedOut' := by
    rintro b (⟨-, hproc⟩ | ⟨hb, q, hproc, hhalted, -⟩)
    · exact absurd hproc (by simp)
    · obtain rfl := Option.some.inj hproc
      refine .inr ⟨hb, _, rfl, ?_, iff_of_true rfl htime⟩
      rcases hhalted with hstopped | ⟨-, hdead⟩
      · exact .inl hstopped
      · exact .inr ⟨rfl, hdead⟩
  cases h with
  | writePid hpoint hstopped hproc hchild hnew =>
    obtain rfl := Option.some.inj hproc
    exact .writePid hpoint hstopped rfl hchild hnew (iff_of_true rfl htime)
  | waitChild hpoint hstopped hproc hchild hnew =>
    obtain rfl := Option.some.inj hproc
    exact .waitChild hpoint hstopped rfl hchild hnew (iff_of_true rfl htime)
  | writeStatus hpoint h => exact .writeStatus hpoint (hrest h)
  | readRequest hpoint h => exact .readRequest hpoint (hrest h)

end TargetServes

namespace State

/-- The fuzzer has made a request that no child serves yet. -/
structure Asking (s : State) : Prop where
  point_eq : s.fsrv.point = .readPid
  st_eq : s.st = []
  requests_eq : s.requests = s.completed + 1
  in_time : s.fsrv.lastRunTimedOut = 0
  received_eq : s.received s.completed = []

/-- Child `c` serves the request. -/
structure Serving (s : State) (c : ℕ) (owed expected : List Kind) : Prop where
  ctl_eq : s.ctl = []
  accepted_eq : s.accepted = s.completed + 1
  requests_eq : s.requests = s.completed + 1
  served_eq : s.served s.completed = some c
  pid_pos : 0 < s.target.childPid
  target : TargetServes s.target (s.procs s.target.childPid) (s.fsrv.lastRunTimedOut ≠ 0) c owed
  fsrv : FsrvServes s.fsrv s.target.childPid s.log (s.received s.completed) c s.completed expected
  carries : ∀ m ∈ s.st, Carries s.target.childPid c s.completed m
  kinds : s.st.map Message.kind ++ owed = expected

/-- Where the fuzzer and the target stand, relative to each other. -/
inductive Phase (s : State) : Prop
  | idle (hfsrv : s.fsrv.point = .idle) (htarget : s.target.point = .readRequest)
      (hctl : s.ctl = []) (hst : s.st = []) (haccepted : s.accepted = s.completed)
      (hrequests : s.requests = s.completed) (hreceived : s.received s.completed = [])
      (hrest : Rest s.target.childStopped (s.procs s.target.childPid)
        (s.fsrv.lastRunTimedOut ≠ 0))
  | asked {w} (hasking : s.Asking) (htarget : s.target.point = .readRequest)
      (hctl : s.ctl = [w]) (haccepted : s.accepted = s.completed)
      (hrest : Rest s.target.childStopped (s.procs s.target.childPid) (w ≠ 0))
  | reaping {p} (hasking : s.Asking) (htarget : s.target.point = .reap) (hctl : s.ctl = [])
      (haccepted : s.accepted = s.completed + 1) (hstopped : s.target.childStopped = false)
      (hproc : s.procs s.target.childPid = some p) (hhalted : p.Halted)
      (hkilled : p.killed = true)
  | spawning (hasking : s.Asking) (htarget : s.target.point = .forkOrResume) (hctl : s.ctl = [])
      (haccepted : s.accepted = s.completed + 1)
      (hrest : Rest s.target.childStopped (s.procs s.target.childPid) False)
  | serving {c owed expected} (hserving : s.Serving c owed expected)

/-- A completed request has received the process id and the wait status of the child that served
it, in this order and nothing else. -/
def Answered (s : State) (k : ℕ) : Prop :=
  ∃ c m m', s.served k = some c ∧ s.received k = [m, m'] ∧ IsPid c k m ∧ IsStatus c k m'

structure Inv (s : State) : Prop where
  alone : ∀ pid, pid ≠ s.target.childPid ∨ pid = 0 → s.procs pid = none
  table : Table (s.procs s.target.childPid) s.forked s.log
  answered : ∀ k < s.completed, s.Answered k
  later : ∀ k, s.completed < k → s.received k = []
  timeout : s.requests ≠ 0 → 0 < s.fsrv.timeout ∧ s.fsrv.timeout < 2 ^ 32
  phase : s.Phase

variable {s : State}

/-- With something to read or a point that only then is reached, the request is served. -/
theorem Phase.serving_of_fsrv (h : s.Phase) (hidle : s.fsrv.point ≠ .idle)
    (hread : s.fsrv.point = .readPid → s.st ≠ []) :
    ∃ c owed expected, s.Serving c owed expected := by
  cases h with
  | idle hfsrv => exact absurd hfsrv hidle
  | asked hasking | reaping hasking | spawning hasking =>
    exact absurd hasking.st_eq (hread hasking.point_eq)
  | serving hserving => exact ⟨_, _, _, hserving⟩

/-- A target that writes or waits for its child serves the request. -/
theorem Phase.serving_of_target (h : s.Phase) (hread : s.target.point ≠ .readRequest)
    (hreap : s.target.point ≠ .reap) (hfork : s.target.point ≠ .forkOrResume) :
    ∃ c owed expected, s.Serving c owed expected := by
  cases h with
  | idle _ htarget | asked _ htarget => exact absurd htarget hread
  | reaping _ htarget => exact absurd htarget hreap
  | spawning _ htarget => exact absurd htarget hfork
  | serving hserving => exact ⟨_, _, _, hserving⟩

end State

end AflPlusPlus.ForkserverRuns
