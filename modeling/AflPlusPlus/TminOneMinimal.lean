import AflPlusPlus.TminAccepted

/-!
# One-minimality

The last pass changes nothing, so it has seen the buffer that `minimize` returns from the start.
Its deletion of single bytes has run every position or skipped it because of its neighbour.
-/

namespace AflPlusPlus.Tmin
open ByteWords CoverageMap ListBlocks TransitionSystems

/-- Before `n` no byte can go. -/
def RejectedBelow (cfg : Config) (data : List Byte) (n : ℕ) : Prop :=
  ∀ p < n, cfg.verdict (eraseBlock p 1 data) = some false

theorem RejectedBelow.succ {cfg : Config} {data : List Byte} {n : ℕ}
    (h : RejectedBelow cfg data n) (hn : cfg.verdict (eraseBlock n 1 data) = some false) :
    RejectedBelow cfg data (n + 1) := by
  intro p hp
  rcases Nat.lt_succ_iff_lt_or_eq.mp hp with hlt | rfl
  · exact h p hlt
  · exact hn

/-- The skipped byte is equal to the one before it, so the run without that one tells. -/
theorem RejectedBelow.skip {cfg : Config} {data : List Byte} {n : ℕ}
    (h : RejectedBelow cfg data (n + 1))
    (heq : (data.drop n).take 1 = (data.drop (n + 1)).take 1) :
    RejectedBelow cfg data (n + 2) := by
  refine h.succ ?_
  rw [eraseBlock_eq_of_take_eq heq]
  exact h n n.lt_succ_self

namespace MinState

/-- What the pass has found out about deleting single bytes, unless it has changed something. The
custom trimmers, when they fail, leave the size of the input. -/
def Swept (cfg : Config) (input : List Byte) (s : MinState) : Prop :=
  match s.stage with
  | .customInit _ | .customTrim _ _ _ =>
    s.trimmedSuccessfully = false → s.inData.length = input.length
  | .deletion delLen delPos prevDel => s.changedAny = false →
    (prevDel = true → delPos = 0) ∧ (delLen = 1 → RejectedBelow cfg s.inData delPos)
  | .alphabet _ _ | .character _ _ => s.changedAny = false →
    RejectedBelow cfg s.inData s.inData.length
  | .finished => s.trimmedSuccessfully = false →
    RejectedBelow cfg s.inData s.inData.length
  | _ => True

end MinState

/-- Both outcomes of a plan are consistent. -/
def Plan.StaysConsistent : Plan → Prop
  | .move next => next.Consistent
  | .test _ kept dropped => kept.Consistent ∧ dropped.Consistent

/-- A plan tells what it has found out. -/
def Plan.Sweeps (cfg : Config) (input : List Byte) : Plan → Prop
  | .move next => next.Swept cfg input
  | .test mem kept dropped => kept.Swept cfg input ∧
    (cfg.verdict mem = some false → dropped.Swept cfg input)

namespace MinState

variable {cfg : Config} {input : List Byte} {s : MinState}

theorem length_afterTrim (s : MinState) (retbuf : List Byte) (inPlace : Bool) :
    (s.afterTrim retbuf inPlace).length = s.inData.length := by
  unfold afterTrim
  split
  · simp only [List.length_append, List.length_take, List.length_drop]
    omega
  · rfl

theorem planTrim_sweeps {count curStep initialSteps : ℕ} {retbuf : List Byte} {inPlace : Bool}
    (h : s.stage = .customTrim count curStep initialSteps) (hs : s.Swept cfg input) :
    (s.planTrim count curStep initialSteps retbuf inPlace).Sweeps cfg input := by
  rw [Swept, h] at hs
  have hlen := length_afterTrim s retbuf inPlace
  unfold planTrim
  dsimp only
  split
  · exact fun hfail => hlen.trans (hs hfail)
  · exact ⟨nofun, fun _ hfail => hlen.trans (hs hfail)⟩

theorem enterNormalize_sweeps (hlen : 1 < input.length) (h : s.stage = .customInit 0)
    (hs : s.Swept cfg input) : (Plan.move s.enterNormalize).Sweeps cfg input := by
  rw [Swept, h] at hs
  unfold enterNormalize
  dsimp only
  split
  · next hshort => exact fun hfail => absurd (hs hfail) (by omega)
  · trivial

/-- Every pass starts without a change and at the first byte. -/
theorem nextPass_swept (cfg : Config) (input : List Byte) (s : MinState) :
    s.nextPass.Swept cfg input :=
  fun _ => ⟨fun _ => rfl, fun _ _ hp => absurd hp (Nat.not_lt_zero _)⟩

theorem planNormalize_sweeps {setLen setPos : ℕ} :
    (s.planNormalize setLen setPos).Sweeps cfg input := by
  unfold planNormalize
  split
  · dsimp only
    split
    · trivial
    · exact ⟨trivial, fun _ => trivial⟩
  · exact nextPass_swept cfg input s

theorem planDeletion_sweeps {delLen delPos : ℕ} {prevDel : Bool} (hlimit : cfg.delLenLimit = 1)
    (h : s.stage = .deletion delLen delPos prevDel) (hcons : s.Consistent)
    (hs : s.Swept cfg input) :
    (s.planDeletion cfg delLen delPos prevDel).Sweeps cfg input := by
  rw [Consistent, h] at hcons
  rw [Swept, h] at hs
  obtain ⟨hdel, hprev⟩ := hcons
  unfold planDeletion
  split
  · dsimp only
    split
    · next hskip =>
      obtain ⟨hkept, -, heq⟩ := hskip
      have hpos := hprev hkept
      intro hchanged
      refine ⟨fun hprev' => absurd hprev' (by simp [hkept]), ?_⟩
      rintro rfl
      obtain ⟨n, rfl⟩ := Nat.exists_eq_add_of_le' hpos
      exact ((hs hchanged).2 rfl).skip heq
    · rw [head_append_tail]
      refine ⟨fun hchanged => absurd hchanged (by simp), fun hverdict hchanged => ?_⟩
      refine ⟨fun hprev' => absurd hprev' (by simp), ?_⟩
      rintro rfl
      exact ((hs hchanged).2 rfl).succ hverdict
  · next hend =>
    -- the loop over single bytes has come to the end of the buffer
    have hswept : ¬(cfg.delLenLimit < delLen ∧ 1 ≤ s.inData.length) → s.changedAny = false →
        RejectedBelow cfg s.inData s.inData.length := by
      intro hblock hchanged p hp
      exact (hs hchanged).2 (by omega) p (by omega)
    split
    · exact fun _ => ⟨fun _ => rfl, fun _ _ hp => absurd hp (Nat.not_lt_zero _)⟩
    · next hblock =>
      split
      · next hdone => exact fun _ => hswept hblock hdone.2
      · exact hswept hblock

theorem planAlphabet_sweeps {alphaMap : Byte → ℕ} {i : ℕ} (h : s.stage = .alphabet alphaMap i)
    (hs : s.Swept cfg input) : (s.planAlphabet alphaMap i).Sweeps cfg input := by
  rw [Swept, h] at hs
  unfold planAlphabet
  split
  · dsimp only
    split
    · exact hs
    · exact ⟨nofun, fun _ => hs⟩
  · exact hs

theorem planCharacter_sweeps {tmpBuf : List Byte} {i : ℕ} (h : s.stage = .character tmpBuf i)
    (hs : s.Swept cfg input) : (s.planCharacter tmpBuf i).Sweeps cfg input := by
  rw [Swept, h] at hs
  unfold planCharacter
  split
  · dsimp only
    split
    · exact hs
    · exact ⟨nofun, fun _ => hs⟩
  · split
    · exact nextPass_swept cfg input s
    · next hchanged => exact fun _ => hs (Bool.eq_false_iff.mpr hchanged)

theorem plan_sweeps (hlimit : cfg.delLenLimit = 1) (hlen : 1 < input.length)
    (hcons : s.Consistent) (hs : s.Swept cfg input) {a : Action} {plan : Plan}
    (h : s.plan cfg a = some plan) : plan.Sweeps cfg input := by
  cases planned h with
  | retry => exact hs
  | initTrim _ _ hstage =>
    rw [Swept, hstage] at hs
    exact hs
  | trim _ _ _ _ _ hstage => exact planTrim_sweeps hstage hs
  | trimmed _ _ _ _ hsuccess => exact fun hfail => absurd (hsuccess.symm.trans hfail) (by simp)
  | nextTrimmer _ _ _ hstage =>
    rw [Swept, hstage] at hs
    exact hs
  | enterNormalize hstage => exact enterNormalize_sweeps hlen hstage hs
  | normalize => exact planNormalize_sweeps
  | deletion _ _ _ hstage => exact planDeletion_sweeps hlimit hstage hcons hs
  | alphabet _ _ hstage => exact planAlphabet_sweeps hstage hs
  | character _ _ hstage => exact planCharacter_sweeps hstage hs

variable {a : Action} {t : MinState}

/-- The variables of the loops stay consistent, whatever the custom trimmers do. -/
theorem step_consistent (hpost : ∀ mem, (cfg.postProcess mem).isSome) (hcons : s.Consistent)
    (h : step cfg s a = some t) : t.Consistent := by
  obtain ⟨plan, hplan, rfl⟩ := Option.map_eq_some_iff.mp h
  have hfits : MutatorsBehave cfg s a → plan.StaysConsistent := by
    intro hbehave
    have hfits := plan_fits hcons hbehave hplan
    cases plan with
    | move next => exact hfits.2.consistent
    | test mem kept dropped =>
      obtain ⟨-, -, -, hkept, hdropped⟩ := hfits
      exact ⟨hkept.consistent, hdropped.consistent⟩
  have hout : plan.StaysConsistent := by
    cases planned hplan with
    | retry => exact hcons
    | initTrim => trivial
    | trim =>
      unfold planTrim
      dsimp only
      split
      · trivial
      · exact ⟨trivial, trivial⟩
    | _ => exact hfits (behave_proceed hpost s)
  cases plan with
  | move next => exact hout
  | test mem kept dropped =>
    dsimp only [runTarget]
    split
    · trivial
    · exact hout.1
    · exact hout.2

/-- What `tmin_run_target` answers decides which part of a plan comes true. -/
theorem step_swept (hlimit : cfg.delLenLimit = 1) (hpost : ∀ mem, cfg.postProcess mem = some mem)
    (hlen : 1 < input.length) (hcons : s.Consistent) (hs : s.Swept cfg input)
    (h : step cfg s a = some t) : t.Swept cfg input := by
  obtain ⟨plan, hplan, rfl⟩ := Option.map_eq_some_iff.mp h
  have hsweeps := plan_sweeps hlimit hlen hcons hs hplan
  cases plan with
  | move next => exact hsweeps
  | test mem kept dropped =>
    obtain ⟨hkept, hdropped⟩ := hsweeps
    have hwrite : cfg.writeTestcase s.testcase mem = mem := by
      rw [Config.writeTestcase, hpost]
      rfl
    dsimp only [runTarget]
    rw [hwrite]
    rcases hverdict : cfg.verdict mem with _ | answer
    · trivial
    · cases answer with
      | true => exact hkept
      | false => exact hdropped hverdict

end MinState

open MinState

/-- With a limit of one byte for deletions, no byte can be deleted from what `minimize` returns,
unless a custom trimmer succeeded. -/
theorem minimize_oneMinimal (cfg : Config) (hlimit : cfg.delLenLimit = 1)
    (hpost : ∀ mem, cfg.postProcess mem = some mem) {input testcase : List Byte}
    (hlen : 1 < input.length) {actions : List Action} {s : MinState}
    (hrun : run (step cfg) (start cfg input testcase) actions = some s)
    (hfinished : s.stage = .finished) (hcustom : s.trimmedSuccessfully = false) :
    ∀ p < s.inData.length, cfg.verdict (s.inData.eraseIdx p) = some false := by
  have hsome : ∀ mem, (cfg.postProcess mem).isSome := fun mem => by rw [hpost]; rfl
  have hinv : s.Consistent ∧ s.Swept cfg input := by
    have hstart : (start cfg input testcase).Consistent ∧
        (start cfg input testcase).Swept cfg input := ⟨trivial, fun _ => rfl⟩
    refine @run_invariant _ _ _ (fun s => s.Consistent ∧ s.Swept cfg input) ?_ _ _ _ hstart hrun
    rintro s a t ⟨hcons, hs⟩ hstep
    exact ⟨step_consistent hsome hcons hstep, step_swept hlimit hpost hlen hcons hs hstep⟩
  intro p hp
  have hswept := hinv.2
  rw [Swept, hfinished] at hswept
  rw [← eraseBlock_one]
  exact hswept hcustom p hp

set_option maxRecDepth 20000 in
theorem minimize_oneMinimal_twoBytes :
    ∃ s, run (step (hangs hangsOnTwo)) (start (hangs hangsOnTwo) [1#8, 2#8] [])
      (List.replicate 266 .proceed) = some s ∧ s.stage = .finished ∧
      s.inData = [digit0, digit0] ∧
      ∀ p < s.inData.length, (hangs hangsOnTwo).verdict (s.inData.eraseIdx p) = some false := by
  have hend : (run (step (hangs hangsOnTwo)) (start (hangs hangsOnTwo) [1#8, 2#8] [])
      (List.replicate 266 .proceed)).elim False fun s => s.stage = .finished ∧
        s.trimmedSuccessfully = false ∧ s.inData = [digit0, digit0] := ⟨rfl, rfl, rfl⟩
  cases hrun : run (step (hangs hangsOnTwo)) (start (hangs hangsOnTwo) [1#8, 2#8] [])
      (List.replicate 266 .proceed) with
  | none =>
    rw [hrun] at hend
    exact hend.elim
  | some s =>
    rw [hrun] at hend
    obtain ⟨hfinished, hcustom, hdata⟩ := hend
    exact ⟨s, rfl, hfinished, hdata, minimize_oneMinimal (hangs hangsOnTwo) rfl (fun _ => rfl)
      (by decide) hrun hfinished hcustom⟩

/-- The custom trimmer's proposal is accepted, and minimization ends there. -/
theorem minimize_not_oneMinimal :
    (trims fun _ => true).Accepts [1#8, 2#8, 3#8] ∧
    ∃ s, run (step (trims fun _ => true)) (start (trims fun _ => true) [1#8, 2#8, 3#8] [])
      [.initTrim 1, .trim [1#8, 2#8] false, .proceed] = some s ∧ s.stage = .finished ∧
      s.inData = [1#8, 2#8] ∧
      (trims fun _ => true).verdict ([1#8, 2#8].eraseIdx 0) = some true :=
  ⟨⟨_, rfl, rfl⟩, _, rfl, rfl, rfl, rfl⟩

end AflPlusPlus.Tmin
