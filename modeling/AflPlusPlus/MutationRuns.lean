import AflPlusPlus.MutationsSpec
import AflPlusPlus.TransitionSystems

/-!
# Runs of the havoc mutations

`afl_mutate` goes through its loop until it has made the given number of mutations. An operator
that cannot be applied sends it back to the draw of another one.
-/

namespace AflPlusPlus.Mutations
open ByteWords ByteBuffers CheckedBlocks CheckedPrograms TransitionSystems

/-- The loop with the number of mutations that were made, or an access outside the buffers. -/
inductive MutateState
  | mutating (step : ℕ) (s : Havoc)
  | outside

/-- One pass of the loop, or the part of it before a jump back. The label is the list of the
random numbers that it draws from. -/
def mutatePass (cfg : Config) (steps : ℕ) : MutateState → List ℕ → Option MutateState
  | .mutating step s, draws =>
    if step < steps then
      match havocStep cfg { s with draws := draws } with
      | .ok (.done, t) => some (.mutating (step + 1) t)
      | .ok (.retry, t) => some (.mutating step t)
      | .error .outOfBounds => some .outside
      | .error .noDraws => none
    else none
  | .outside, _ => none

/-- There is room for what the operator may add, as far as it does not check that itself. The
checks are on sums that wrap at `2 ^ 32`. -/
def Fits (cfg : Config) (s : Havoc) : Mutation → Prop
  | .insertone => s.len < 2 ∨ s.len < cfg.maxLen
  | .asciinum => 4 ≤ s.len → ∀ num t, newNumber s = .ok (some num, t) →
      s.len + num.text.length ≤ cfg.maxLen + (num.off2 - num.off)
  | .cloneCopy | .cloneFixed | .spliceInsert => s.len + blkXl < 2 ^ 32
  | .extraInsert => ∀ extra t, useExtra cfg.extras s = .ok (some extra, t) →
      s.len + extra.length < 2 ^ 32
  | .autoExtraInsert => ∀ extra t, useExtra cfg.aExtras s = .ok (some extra, t) →
      s.len + extra.length < 2 ^ 32
  | .insertasciinum => s.len + 8 ≤ 2 ^ 32
  | _ => True

/-- The operator that is drawn fits. -/
def PassFits (cfg : Config) : MutateState → List ℕ → Prop
  | .mutating _ s, draws => ∀ m t,
      drawMutation cfg { s with draws := draws } = .ok (m, t) → Fits cfg t m
  | .outside, _ => True

/-- All accesses were inside the buffers, and the length is right. -/
def Inside (cfg : Config) : MutateState → Prop
  | .mutating _ s => s.buf.size = cfg.maxLen ∧ s.tmpBuf.size = cfg.maxLen ∧ 1 ≤ s.len ∧
      s.len ≤ cfg.maxLen
  | .outside => False

/-- The sizes are numbers of 32 bits. -/
structure Bounded (cfg : Config) : Prop where
  maxLen_lt : cfg.maxLen < 2 ^ 32
  splice_lt : cfg.spliceBuf.length < 2 ^ 32

section Pass
variable {cfg : Config} {len : ℕ} {s : Havoc}

theorem apply_safe (hcfg : Bounded cfg) (h : At cfg len s) (hlen : 0 < len)
    (hle : len ≤ cfg.maxLen) {m : Mutation} (hfits : Fits cfg s m) : Safe cfg (apply cfg m) s := by
  have hmax := hcfg.maxLen_lt
  have hsplice := hcfg.splice_lt
  have harith16 (f : Word 2 → Word 2 → Word 2) : Safe cfg (arithWord 2 f) s :=
    arithWord_safe h hlen hle (by decide) f
  have harith32 (f : Word 4 → Word 4 → Word 4) : Safe cfg (arithWord 4 f) s :=
    arithWord_safe h hlen hle (by decide) f
  obtain rfl := h.len_eq
  cases m with
  | flipbit => exact flipbit_safe h hlen hle
  | interesting8 => exact interesting8_safe h hlen hle
  | interesting16 => exact interestingWord_safe (n := 2) h hlen hle (by decide) _ _
  | interesting16be => exact interestingWord_safe (n := 2) h hlen hle (by decide) _ _
  | interesting32 => exact interestingWord_safe (n := 4) h hlen hle (by decide) _ _
  | interesting32be => exact interestingWord_safe (n := 4) h hlen hle (by decide) _ _
  | arith8_ => exact arithByte_safe h hlen hle _
  | arith8 => exact arithByte_safe h hlen hle _
  | arith16_ => exact (harith16 _ : Safe cfg arith16_ s)
  | arith16be_ => exact (harith16 _ : Safe cfg arith16be_ s)
  | arith16 => exact (harith16 _ : Safe cfg arith16 s)
  | arith16be => exact (harith16 _ : Safe cfg arith16be s)
  | arith32_ => exact (harith32 _ : Safe cfg arith32_ s)
  | arith32be_ => exact (harith32 _ : Safe cfg arith32be_ s)
  | arith32 => exact (harith32 _ : Safe cfg arith32 s)
  | arith32be => exact (harith32 _ : Safe cfg arith32be s)
  | rand8 => exact rand8_safe h hlen hle
  | cloneCopy => exact cloneCopy_safe h hlen hle hmax hfits
  | cloneFixed => exact cloneFixed_safe h hlen hle hmax hfits
  | overwriteCopy => exact overwriteCopy_safe h hlen hle hmax
  | overwriteFixed => exact overwriteFixed_safe h hlen hle hmax
  | byteadd => exact changeByte_safe h hlen hle _
  | bytesub => exact changeByte_safe h hlen hle _
  | flip8 => exact changeByte_safe h hlen hle _
  | switch => exact switch_safe h hlen hle hmax
  | del => exact del_safe h hlen hle hmax
  | shuffle => exact shuffle_safe h hlen hle hmax
  | delone => exact delone_safe h hlen hle
  | insertone => exact insertone_safe h hlen hle hmax hfits
  | asciinum => exact asciinum_safe h hlen hle hmax hfits
  | insertasciinum => exact insertasciinum_safe h hlen hle hfits
  | extraOverwrite => exact overwriteExtra_safe h hlen hle _
  | extraInsert => exact insertExtra_safe h hlen hle _ hfits
  | autoExtraOverwrite => exact overwriteExtra_safe h hlen hle _
  | autoExtraInsert => exact insertExtra_safe h hlen hle _ hfits
  | spliceOverwrite => exact spliceOverwrite_safe h hlen hle hsplice
  | spliceInsert => exact spliceInsert_safe h hlen hle hmax hsplice hfits

theorem drawMutation_spec (h : At cfg len s) :
    Safely (drawMutation cfg) (fun _ t => At cfg len t) s := by
  unfold drawMutation
  refine wp_cut (randBelow_spec h _) ?_
  rintro r s ⟨hr, h⟩
  have hlt : r < (mutationArray cfg).length := by
    rw [length_mutationArray]
    exact hr
  rw [List.getElem?_eq_getElem hlt]
  exact h

theorem havocStep_safe (hcfg : Bounded cfg) (h : At cfg len s) (hlen : 0 < len)
    (hle : len ≤ cfg.maxLen) (hfits : ∀ m t, drawMutation cfg s = .ok (m, t) → Fits cfg t m) :
    Safe cfg (havocStep cfg) s := by
  unfold havocStep
  refine wp_cut (wp_of_forall (drawMutation_spec h) hfits) ?_
  rintro m s ⟨h, hfits⟩
  exact apply_safe hcfg h hlen hle hfits

end Pass

section Runs
variable {cfg : Config} {steps : ℕ}

theorem inside_mutating {cfg : Config} {step : ℕ} {s : Havoc} :
    Inside cfg (.mutating step s) ↔ Sized cfg s := by
  constructor
  · rintro ⟨hbuf, htmp, hlen, hle⟩
    exact ⟨s.len, ⟨hbuf, htmp, rfl⟩, hlen, hle⟩
  · rintro ⟨len, h, hlen, hle⟩
    obtain rfl := h.len_eq
    exact ⟨h.size_buf, h.size_tmpBuf, hlen, hle⟩

theorem mutatePass_inside (hcfg : Bounded cfg) (s : MutateState) (draws : List ℕ)
    (t : MutateState) (hs : Inside cfg s) (hfits : PassFits cfg s draws)
    (hpass : mutatePass cfg steps s draws = some t) : Inside cfg t := by
  cases s with
  | outside => exact absurd hs id
  | mutating step s =>
    obtain ⟨len, h, hlen, hle⟩ := inside_mutating.mp hs
    have hdrawn : At cfg len { s with draws := draws } := { h with }
    have hsafe := havocStep_safe hcfg hdrawn hlen hle hfits
    simp only [mutatePass] at hpass
    split at hpass
    · split at hpass
      · next hrun =>
        obtain rfl := Option.some.inj hpass
        exact inside_mutating.mpr (wp_of_ok (Q := fun _ t => Sized cfg t) hsafe hrun)
      · next hrun =>
        obtain rfl := Option.some.inj hpass
        exact inside_mutating.mpr (wp_of_ok (Q := fun _ t => Sized cfg t) hsafe hrun)
      · next hrun => exact absurd (wp_of_error hsafe hrun) (by decide)
      · exact absurd hpass (by simp)
    · exact absurd hpass (by simp)

/-- In a run whose operators fit, all accesses are inside the buffers, and the length is between
one and `max_len` after each pass. -/
theorem run_inside (hcfg : Bounded cfg) {s : Havoc} (hbuf : s.buf.size = cfg.maxLen)
    (htmp : s.tmpBuf.size = cfg.maxLen) (hlen : 1 ≤ s.len) (hle : s.len ≤ cfg.maxLen)
    {draws : List (List ℕ)} {t : MutateState}
    (hfits : Along (mutatePass cfg steps) (PassFits cfg) (.mutating 0 s) draws)
    (hrun : run (mutatePass cfg steps) (.mutating 0 s) draws = some t) : Inside cfg t := by
  have hstart : Inside cfg (.mutating 0 s) := ⟨hbuf, htmp, hlen, hle⟩
  exact run_invariant_along (mutatePass_inside hcfg) hstart hfits hrun

/-- Two bytes in buffers of the given size. -/
def twoBytes (size : ℕ) : Havoc := ⟨⟨size, fun _ => 0⟩, ⟨size, fun _ => 0⟩, 2, []⟩

/-- The first of the random numbers is an index of `MUT_INSERTONE`. -/
def insertsOne : List ℕ := [194, 1, 0]

theorem drawMutation_insertsOne (size : ℕ) :
    drawMutation { maxLen := size } { twoBytes size with draws := insertsOne } =
      .ok (.insertone, { twoBytes size with draws := [1, 0] }) := rfl

theorem run_inside_insertone : ∃ t,
    run (mutatePass { maxLen := 3 } 1) (.mutating 0 (twoBytes 3)) [insertsOne] = some t ∧
      Inside { maxLen := 3 } t := by
  have hfits : Along (mutatePass { maxLen := 3 } 1) (PassFits { maxLen := 3 })
      (.mutating 0 (twoBytes 3)) [insertsOne] := by
    refine ⟨fun m t h => ?_, fun _ _ => trivial⟩
    obtain ⟨rfl, rfl⟩ := Prod.mk.inj (Except.ok.inj ((drawMutation_insertsOne 3).symm.trans h))
    exact Or.inr (by decide)
  have hlen : (twoBytes 3).len = 2 := rfl
  exact ⟨_, rfl, run_inside ⟨by decide, by decide⟩ rfl rfl (by rw [hlen]; decide)
    (by rw [hlen]; decide) hfits rfl⟩

/-- With the buffer full, `MUT_INSERTONE` writes behind its end. -/
theorem not_inside_full : ¬∀ (cfg : Config) (steps : ℕ) (s : Havoc) (draws : List (List ℕ))
    (t : MutateState), Bounded cfg → s.buf.size = cfg.maxLen → s.tmpBuf.size = cfg.maxLen →
      1 ≤ s.len → s.len ≤ cfg.maxLen →
        run (mutatePass cfg steps) (.mutating 0 s) draws = some t → Inside cfg t := by
  intro h
  exact h { maxLen := 2 } 1 (twoBytes 2) [insertsOne] .outside ⟨by decide, by decide⟩ rfl rfl
    (by decide) (by decide) rfl

end Runs

end AflPlusPlus.Mutations
