import AflPlusPlus.ExtrasStages

/-!
# Tokens written over the input

The tokens come in the order of their lengths, so each covers what the one before has left, and
the last write is the only one that has to be undone.
-/

namespace AflPlusPlus.ExtrasStages
open ByteWords ByteBuffers Overlays

/-- The state `s` of a stage that has written tokens over the first `n` offsets. -/
structure Overlaid (inBuf : Buffer) (extras : List Buffer) (skipEffMap : ℕ → Bool)
    (skips : ℕ → ℕ → Bool) (n : ℕ) (s : OverState) : Prop where
  restored : s.outBuf = inBuf
  one_token : ∀ e ∈ s.execs, e.stageCurByte < n ∧ skipEffMap e.stageCurByte = true ∧
    ∃ extra, extras[e.extra]? = some extra ∧ extra.length ≤ inBuf.length - e.stageCurByte ∧
      e.buf = overlay inBuf e.stageCurByte extra
  /-- A token that is not skipped is tried, or what it gives is the input or the candidate that
  was executed last at this offset. -/
  tried : ∀ i < n, skipEffMap i = true → ∀ j extra, extras[j]? = some extra →
    extra.length ≤ inBuf.length - i → skips i j = false →
      ⟨i, j, overlay inBuf i extra⟩ ∈ s.execs ∨ overlay inBuf i extra = inBuf ∨
      ∃ k < j, ⟨i, k, overlay inBuf i extra⟩ ∈ s.execs ∧
        ∀ e ∈ s.execs, e.stageCurByte = i → e.extra ≤ k ∨ j ≤ e.extra

/-! ## One offset -/

/-- At offset `i` the buffer is the input with `laid` over it. -/
structure Laid (inBuf : Buffer) (i : ℕ) (laid : Buffer) (s : OverState) : Prop where
  fits : i + laid.length ≤ inBuf.length
  outBuf_eq : s.outBuf = overlay inBuf i laid
  lastLen_eq : s.lastLen = laid.length

section Offset
variable {inBuf laid extra : Buffer} {extras : List Buffer} {skips : ℕ → ℕ → Bool} {i j : ℕ}
  {s : OverState}

theorem Laid.length_eq (h : Laid inBuf i laid s) : s.outBuf.length = inBuf.length := by
  rw [h.outBuf_eq, length_overlay h.fits]

/-- A token is skipped, changes nothing, or is executed over the input. -/
theorem tryExtra_cases (skips : ℕ → ℕ → Bool) (j : ℕ) (h : Laid inBuf i laid s)
    (hlen : laid.length ≤ extra.length) (hi : i ≤ inBuf.length) :
    (tryExtra skips i j extra s = s ∧ (extra.length ≤ inBuf.length - i → skips i j = false →
      overlay inBuf i extra = overlay inBuf i laid)) ∨
    (extra.length ≤ inBuf.length - i ∧ Laid inBuf i extra (tryExtra skips i j extra s) ∧
      (tryExtra skips i j extra s).execs = s.execs ++ [⟨i, j, overlay inBuf i extra⟩]) := by
  unfold tryExtra
  split
  · rename_i hskip
    refine .inl ⟨rfl, fun hfits hnot => ?_⟩
    have hsame : extra = (s.outBuf.drop i).take extra.length := by
      rw [h.length_eq] at hskip
      rcases hskip with hskip | hlong | hsame
      · exact absurd (hnot.symm.trans hskip) (by decide)
      · omega
      · exact hsame
    rw [← overlay_overlay hlen (by omega), ← h.outBuf_eq, overlay_of_eq hsame, h.outBuf_eq]
  · rename_i hgoes
    rw [h.length_eq] at hgoes
    have hfits : extra.length ≤ inBuf.length - i := not_lt.mp fun hlong => hgoes (.inr (.inl hlong))
    have hover : overlay s.outBuf i extra = overlay inBuf i extra := by
      rw [h.outBuf_eq, overlay_overlay hlen (by omega)]
    refine .inr ⟨hfits, ⟨by omega, hover, rfl⟩, ?_⟩
    dsimp only
    rw [hover]

/-- The executions at offset `i` with the tokens from the `j`-th on, over the token `laid`. -/
structure Executed (inBuf laid : Buffer) (skips : ℕ → ℕ → Bool) (i j : ℕ) (rest : List Buffer)
    (added : List OverExec) : Prop where
  one_token : ∀ e ∈ added, e.stageCurByte = i ∧ j ≤ e.extra ∧ ∃ extra,
    rest[e.extra - j]? = some extra ∧ extra.length ≤ inBuf.length - i ∧
      e.buf = overlay inBuf i extra
  tried : ∀ k extra, rest[k]? = some extra → extra.length ≤ inBuf.length - i →
    skips i (j + k) = false →
      ⟨i, j + k, overlay inBuf i extra⟩ ∈ added ∨
      (overlay inBuf i extra = overlay inBuf i laid ∧ ∀ e ∈ added, j + k ≤ e.extra) ∨
      ∃ m < k, ⟨i, j + m, overlay inBuf i extra⟩ ∈ added ∧
        ∀ e ∈ added, e.extra ≤ j + m ∨ j + k ≤ e.extra

theorem getElem?_cons_sub {rest : List Buffer} {k : ℕ} (hk : j + 1 ≤ k) :
    (extra :: rest)[k - j]? = rest[k - (j + 1)]? := by
  rw [show k - j = k - (j + 1) + 1 by omega, List.getElem?_cons_succ]

theorem tryExtras_spec (skips : ℕ → ℕ → Bool) {rest : List Buffer}
    (h : Laid inBuf i laid s) (hi : i ≤ inBuf.length)
    (hsorted : (laid :: rest).Pairwise fun a b => a.length ≤ b.length) :
    ∃ added laid', (tryExtras skips i j rest s).execs = s.execs ++ added ∧
      Laid inBuf i laid' (tryExtras skips i j rest s) ∧
      Executed inBuf laid skips i j rest added := by
  induction rest generalizing j laid s with
  | nil =>
    refine ⟨[], laid, (List.append_nil _).symm, h, ⟨fun e he => ?_, fun k extra hk => ?_⟩⟩
    · exact absurd he List.not_mem_nil
    · exact absurd hk (by simp)
  | cons extra rest ih =>
    obtain ⟨hle, hrest⟩ := List.pairwise_cons.mp hsorted
    rw [tryExtras]
    rcases tryExtra_cases skips j h (hle extra List.mem_cons_self) hi with
      ⟨hsame, hequal⟩ | ⟨hfits, hlaid, hexecs⟩
    · rw [hsame]
      have hskipped : (laid :: rest).Pairwise fun a b => a.length ≤ b.length :=
        List.pairwise_cons.mpr ⟨fun b hb => hle b (List.mem_cons_of_mem _ hb), hrest.of_cons⟩
      obtain ⟨added, laid', hadded, hend, hone, htried⟩ := @ih laid (j + 1) s h hskipped
      refine ⟨added, laid', hadded, hend, ⟨fun e he => ?_, fun k token hk hlen hnot => ?_⟩⟩
      · obtain ⟨hbyte, hge, token, htoken, hrest⟩ := hone e he
        refine ⟨hbyte, by omega, token, ?_, hrest⟩
        rw [getElem?_cons_sub hge, htoken]
      · cases k with
        | zero =>
          obtain rfl := Option.some.inj hk
          refine .inr (.inl ⟨hequal hlen hnot, fun e he => ?_⟩)
          have := (hone e he).2.1
          omega
        | succ k =>
          have hshift : j + 1 + k = j + (k + 1) := by omega
          have := htried k token hk hlen (by rwa [hshift])
          rw [hshift] at this
          refine this.imp_right (Or.imp_right ?_)
          rintro ⟨m, hm, hmem, hlast⟩
          refine ⟨m + 1, by omega, ?_, fun e he => ?_⟩
          · rwa [show j + (m + 1) = j + 1 + m by omega]
          · have := hlast e he
            omega
    · obtain ⟨added, laid', hadded, hend, hone, htried⟩ := @ih extra (j + 1) _ hlaid hrest
      refine ⟨⟨i, j, overlay inBuf i extra⟩ :: added, laid', ?_, hend,
        ⟨fun e he => ?_, fun k token hk hlen hnot => ?_⟩⟩
      · rw [hadded, hexecs, List.append_assoc]
        rfl
      · rcases List.mem_cons.mp he with rfl | he
        · exact ⟨rfl, le_rfl, extra, by simp, hfits, rfl⟩
        · obtain ⟨hbyte, hge, token, htoken, hrest⟩ := hone e he
          refine ⟨hbyte, by omega, token, ?_, hrest⟩
          rw [getElem?_cons_sub hge, htoken]
      · cases k with
        | zero =>
          obtain rfl := Option.some.inj hk
          exact .inl List.mem_cons_self
        | succ k =>
          have hshift : j + 1 + k = j + (k + 1) := by omega
          have := htried k token hk hlen (by rwa [hshift])
          rw [hshift] at this
          rcases this with hmem | ⟨hequal, hlater⟩ | ⟨m, hm, hmem, hlast⟩
          · exact .inl (List.mem_cons_of_mem _ hmem)
          · -- the token leaves the candidate of the `j`-th one as it is
            refine .inr (.inr ⟨0, k.succ_pos, ?_, fun e he => ?_⟩)
            · rw [hequal]
              exact List.mem_cons_self
            · rcases List.mem_cons.mp he with rfl | he
              · exact .inl le_rfl
              · exact .inr (hlater e he)
          · refine .inr (.inr ⟨m + 1, by omega, ?_, fun e he => ?_⟩)
            · rw [show j + (m + 1) = j + 1 + m by omega]
              exact List.mem_cons_of_mem _ hmem
            · rcases List.mem_cons.mp he with rfl | he
              · exact .inl (Nat.le_add_right j (m + 1))
              · have := hlast e he
                omega

/-! ## The offsets one after the other -/

variable {skipEffMap : ℕ → Bool} {n : ℕ}

theorem overOffset_spec (skips : ℕ → ℕ → Bool) (hout : s.outBuf = inBuf) (hi : i < inBuf.length)
    (hmap : skipEffMap i = true) (hsorted : extras.Pairwise fun a b => a.length ≤ b.length) :
    (overOffset inBuf extras skipEffMap skips s i).outBuf = inBuf ∧
      ∃ added, (overOffset inBuf extras skipEffMap skips s i).execs = s.execs ++ added ∧
        Executed inBuf [] skips i 0 extras added := by
  have hstart : Laid inBuf i [] { s with lastLen := 0 } :=
    ⟨hi.le, hout.trans (overlay_nil inBuf i).symm, rfl⟩
  have hnil : ([] :: extras).Pairwise fun a b => a.length ≤ b.length :=
    List.pairwise_cons.mpr ⟨fun b _ => Nat.zero_le b.length, hsorted⟩
  obtain ⟨added, laid, hadded, hlaid, hexecuted⟩ :=
    tryExtras_spec skips (j := 0) hstart hi.le hnil
  unfold overOffset
  rw [if_pos hmap]
  refine ⟨?_, added, hadded, hexecuted⟩
  dsimp only
  rw [hlaid.outBuf_eq, hlaid.lastLen_eq, overlay_restore hlaid.fits]

theorem Overlaid.offset (h : Overlaid inBuf extras skipEffMap skips n s) (hn : n < inBuf.length)
    (hsorted : extras.Pairwise fun a b => a.length ≤ b.length) :
    Overlaid inBuf extras skipEffMap skips (n + 1)
      (overOffset inBuf extras skipEffMap skips s n) := by
  cases hmap : skipEffMap n with
  | false =>
    have hsame : overOffset inBuf extras skipEffMap skips s n = s := if_neg (by simp [hmap])
    rw [hsame]
    refine ⟨h.restored, fun e he => ?_, fun i hi hset => ?_⟩
    · obtain ⟨hlt, hrest⟩ := h.one_token e he
      exact ⟨by omega, hrest⟩
    · have hne : i ≠ n := by
        rintro rfl
        exact absurd (hset.symm.trans hmap) (by decide)
      exact h.tried i (by omega) hset
  | true =>
    obtain ⟨hout, added, hadded, hone, htried⟩ :=
      overOffset_spec skips h.restored hn hmap hsorted
    refine ⟨hout, fun e he => ?_, fun i hi hset j extra hj hlen hnot => ?_⟩
    · rw [hadded] at he
      rcases List.mem_append.mp he with he | he
      · obtain ⟨hlt, hrest⟩ := h.one_token e he
        exact ⟨by omega, hrest⟩
      · obtain ⟨hbyte, -, hextra⟩ := hone e he
        rw [hbyte]
        exact ⟨n.lt_succ_self, hmap, hextra⟩
    · rw [hadded]
      by_cases hin : i = n
      · subst hin
        -- the executions at earlier offsets are not at this one
        have hold : ∀ e ∈ s.execs, e.stageCurByte ≠ i := fun e he => (h.one_token e he).1.ne
        have hnew := htried j extra hj hlen (by rwa [Nat.zero_add])
        rw [overlay_nil, Nat.zero_add] at hnew
        rcases hnew with hmem | ⟨hequal, -⟩ | ⟨k, hk, hmem, hlast⟩
        · exact .inl (List.mem_append_right _ hmem)
        · exact .inr (.inl hequal)
        · rw [Nat.zero_add] at hmem hlast
          refine .inr (.inr ⟨k, hk, List.mem_append_right _ hmem, fun e he hbyte => ?_⟩)
          rcases List.mem_append.mp he with he | he
          · exact absurd hbyte (hold e he)
          · exact hlast e he
      · refine (h.tried i (by omega) hset j extra hj hlen hnot).imp (List.mem_append_left _)
          (Or.imp_right ?_)
        rintro ⟨k, hk, hmem, hlast⟩
        refine ⟨k, hk, List.mem_append_left _ hmem, fun e he hbyte => ?_⟩
        rcases List.mem_append.mp he with he | he
        · exact hlast e he hbyte
        · exact absurd (hbyte.symm.trans (hone e he).1) hin

end Offset

end AflPlusPlus.ExtrasStages
