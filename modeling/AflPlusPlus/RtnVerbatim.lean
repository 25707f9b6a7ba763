import AflPlusPlus.RtnExtendEncoding

/-!
# The verbatim match

The loop writes one byte more of the replacement for each run, and what it has written is put
back. What it copies when a run finds something is one byte short.
-/

namespace AflPlusPlus.Redqueen
open ByteWords CheckedPrograms MemoryPatches

/-- What a part of the function does besides changing the buffer. -/
structure Goes (f : Fuzzer) (s t : State) : Prop where
  hshape : t.hshape = s.hshape
  status : t.status = s.status ∨ f.Leaves t.status

section Goes
variable {f : Fuzzer} {s t u : State}

theorem Goes.refl (f : Fuzzer) (s : State) : Goes f s s := ⟨rfl, .inl rfl⟩

theorem Goes.trans (h : Goes f s t) (h' : Goes f t u) : Goes f s u := by
  constructor
  · exact h'.hshape.trans h.hshape
  · rcases h'.status with heq | hleaves
    · rw [heq]
      exact h.status
    · exact .inr hleaves

end Goes

section Loop
variable {f : Fuzzer} {x : Strings} {idx n i j : ℕ} {s t : State} {allowed : Halt → Prop}

/-- The bytes from `i` to `j` are written, and when the last of these runs finds something, those
before the last one are copied. -/
structure VerbatimEnd (f : Fuzzer) (x : Strings) (idx n i : ℕ) (s : State) (j : ℕ) (t : State) :
    Prop where
  bounds : i ≤ j ∧ j ≤ i + n
  buf : t.buf = patch s.buf (idx + i) (j - i) (window x.repl i)
  goes : Goes f s t
  done : s.status = 1 → j = i ∧ t = s
  found : s.status ≠ 1 → t.status = 1 →
    i < j ∧ (f.combine = true → t.cbuf = patch s.cbuf idx (j - 1) x.repl)

/-- A byte is written before the rest of the loop. -/
theorem VerbatimEnd.step {u : State} (hstatus : s.status ≠ 1)
    (hwritten : ∀ k < i, s.buf (idx + k) = x.repl k)
    (hbuf : u.buf = patch s.buf (idx + i) 1 (window x.repl i)) (hgoes : Goes f s u)
    (hcopied : f.combine = true → u.status = 1 → u.cbuf = patch s.cbuf idx i (window u.buf idx))
    (hkept : f.combine = false ∨ u.status ≠ 1 → u.cbuf = s.cbuf)
    (h : VerbatimEnd f x idx n (i + 1) u j t) : VerbatimEnd f x idx (n + 1) i s j t := by
  obtain ⟨⟨hlow, hhigh⟩, hrest, hrestGoes, hdone, hfound⟩ := h
  constructor
  · omega
  · have hsum : j - i = 1 + (j - (i + 1)) := by omega
    rw [hrest, hbuf, hsum, ← patch_append]
    congr 1
    funext k
    simp only [window_apply]
    congr 1
    omega
  · exact hgoes.trans hrestGoes
  · exact fun hone => absurd hone hstatus
  · intro hstart hend
    by_cases hone : u.status = 1
    · obtain ⟨rfl, rfl⟩ := hdone hone
      refine ⟨by omega, fun hcombine => ?_⟩
      rw [hcopied hcombine hone, Nat.add_sub_cancel]
      apply patch_congr
      intro k hk
      rw [window_apply, hbuf, patch_of_not_mem (by omega), hwritten k hk]
    · obtain ⟨hlt, hcbuf⟩ := hfound hone hend
      refine ⟨by omega, fun hcombine => ?_⟩
      rw [hcbuf hcombine, hkept (.inr hone)]

end Loop

section Restored
variable {f : Fuzzer} {x : Strings} {s : State} {allowed : Halt → Prop} {buf save : Mem}
  {savedIdx savedItsLen stop : ℕ}

end Restored

end AflPlusPlus.Redqueen
