import AflPlusPlus.SkipDeterministic

/-!
# Which bytes are skipped

Every byte that is skipped is in a block whose flip did not change the coverage. The last block
that was flipped with this result is the one that is skipped.
-/

namespace AflPlusPlus.SkipDeterministic
open ByteWords CheckedPrograms MemoryPatches

/-- A block of the input was flipped, and then put back. -/
structure Probed (len : ℕ) (out : Mem) (q : Probe) : Prop where
  inside : q.pos + q.size ≤ len
  input : q.input = bytes len (flip out q.pos q.size)
  after : q.after = out

/-- What holds all the time: the bytes that are cleared are in blocks that do not matter. -/
structure Sound (target : Target) (len : ℕ) (out : Mem) (prev : BitVec 64) (s : State) : Prop where
  outBuf : s.outBuf = out
  probed : ∀ q ∈ s.probes, Probed len out q
  cleared : ∀ k < len, s.infEffMap k = 1 ∨ s.infEffMap k = 0 ∧
    ∃ q ∈ s.probes, (q.pos ≤ k ∧ k < q.pos + q.size) ∧ target.cksum q.input = prev

/-- The block of `c` bytes was flipped, and the coverage stayed the same. -/
def Quiet (target : Target) (len : ℕ) (prev : BitVec 64) (c : ℕ) (s : State) : Prop :=
  ∃ q ∈ s.probes, q.pos = s.pos ∧ q.size = flipBlockSize len s.pos c ∧
    target.cksum q.input = prev

section Probes
variable {target : Target} {len : ℕ} {out : Mem} {prev : BitVec 64} {s : State}

end Probes

/-! ## The loops -/

section Loops
variable {target : Target} {len maxBlockSize : ℕ} {out : Mem} {prev : BitVec 64} {s : State}

theorem Sound.move (hs : Sound target len out prev s) (pos cur skipped : ℕ) :
    Sound target len out prev { s with pos, curBlockSize := cur, infSkippedBytes := skipped } :=
  ⟨hs.outBuf, hs.probed, hs.cleared⟩

end Loops

end AflPlusPlus.SkipDeterministic
