import AflPlusPlus.ByteBuffers

/-!
# Pipes

A pipe holds up to `capacity` bytes in the order in which they were written. A write waits
until there is room for all of its bytes, a read until there is a byte, and takes what there
is when it asks for more.
-/

namespace AflPlusPlus.Pipes
open ByteWords ByteBuffers

structure Pipe (capacity : ℕ) where
  bytes : Buffer
  fits : bytes.length ≤ capacity

variable {capacity : ℕ}

namespace Pipe

def empty : Pipe capacity := ⟨[], Nat.zero_le _⟩

def write (p : Pipe capacity) (bs : Buffer) : Option (Pipe capacity) :=
  if h : p.bytes.length + bs.length ≤ capacity then
    some ⟨p.bytes ++ bs, (List.length_append).trans_le h⟩
  else none

def read (p : Pipe capacity) (n : ℕ) : Option (Buffer × Pipe capacity) :=
  if p.bytes = [] then none
  else some (p.bytes.take n, ⟨p.bytes.drop n, (p.bytes.length_drop ▸ Nat.sub_le _ _).trans p.fits⟩)

@[simp] theorem bytes_empty : (empty : Pipe capacity).bytes = [] := rfl

theorem write_eq_some {p q : Pipe capacity} {bs : Buffer} (h : p.write bs = some q) :
    q.bytes = p.bytes ++ bs := by
  rw [write] at h
  split at h
  · rw [← Option.some.inj h]
  · exact absurd h (by simp)

theorem exists_write {p : Pipe capacity} {bs : Buffer}
    (h : p.bytes.length + bs.length ≤ capacity) : ∃ q, p.write bs = some q :=
  ⟨_, dif_pos h⟩

theorem read_eq_some {p q : Pipe capacity} {n : ℕ} {bs : Buffer}
    (h : p.read n = some (bs, q)) :
    p.bytes ≠ [] ∧ bs = p.bytes.take n ∧ q.bytes = p.bytes.drop n := by
  rw [read] at h
  split at h
  · exact absurd h (by simp)
  · next hne =>
    obtain ⟨rfl, rfl⟩ := Prod.mk.inj (Option.some.inj h)
    exact ⟨hne, rfl, rfl⟩

theorem exists_read {p : Pipe capacity} (n : ℕ) (h : p.bytes ≠ []) :
    ∃ bs q, p.read n = some (bs, q) :=
  ⟨_, _, if_neg h⟩

end Pipe

/-- The bytes of a 32-bit word in memory. -/
def wordBytes (x : BitVec 32) : Buffer := (List.range 4).map fun j => byteOf x j

@[simp] theorem length_wordBytes (x : BitVec 32) : (wordBytes x).length = 4 := by
  simp [wordBytes]

/-- A word is read back from its bytes. -/
@[simp] theorem loadAt_wordBytes (x : BitVec 32) : loadAt 4 (wordBytes x) 0 = x := by
  apply eq_of_byteOf_eq
  intro j hj
  rw [byteOf_loadAt hj, byteAt, wordBytes, Nat.zero_add, List.getD_eq_getElem _ _ (by simpa)]
  simp

end AflPlusPlus.Pipes
