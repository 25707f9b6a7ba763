import AflPlusPlus.Base64Spec
import AflPlusPlus.RtnVerbatim

/-!
# What the transformations leave behind

The attempts for the bytes up to `i` write these bytes, which are put back at the end. Those that
convert the replacement to base64 write more bytes, and those that convert it to hexadecimal put
back what they have written from an array that may hold less. What they leave does not depend on
what the runs find.
-/

namespace AflPlusPlus.Redqueen
open ByteWords CheckedPrograms MemoryPatches TextLines

/-- What the transform solving starts from. -/
structure TransformStart where
  f : Fuzzer
  x : Strings
  idx : ℕ
  itsLen : ℕ
  buf : Mem
  save : Mem

namespace TransformStart
variable (b : TransformStart)

/-- The counters after the bytes before `i` of a buffer. -/
def scanned (m : Mem) : ℕ → Scan
  | 0 => {}
  | i + 1 => (scanned m i).count b.f b.x b.idx i m

/-- The length of the replacement whose base64 text is written last at byte `i`, or `0`. -/
def base64Tried (i : ℕ) : ℕ :=
  if (b.scanned b.buf (i + 1)).fromBase64Active b.f i then
    ((Scan.base64Lens b.f b.idx i b.itsLen).filter fun hlen =>
      toBase64Len hlen + b.idx < b.f.len).getLastD 0
  else 0

/-- How many bytes are put back after the last hexadecimal text at byte `i`. -/
def hexRestored (i : ℕ) : ℕ :=
  let c := b.scanned b.buf (i + 1)
  if c.fromHexActive b.f i then ((Scan.hexLens b.f b.idx i).map c.hexLen).getLastD 0 else 0

/-- The buffer after the attempts for the bytes before `i`, from byte `i` on. -/
def behind : ℕ → Mem
  | 0 => b.buf
  | i + 1 =>
    let n := b.base64Tried i
    patch (patch (behind i) b.idx (toBase64Len n) (toBase64 b.x.repl (fun _ => 0) n).1) b.idx
      (b.hexRestored i) b.save

/-- The bytes that the counters are about. -/
def seen : Mem := fun k => b.behind (k - b.idx) k

/-- The loop stops at byte `i`, also when nothing is found. -/
def stopsAt (i : ℕ) : Bool := (b.scanned b.seen (i + 1)).stops b.f b.x i

/-- Where the loop ends when nothing is found. -/
def stop : ℕ := ((List.range b.itsLen).find? b.stopsAt).getD b.itsLen

end TransformStart

/-! ## Counters that do not depend on the buffer -/

namespace Scan
variable {f : Fuzzer} {x : Strings} {idx i : ℕ} {m m' : Mem} {c c' : Scan}

/-- Only byte `i` of the buffer is counted. -/
theorem count_congr (h : m (idx + i) = m' (idx + i)) :
    c.count f x idx i m = c.count f x idx i m' := by
  simp only [count, relations, h]

end Scan

/-! ## The attempts for one byte -/

section Attempts
variable {f : Fuzzer} {x : Strings} {idx i itsLen : ℕ} {c : Scan} {s : State}
  {allowed : Halt → Prop} {tmp m save : Mem}

/-- A program changes the first `i + 1` bytes at most. -/
def Touches (allowed : Halt → Prop) (idx i : ℕ) {α : Type} (p : M α) : Prop :=
  ∀ s, wp allowed p (fun _ t => SameOutside idx (i + 1) t.buf s.buf) s

theorem Touches.bind {α β : Type} {p : M α} {g : α → M β} (hp : Touches allowed idx i p)
    (hg : ∀ a, Touches allowed idx i (g a)) : Touches allowed idx i (p >>= g) := by
  intro s
  apply wp_cut (hp s)
  intro a t ht
  apply wp_mono (hg a t)
  intro b u hu
  exact hu.trans ht

theorem touches_pure {α : Type} (a : α) : Touches allowed idx i (pure a : M α) :=
  fun _ => SameOutside.refl _ _ _

theorem touches_get : Touches allowed idx i (get : M State) := fun _ => SameOutside.refl _ _ _

theorem Touches.ite {α : Type} {p q : M α} {cond : Prop} [Decidable cond]
    (hp : Touches allowed idx i p) (hq : Touches allowed idx i q) :
    Touches allowed idx i (if cond then p else q) := by
  split
  · exact hp
  · exact hq

theorem Touches.onlyIf {p : M Unit} {cond : Prop} [Decidable cond]
    (hp : Touches allowed idx i p) : Touches allowed idx i (onlyIf cond p) :=
  hp.ite (touches_pure ())

theorem Touches.unlessFound {p : M Unit} (hp : Touches allowed idx i p) :
    Touches allowed idx i (unlessFound p) := touches_get.bind fun _ => hp.onlyIf

end Attempts

/-! ## The loop -/

namespace TransformStart
variable {b : TransformStart} {i j n k : ℕ} {s : State} {allowed : Halt → Prop} {tmp : Mem}

end TransformStart

/-! ## The whole call -/

section Call
variable (f : Fuzzer) (p : Place f.len) (call : RtnCall) (left : Leftover) (s : State)

/-- The call comes to the transform solving, if nothing is found before. -/
def TransformReached : Prop :=
  let itsLen := call.strings.itsLen s.hshape (f.len - p.idx) p.taintLen
  1 < itsLen ∧ f.isLvl3 ∧ f.cmplogEnableTransform ∧
    bytes itsLen call.strings.changedVal = bytes itsLen call.strings.repl

/-- What the transform solving starts from. Up to four bytes before the position are in `save` when
the bytes from it on are written over them. -/
def transformStart : TransformStart :=
  let itsLen := call.strings.itsLen s.hshape (f.len - p.idx) p.taintLen
  let stop := min 4 p.idx
  { f, x := call.strings, idx := p.idx, itsLen, buf := s.buf
    save := patch (patch left.save 0 (itsLen + stop) (window s.buf (p.idx - stop))) 0 itsLen
      (window s.buf p.idx) }

/-- The bytes behind those that are put back in the end are as before. -/
def RestoresRest : Prop :=
  let b := transformStart f p call left s
  TransformReached f p call s → ∀ k < f.len, p.idx + b.stop ≤ k → b.behind b.stop k = s.buf k

variable {f p call left s} {u t : State} {allowed : Halt → Prop}

/-- Without the extreme transformations nothing is left behind. -/
theorem restoresRest_of_not_xtreme (hxtreme : f.cmplogEnableXtremeTransform = false) :
    RestoresRest f p call left s := by
  intro _ k _ _
  have hbehind : ∀ i, (transformStart f p call left s).behind i = s.buf := by
    intro i
    induction i with
    | zero => rfl
    | succ i ih =>
      have hbase64 : (transformStart f p call left s).base64Tried i = 0 := by
        rw [TransformStart.base64Tried, Scan.fromBase64Active]
        exact if_neg (by simp [transformStart, hxtreme])
      have hhex : (transformStart f p call left s).hexRestored i = 0 := by
        rw [TransformStart.hexRestored]
        exact if_neg (by simp [Scan.fromHexActive, transformStart, hxtreme])
      rw [TransformStart.behind, hbase64, hhex, patch_zero, ih]
      exact patch_zero
  rw [hbehind]

end Call

end AflPlusPlus.Redqueen
