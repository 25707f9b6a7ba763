import AflPlusPlus.Colorization
import AflPlusPlus.TransitionSystems

/-!
# What colorization leaves in the buffer

The ranges are always disjoint and tell which bytes of the buffer are replaced. The regions that
are merged from them cover the same bytes, and the target runs on the buffer as on the input.
-/

namespace AflPlusPlus.Colorization
open ByteWords ByteBuffers LinkedLists Overlays

section Ends
variable {α β : Type} {r : Except Fault α} {f : α → Except Fault β} {P Q : α → Prop}
  {R : β → Prop}

/-- There is a result with the given property, unless the fuzzer stops or the random numbers run
out. -/
def Ends (r : Except Fault α) (Q : α → Prop) : Prop :=
  match r with
  | .ok a => Q a
  | .error e => e = .stopped ∨ e = .exhausted

theorem ends_pure {a : α} (h : Q a) : Ends (pure a) Q := h

theorem ends_bind (hr : Ends r Q) (hf : ∀ a, Q a → Ends (f a) R) : Ends (r >>= f) R := by
  cases r with
  | ok a => exact hf a hr
  | error e => exact hr

theorem ends_deref {o : Option α} {a : α} (h : o = some a) (hf : Ends (f a) R) :
    Ends (deref o >>= f) R := by
  rw [h]
  exact hf

theorem Ends.mono (hr : Ends r P) (h : ∀ a, P a → Q a) : Ends r Q := by
  cases r with
  | ok a => exact h a hr
  | error e => exact hr

end Ends

/-! ## The replaced copy -/

/-- The copy has another byte at each position. -/
structure Replaced (orig changed : Buffer) : Prop where
  length : changed.length = orig.length
  ne : ∀ p < orig.length, changed[p]? ≠ orig[p]?

def Range.Covers (r : Range) (p : ℕ) : Prop := r.start ≤ p ∧ p ≤ r.stop

instance (r : Range) (p : ℕ) : Decidable (r.Covers p) := inferInstanceAs (Decidable (_ ∧ _))

def Range.Disjoint (a b : Range) : Prop := a.stop < b.start ∨ b.stop < a.start

theorem Range.Disjoint.symm {a b : Range} (h : a.Disjoint b) : b.Disjoint a := Or.symm h

/-- Ranges inside an input of `len` bytes, no two of which overlap. -/
structure Laid (len : ℕ) (xs : List Range) : Prop where
  inside : ∀ r ∈ xs, r.start ≤ r.stop ∧ r.stop < len
  disjoint : xs.Pairwise Range.Disjoint

/-- Some range that is marked with `ok` covers the position. -/
def Marked (ok : ℕ → Bool) (xs : List Range) (p : ℕ) : Prop := ∃ r ∈ xs, ok r.ok ∧ r.Covers p

instance (ok : ℕ → Bool) (xs : List Range) (p : ℕ) : Decidable (Marked ok xs p) :=
  inferInstanceAs (Decidable (∃ r ∈ xs, _))

/-- The ranges tell what the buffer is: the changed copy where they are marked, and the input
elsewhere. -/
structure Painted (orig changed : Buffer) (ok : ℕ → Bool) (xs : List Range) (buf : Buffer) :
    Prop where
  laid : Laid orig.length xs
  length : buf.length = orig.length
  bytes : ∀ p, buf[p]? = if Marked ok xs p then changed[p]? else orig[p]?

section Ranges
variable {len : ℕ} {xs ys : List Range} {r r' : Range} {ok : ℕ → Bool}
  {orig changed buf : Buffer}

theorem Laid.size_eq (h : Laid len xs) (hlen : len < 2 ^ 32) (hr : r ∈ xs) :
    r.size = r.stop + 1 - r.start ∧ r.start + r.size ≤ len ∧ 0 < r.size := by
  obtain ⟨hle, hlt⟩ := h.inside r hr
  unfold Range.size
  omega

/-- A range between others may be taken out and put in front. -/
theorem laid_middle : Laid len (xs ++ r :: ys) ↔ Laid len (r :: (xs ++ ys)) := by
  constructor
  · rintro ⟨hinside, hdisjoint⟩
    constructor
    · intro a ha
      apply hinside
      simp only [List.mem_cons, List.mem_append] at ha ⊢
      tauto
    · exact (List.pairwise_middle Range.Disjoint.symm).mp hdisjoint
  · rintro ⟨hinside, hdisjoint⟩
    constructor
    · intro a ha
      apply hinside
      simp only [List.mem_cons, List.mem_append] at ha ⊢
      tauto
    · exact (List.pairwise_middle Range.Disjoint.symm).mpr hdisjoint

theorem marked_middle {p : ℕ} : Marked ok (xs ++ r :: ys) p ↔
    (ok r.ok ∧ r.Covers p) ∨ Marked ok (xs ++ ys) p := by
  simp only [Marked, List.mem_append, List.mem_cons]
  constructor
  · rintro ⟨a, (ha | rfl | ha), hok, hcovers⟩
    · exact .inr ⟨a, .inl ha, hok, hcovers⟩
    · exact .inl ⟨hok, hcovers⟩
    · exact .inr ⟨a, .inr ha, hok, hcovers⟩
  · rintro (⟨hok, hcovers⟩ | ⟨a, ha, hok, hcovers⟩)
    · exact ⟨r, .inr (.inl rfl), hok, hcovers⟩
    · exact ⟨a, ha.elim .inl fun h => .inr (.inr h), hok, hcovers⟩

/-- Ranges with the same places are laid out alike. -/
theorem Laid.remark (h : Laid len (xs ++ r :: ys)) (n : ℕ) :
    Laid len (xs ++ { r with ok := n } :: ys) := by
  rw [laid_middle] at h ⊢
  constructor
  · intro a ha
    rw [List.mem_cons] at ha
    rcases ha with rfl | ha
    · exact h.inside r List.mem_cons_self
    · exact h.inside a (List.mem_cons_of_mem _ ha)
  · have hpair := List.pairwise_cons.mp h.disjoint
    exact List.pairwise_cons.mpr ⟨hpair.1, hpair.2⟩

/-- Two ranges inside another take its place. -/
theorem Laid.split (h : Laid len (xs ++ r :: ys)) {a b : Range}
    (ha : r.start ≤ a.start ∧ a.start ≤ a.stop ∧ a.stop < b.start)
    (hb : b.start ≤ b.stop ∧ b.stop ≤ r.stop) : Laid len (b :: a :: (xs ++ ys)) := by
  rw [laid_middle] at h
  obtain ⟨hinside, hdisjoint⟩ := h
  rw [List.pairwise_cons] at hdisjoint
  have hr := hinside r List.mem_cons_self
  constructor
  · intro c hc
    simp only [List.mem_cons] at hc
    rcases hc with rfl | rfl | hc
    · omega
    · omega
    · exact hinside c (List.mem_cons_of_mem _ hc)
  · have hother : ∀ c ∈ xs ++ ys, a.Disjoint c ∧ b.Disjoint c := by
      intro c hc
      have hrc := hdisjoint.1 c hc
      unfold Range.Disjoint at hrc ⊢
      omega
    rw [List.pairwise_cons, List.pairwise_cons]
    refine ⟨fun c hc => ?_, fun c hc => (hother c hc).1, hdisjoint.2⟩
    rw [List.mem_cons] at hc
    rcases hc with rfl | hc
    · exact .inr ha.2.2
    · exact (hother c hc).2

theorem Laid.remove (h : Laid len (xs ++ r :: ys)) : Laid len (xs ++ ys) := by
  rw [laid_middle] at h
  exact ⟨fun a ha => h.inside a (List.mem_cons_of_mem _ ha), (List.pairwise_cons.mp h.disjoint).2⟩

/-- No other range is where the range is. -/
theorem Laid.not_marked (h : Laid len (xs ++ r :: ys)) {p : ℕ} (hp : r.Covers p) :
    ¬Marked ok (xs ++ ys) p := by
  rintro ⟨a, ha, -, hcovers⟩
  rw [laid_middle] at h
  have hdisjoint := (List.pairwise_cons.mp h.disjoint).1 a ha
  unfold Range.Disjoint at hdisjoint
  unfold Range.Covers at hp hcovers
  omega

/-- What is copied over a range. -/
theorem getElem?_copyPart {src : Buffer} (h : Laid buf.length xs) (hlen : buf.length < 2 ^ 32)
    (hsrc : src.length = buf.length) (hr : r ∈ xs) (p : ℕ) :
    (copyPart buf src r.start r.size)[p]? = if r.Covers p then src[p]? else buf[p]? := by
  obtain ⟨hsize, hle, hpos⟩ := h.size_eq hlen hr
  have hpart : ((src.drop r.start).take r.size).length = r.size := by
    rw [List.length_take, List.length_drop]
    omega
  rw [copyPart, getElem?_overlay (by omega), hpart]
  have hcovers : r.start ≤ p ∧ p < r.start + r.size ↔ r.Covers p := by
    unfold Range.Covers
    omega
  simp only [hcovers]
  split
  · rename_i hin
    unfold Range.Covers at hin
    rw [List.getElem?_take_of_lt (by omega), List.getElem?_drop]
    congr 1
    omega
  · rfl

theorem length_copyPart {src : Buffer} (h : Laid buf.length xs) (hlen : buf.length < 2 ^ 32)
    (hsrc : src.length = buf.length) (hr : r ∈ xs) :
    (copyPart buf src r.start r.size).length = buf.length := by
  obtain ⟨hsize, hle, hpos⟩ := h.size_eq hlen hr
  rw [copyPart, length_overlay]
  rw [List.length_take, List.length_drop]
  omega

theorem Painted.length_paint (h : Painted orig changed ok (xs ++ r :: ys) buf)
    (hlen : orig.length < 2 ^ 32) (hchanged : changed.length = orig.length) :
    (copyPart buf changed r.start r.size).length = orig.length := by
  have hlaid := h.laid
  rw [← h.length] at hlaid hlen hchanged
  rw [length_copyPart hlaid hlen hchanged (by simp), h.length]

/-- When the range gets a mark, its bytes are those of the changed copy. -/
theorem Painted.paint (h : Painted orig changed ok (xs ++ r :: ys) buf)
    (hlen : orig.length < 2 ^ 32) (hchanged : changed.length = orig.length) {n : ℕ} (hn : ok n) :
    Painted orig changed ok (xs ++ { r with ok := n } :: ys)
      (copyPart buf changed r.start r.size) := by
  constructor
  · exact h.laid.remark n
  · exact h.length_paint hlen hchanged
  · intro p
    have hlaid := h.laid
    have hold := h.bytes p
    rw [← h.length] at hlaid hlen hchanged
    rw [getElem?_copyPart hlaid hlen hchanged (by simp)]
    simp only [marked_middle] at hold ⊢
    by_cases hp : r.Covers p
    · have hp' : Range.Covers { r with ok := n } p := hp
      simp [hp, hp', hn]
    · have hp' : ¬Range.Covers { r with ok := n } p := hp
      simpa [hp, hp'] using hold

/-- The bytes of a range without a mark are put back. -/
theorem Painted.restore (h : Painted orig changed ok (xs ++ r :: ys) buf)
    (hlen : orig.length < 2 ^ 32) (hchanged : changed.length = orig.length)
    (hok : ok r.ok = false) :
    copyPart (copyPart buf changed r.start r.size) orig r.start r.size = buf := by
  have hpaint := h.length_paint hlen hchanged
  have hlaid := h.laid
  apply List.ext_getElem?
  intro p
  rw [getElem?_copyPart (by rwa [hpaint]) (by rwa [hpaint]) hpaint.symm
    (show r ∈ xs ++ r :: ys by simp)]
  have hold := h.bytes p
  rw [← h.length] at hlaid hlen hchanged
  rw [getElem?_copyPart hlaid hlen hchanged (by simp)]
  split
  · rename_i hp
    rw [hold, if_neg]
    rw [marked_middle]
    rintro (⟨hmark, -⟩ | hmark)
    · simp [hok] at hmark
    · exact h.laid.not_marked hp hmark
  · rfl

/-- A mark may be exchanged for another one. -/
theorem Painted.remark (h : Painted orig changed ok (xs ++ r :: ys) buf) {n : ℕ}
    (hn : ok n = ok r.ok) : Painted orig changed ok (xs ++ { r with ok := n } :: ys) buf := by
  constructor
  · exact h.laid.remark n
  · exact h.length
  · intro p
    have hold := h.bytes p
    simp only [marked_middle] at hold ⊢
    rw [hold]
    simp only [hn]
    rfl

/-- Other ranges without a mark take its place. -/
theorem Painted.replace (h : Painted orig changed ok (xs ++ r :: ys) buf)
    (hok : ok r.ok = false) {new : List Range} (hlaid : Laid orig.length (new ++ (xs ++ ys))) (hnew : ∀ x ∈ new, ok x.ok = false) :
    Painted orig changed ok (new ++ (xs ++ ys)) buf := by
  have hmarks : ∀ p, Marked ok (new ++ (xs ++ ys)) p ↔ Marked ok (xs ++ r :: ys) p := by
    intro p
    rw [marked_middle]
    constructor
    · rintro ⟨a, ha, hmark, hcovers⟩
      rcases List.mem_append.mp ha with ha | ha
      · simp [hnew a ha] at hmark
      · exact .inr ⟨a, ha, hmark, hcovers⟩
    · rintro (⟨hmark, -⟩ | ⟨a, ha, hmark, hcovers⟩)
      · simp [hok] at hmark
      · exact ⟨a, List.mem_append_right _ ha, hmark, hcovers⟩
  constructor
  · exact hlaid
  · exact h.length
  · intro p
    rw [h.bytes p]
    simp only [hmarks]

end Ranges

/-! ## The first loop -/

/-- The list of ranges, in a heap without nodes from the next address on. -/
structure Holds (s : Ranges) (cells : List (ℕ × Range)) : Prop where
  linked : Linked s.heap s.head cells
  fresh : ∀ q, s.top ≤ q → s.heap q = none

/-- What holds before each pass of the first loop. -/
structure PaintInv (c : Canvas) (s : Painting) (cells : List (ℕ × Range)) : Prop where
  holds : Holds s.toRanges cells
  marks : ∀ r ∈ cells.map Prod.snd, r.ok = 0 ∨ r.ok = 1
  painted : Painted c.backup c.changed (· != 0) (cells.map Prod.snd) s.buf
  cksum : c.target.cksum s.buf = c.execCksum

section Painting
variable {c : Canvas} {s : Ranges} {cells as bs : List (ℕ × Range)} {rng : ℕ} {r : Range}

theorem addRange_ends (hs : Holds s cells) (stale : ℕ → Option ℕ) (a b : ℕ) :
    Ends (addRange stale s a b) fun t => Holds t ((s.top, ⟨a, b, 0⟩) :: cells) := by
  obtain ⟨heap, heq, hlinked, hnone⟩ :=
    hs.linked.pushFront (hs.fresh s.top le_rfl) ⟨a, b, 0⟩ (stale s.top)
  apply ends_deref heq
  apply ends_pure
  constructor
  · exact hlinked
  · intro q hq
    have hlt : s.top < q := hq
    exact hnone q (by omega) (hs.fresh q hlt.le)

/-- The biggest range is one of those that are not done. -/
theorem popBiggestFrom_ends {heap : Heap Range} {back : Option ℕ → Prop} {head rmax : Option ℕ}
    {fuel maxSize : ℕ} (hs : Segment heap back head cells none) (hfuel : cells.length ≤ fuel) :
    Ends (popBiggestFrom heap fuel head rmax maxSize) fun res =>
      res = rmax ∨ ∃ p r, (p, r) ∈ cells ∧ r.ok = 0 ∧ res = some p := by
  induction cells generalizing back head rmax fuel maxSize with
  | nil =>
    obtain rfl : head = none := hs
    unfold popBiggestFrom
    exact .inl rfl
  | cons cell cells ih =>
    obtain ⟨rfl, node, hnode, hval, -, hrest⟩ := hs
    cases fuel with
    | zero => simp at hfuel
    | succ fuel =>
      have hfuel' : cells.length ≤ fuel := by simpa using hfuel
      unfold popBiggestFrom
      apply ends_deref hnode
      split
      · rename_i hok
        apply (ih hrest hfuel').mono
        rintro res (rfl | ⟨p, r, hmem, hzero, rfl⟩)
        · exact .inr ⟨cell.1, cell.2, List.mem_cons_self, hval ▸ hok.1, rfl⟩
        · exact .inr ⟨p, r, List.mem_cons_of_mem _ hmem, hzero, rfl⟩
      · apply (ih hrest hfuel').mono
        rintro res (rfl | ⟨p, r, hmem, hzero, rfl⟩)
        · exact .inl rfl
        · exact .inr ⟨p, r, List.mem_cons_of_mem _ hmem, hzero, rfl⟩

theorem Holds.length_le (hs : Holds s cells) : cells.length ≤ s.top :=
  hs.linked.length_le hs.fresh

theorem popBiggestRange_ends (hs : Holds s cells) :
    Ends (popBiggestRange s) fun res => ∀ p, res = some p → ∃ r, (p, r) ∈ cells ∧ r.ok = 0 := by
  apply (popBiggestFrom_ends hs.linked.segment hs.length_le).mono
  rintro res (rfl | ⟨p, r, hmem, hok, rfl⟩)
  · exact fun p h => absurd h (by simp)
  · intro q hq
    obtain rfl := Option.some.inj hq
    exact ⟨r, hmem, hok⟩

theorem remove_ends (hs : Holds s (as ++ (rng, r) :: bs)) :
    Ends (s.remove rng) fun t => Holds t (as ++ bs) := by
  obtain ⟨heap, head, heq, hlinked, hnone⟩ := hs.linked.unlink
  apply ends_deref heq
  exact ⟨hlinked, fun q hq => hnone q (hs.fresh q hq)⟩

/-- What `addHalves` puts in front of the list is laid out in the place of the range. -/
theorem addHalves_ends {len : ℕ} (hs : Holds s cells) (hlen : len < 2 ^ 32)
    {xs ys : List Range} (hlaid : Laid len (xs ++ r :: ys)) :
    Ends (c.addHalves s r) fun t => ∃ new : List (ℕ × Range), Holds t (new ++ cells) ∧
      Laid len (new.map Prod.snd ++ (xs ++ ys)) ∧ ∀ x ∈ new.map Prod.snd, x.ok = 0 := by
  have hmem : r ∈ xs ++ r :: ys := by simp
  obtain ⟨hsize, hle, hpos⟩ := hlaid.size_eq hlen hmem
  have hin := hlaid.inside r hmem
  rw [Canvas.addHalves]
  split
  · have hfirst : (r.start + (2 ^ 32 - 1) + r.size / 2) % 2 ^ 32 = r.start + r.size / 2 - 1 := by
      omega
    have hsecond : (r.start + r.size / 2) % 2 ^ 32 = r.start + r.size / 2 := by omega
    rw [hfirst, hsecond]
    apply ends_bind (addRange_ends hs c.stale r.start (r.start + r.size / 2 - 1))
    intro t ht
    apply (addRange_ends ht c.stale (r.start + r.size / 2) r.stop).mono
    intro u hu
    refine ⟨[_, _], hu, ?_, by simp⟩
    exact hlaid.split (by dsimp only; omega) (by dsimp only; omega)
  · apply ends_pure
    exact ⟨[], hs, hlaid.remove, by simp⟩

/-- Without the range, and with its halves when it has more than one byte. -/
theorem splitRange_ends {len : ℕ} (hs : Holds s (as ++ (rng, r) :: bs)) (hlen : len < 2 ^ 32)
    (hlaid : Laid len (as.map Prod.snd ++ r :: bs.map Prod.snd)) :
    Ends (c.splitRange s rng r) fun t => ∃ new : List (ℕ × Range), Holds t (new ++ (as ++ bs)) ∧
      Laid len (new.map Prod.snd ++ (as.map Prod.snd ++ bs.map Prod.snd)) ∧
        ∀ x ∈ new.map Prod.snd, x.ok = 0 := by
  rw [Canvas.splitRange]
  apply ends_bind (addHalves_ends hs hlen hlaid)
  rintro t ⟨new, ht, hnew, hzero⟩
  rw [← List.append_assoc] at ht
  apply (remove_ends ht).mono
  intro u hu
  rw [List.append_assoc] at hu
  exact ⟨new, hu, hnew, hzero⟩

/-- A range is marked, or its halves take its place. -/
theorem paintRange_ends {s : Painting} (hs : PaintInv c s (as ++ (rng, r) :: bs)) (hr : r.ok = 0)
    (hlen : c.backup.length < 2 ^ 32) (hchanged : c.changed.length = c.backup.length) :
    Ends (c.paintRange s rng) fun t =>
      (∃ cells, PaintInv c t cells) ∧ t.stageCur = incU32 s.stageCur := by
  obtain ⟨hholds, hmarks, hpainted, hcksum⟩ := hs
  simp only [List.map_append, List.map_cons] at hmarks hpainted
  obtain ⟨-, node, hnode, rfl, -⟩ := segment_middle.mp hholds.linked.segment
  have hzero : (node.val.ok != 0) = false := by simp [hr]
  rw [Canvas.paintRange]
  apply ends_deref hnode
  apply ends_bind (Q := fun cksum => cksum = c.target.cksum _)
  · rw [getExecChecksum]
    split
    · exact .inl rfl
    · exact rfl
  · rintro cksum rfl
    dsimp only
    split
    · apply ends_bind (splitRange_ends hholds hlen hpainted.laid)
      rintro t ⟨new, ht, hlaid, hnew⟩
      apply ends_pure
      refine ⟨⟨new ++ (as ++ bs), ht, ?_, ?_, ?_⟩, rfl⟩
      · intro x hx
        simp only [List.map_append, List.mem_append] at hx
        rcases hx with hx | hx
        · exact .inl (hnew x hx)
        · apply hmarks
          simp only [List.mem_append, List.mem_cons]
          tauto
      · dsimp only
        rw [hpainted.restore hlen hchanged hzero, List.map_append, List.map_append]
        apply hpainted.replace hzero hlaid
        intro x hx
        simp [hnew x hx]
      · dsimp only
        rw [hpainted.restore hlen hchanged hzero]
        exact hcksum
    · rename_i hsame
      obtain ⟨heap, heq, hlinked, hnone⟩ := hholds.linked.setVal { node.val with ok := 1 }
      have hset : modify s.heap (some rng)
          (fun node => { node with val := { node.val with ok := 1 } }) = some heap := by
        rw [modify_eq hnode] at heq ⊢
        exact heq
      apply ends_deref hset
      apply ends_pure
      refine ⟨⟨as ++ (rng, { node.val with ok := 1 }) :: bs, ⟨hlinked, fun q hq => ?_⟩, ?_, ?_, ?_⟩,
        rfl⟩
      · exact hnone q (hholds.fresh q hq)
      · simp only [List.map_append, List.map_cons]
        intro x hx
        rcases List.mem_append.mp hx with hx | hx
        · exact hmarks x (List.mem_append_left _ hx)
        · rcases List.mem_cons.mp hx with rfl | hx
          · exact .inr rfl
          · exact hmarks x (List.mem_append_right _ (List.mem_cons_of_mem _ hx))
      · simp only [List.map_append, List.map_cons]
        exact hpainted.paint hlen hchanged rfl
      · by_contra hne
        exact hsame (.inl hne)

/-- A pass of the first loop keeps what holds before it, and the last one changes nothing. -/
theorem paintPass_ends {s : Painting} (hs : PaintInv c s cells)
    (hlen : c.backup.length < 2 ^ 32) (hchanged : c.changed.length = c.backup.length) :
    Ends (c.paintPass s) fun o => ∀ t, o = some t →
      (∃ cells, PaintInv c t cells) ∧ c.stageMax - t.stageCur < c.stageMax - s.stageCur := by
  rw [Canvas.paintPass]
  apply ends_bind (popBiggestRange_ends hs.holds)
  intro o ho
  cases o with
  | none => exact ends_pure fun t h => absurd h (by simp)
  | some rng =>
    obtain ⟨r, hmem, hr⟩ := ho rng rfl
    obtain ⟨as, bs, rfl⟩ := List.append_of_mem hmem
    dsimp only
    split
    · rename_i hcur
      apply ends_bind (paintRange_ends hs hr hlen hchanged)
      rintro t ⟨hinv, hstage⟩
      apply ends_pure
      rintro u hu
      obtain rfl := Option.some.inj hu
      refine ⟨hinv, ?_⟩
      have hmax : c.stageMax < 2 ^ 32 := Nat.mod_lt _ (by norm_num)
      rw [hstage, incU32]
      omega
    · exact ends_pure fun t h => absurd h (by simp)

end Painting

/-! ## The second loop -/

/-- Some region holds the position. -/
def InRegions (ts : List Tainted) (p : ℕ) : Prop := ∃ t ∈ ts, t.pos ≤ p ∧ p < t.pos + t.len

/-- Regions of an input of `len` bytes that do not overlap, the last of them first. -/
structure Regions (len : ℕ) (ts : List Tainted) : Prop where
  inside : ∀ t ∈ ts, 0 < t.len ∧ t.pos + t.len ≤ len
  descending : ts.Pairwise fun a b => b.pos + b.len ≤ a.pos

/-- The regions with a range at or behind the end of the first of them. -/
def joinRange (taint : List Tainted) (r : Range) : List Tainted :=
  if continuesTaint taint r then
    taint.modifyHead fun t => { t with len := (t.len + r.size) % 2 ^ 32 }
  else ⟨r.start, r.size⟩ :: taint

/-- The regions are the merged ranges, and the other marked ranges are behind them. -/
structure Merged (len : ℕ) (xs : List Range) (taint : List Tainted) : Prop where
  regions : Regions len taint
  apart : taint.Pairwise fun a b => b.pos + b.len ≠ a.pos
  covers : ∀ p, InRegions taint p ↔ Marked (· == 2) xs p
  behind : ∀ t ∈ taint, ∀ r ∈ xs, r.ok = 1 → t.pos + t.len ≤ r.start

/-- The first of the ranges that are not merged is joined to the regions. -/
theorem Merged.joinRange {len : ℕ} {xs ys : List Range} {r : Range} {taint : List Tainted}
    (h : Merged len (xs ++ r :: ys) taint) (hlaid : Laid len (xs ++ r :: ys))
    (hlen : len < 2 ^ 32) (hr : r.ok = 1) (hfirst : ∀ x ∈ xs ++ ys, x.ok = 1 → r.start ≤ x.start) :
    Merged len (xs ++ { r with ok := 2 } :: ys) (joinRange taint r) := by
  have hmem : r ∈ xs ++ r :: ys := by simp
  obtain ⟨hsize, hle, hpos⟩ := hlaid.size_eq hlen hmem
  have hbehind : ∀ x ∈ xs ++ { r with ok := 2 } :: ys, x.ok = 1 → r.start + r.size ≤ x.start := by
    intro x hx hok
    rw [List.mem_append, List.mem_cons] at hx
    have hother : x ∈ xs ++ ys := by
      rcases hx with hx | rfl | hx
      · exact List.mem_append_left _ hx
      · exact absurd hok (by simp)
      · exact List.mem_append_right _ hx
    have hdisjoint := (List.pairwise_cons.mp (laid_middle.mp hlaid).disjoint).1 x hother
    have hinside := (laid_middle.mp hlaid).inside x (List.mem_cons_of_mem _ hother)
    have hge := hfirst x hother hok
    unfold Range.Disjoint at hdisjoint
    omega
  have hmarked : ∀ p, Marked (· == 2) (xs ++ { r with ok := 2 } :: ys) p ↔
      r.start ≤ p ∧ p < r.start + r.size ∨ InRegions taint p := by
    intro p
    rw [h.covers, marked_middle, marked_middle]
    have hcovers : Range.Covers { r with ok := 2 } p ↔ r.start ≤ p ∧ p < r.start + r.size := by
      unfold Range.Covers
      dsimp only
      omega
    simp [hr, hcovers]
  have hends := fun t ht => h.behind t ht r hmem hr
  unfold Colorization.joinRange
  split
  · rename_i hcontinues
    cases taint with
    | nil => exact absurd hcontinues (by simp [continuesTaint])
    | cons t ts =>
      obtain ⟨⟨hinside, hdescending⟩, hapart, hcovers, -⟩ := h
      rw [List.pairwise_cons] at hdescending hapart
      have ht := hinside t List.mem_cons_self
      have hend : t.pos + t.len = r.start := by
        have heq : (t.pos + t.len) % 2 ^ 32 = r.start := by simpa [continuesTaint] using hcontinues
        omega
      have hnew : (t.len + r.size) % 2 ^ 32 = t.len + r.size := by omega
      rw [List.modifyHead_cons, hnew]
      constructor
      · constructor
        · intro a ha
          rcases List.mem_cons.mp ha with rfl | ha
          · dsimp only
            omega
          · exact hinside a (List.mem_cons_of_mem _ ha)
        · exact List.pairwise_cons.mpr hdescending
      · exact List.pairwise_cons.mpr hapart
      · intro p
        rw [hmarked]
        simp only [InRegions, List.mem_cons, exists_eq_or_imp]
        constructor
        · rintro (hp | hp)
          · omega
          · exact .inr (.inr hp)
        · rintro (hp | hp | hp)
          · omega
          · omega
          · exact .inr hp
      · intro a ha x hx hok
        have hx' := hbehind x hx hok
        rcases List.mem_cons.mp ha with rfl | ha
        · dsimp only
          omega
        · have ha' := hends a (List.mem_cons_of_mem _ ha)
          omega
  · rename_i hcontinues
    constructor
    · constructor
      · intro a ha
        rcases List.mem_cons.mp ha with rfl | ha
        · exact ⟨hpos, hle⟩
        · exact h.regions.inside a ha
      · exact List.pairwise_cons.mpr ⟨hends, h.regions.descending⟩
    · refine List.pairwise_cons.mpr ⟨fun b hb heq => ?_, h.apart⟩
      dsimp only at heq
      cases taint with
      | nil => exact absurd hb (by simp)
      | cons t ts =>
        have hne : (t.pos + t.len) % 2 ^ 32 ≠ r.start := by simpa [continuesTaint] using hcontinues
        have ht := h.regions.inside t List.mem_cons_self
        have htr := hends t List.mem_cons_self
        rcases List.mem_cons.mp hb with rfl | hb
        · omega
        · have hbt := (List.pairwise_cons.mp h.regions.descending).1 b hb
          omega
    · intro p
      rw [hmarked]
      simp only [InRegions, List.mem_cons, exists_eq_or_imp]
    · intro a ha x hx hok
      have hx' := hbehind x hx hok
      rcases List.mem_cons.mp ha with rfl | ha
      · exact hx'
      · have ha' := hends a ha
        omega

/-- What holds before each pass of the second loop. -/
structure MergeInv (c : Canvas) (s : Painting) (m : Merging) (cells : List (ℕ × Range)) :
    Prop where
  holds : Holds { s.toRanges with heap := m.heap } cells
  marks : ∀ r ∈ cells.map Prod.snd, r.ok = 0 ∨ r.ok = 1 ∨ r.ok = 2
  painted : Painted c.backup c.changed (· != 0) (cells.map Prod.snd) s.buf
  merged : Merged c.backup.length (cells.map Prod.snd) m.taint

section Merging
variable {c : Canvas} {cells : List (ℕ × Range)} {heap : Heap Range} {taint : List Tainted}

theorem MergeInv.take {s : Painting} {m t : Merging} {as bs : List (ℕ × Range)} {rng : ℕ}
    {r : Range} (hm : MergeInv c s m (as ++ (rng, r) :: bs)) (hlen : c.backup.length < 2 ^ 32)
    (hr : r.ok = 1)
    (hleast : ∀ x ∈ (as ++ (rng, r) :: bs).map Prod.snd, x.ok = 1 → r.start ≤ x.start)
    (htaint : t.taint = joinRange m.taint r)
    (ht : Holds { s.toRanges with heap := t.heap } (as ++ (rng, { r with ok := 2 }) :: bs)) :
    MergeInv c s t (as ++ (rng, { r with ok := 2 }) :: bs) := by
  obtain ⟨-, hmarks, hpainted, hmerged⟩ := hm
  constructor
  · exact ht
  all_goals simp only [List.map_append, List.map_cons] at hmarks hpainted hmerged hleast ⊢
  · intro x hx
    rcases List.mem_append.mp hx with hx | hx
    · exact hmarks x (List.mem_append_left _ hx)
    · rcases List.mem_cons.mp hx with rfl | hx
      · exact .inr (.inr rfl)
      · exact hmarks x (List.mem_append_right _ (List.mem_cons_of_mem _ hx))
  · apply hpainted.remark
    simp [hr]
  · rw [htaint]
    apply hmerged.joinRange hpainted.laid hlen hr
    intro x hx
    apply hleast
    simp only [List.mem_append, List.mem_cons] at hx ⊢
    tauto

end Merging

/-! ## The function -/

/-- One pass of a loop after another. -/
def Passes {σ : Type} (pass : σ → Except Fault (Option σ)) : σ → σ → Prop :=
  Relation.ReflTransGen fun s t => pass s = .ok (some t)

theorem Passes.invariant {σ : Type} {pass : σ → Except Fault (Option σ)} {I : σ → Prop}
    (hpass : ∀ s, I s → Ends (pass s) fun o => ∀ t, o = some t → I t) {s t : σ} (hs : I s)
    (h : Passes pass s t) : I t := by
  induction h with
  | refl => exact hs
  | tail _ hstep ih =>
    have hends := hpass _ ih
    rw [hstep] at hends
    exact hends _ rfl

/-- The list of ranges and the buffer before a pass of one of the two loops. -/
inductive Reached (c : Canvas) (start : Painting) : Heap Range → Option ℕ → Buffer → Prop
  | painting {s : Painting} (hs : Passes c.paintPass start s) : Reached c start s.heap s.head s.buf
  | merging {s : Painting} {m : Merging} (hs : Passes c.paintPass start s)
      (hlast : c.paintPass s = .ok none)
      (hm : Passes (mergePass s.top s.head) { heap := s.heap } m) :
      Reached c start m.heap s.head s.buf

/-- What the function has done to an input when it reports regions. -/
structure Colorized (target : Target) (orig buf : Buffer) (ts : List Tainted) : Prop where
  regions : Regions orig.length ts
  apart : ts.Pairwise fun a b => b.pos + b.len ≠ a.pos
  length : buf.length = orig.length
  differs : ∀ p < orig.length, buf[p]? ≠ orig[p]? ↔ InRegions ts p
  cksum : target.cksum buf = target.cksum orig

/-- What `startPainting` sets up. -/
structure Started (target : Target) (buf : Buffer) (c : Canvas) (s : Painting) : Prop where
  target_eq : c.target = target
  backup_eq : c.backup = buf
  replaced : Replaced buf c.changed
  execCksum_eq : c.execCksum = target.cksum buf
  inv : ∃ cells, PaintInv c s cells

section Final
variable {target : Target} {buf : Buffer} {c : Canvas} {start s : Painting}

theorem Started.painting (h : Started target buf c start) (hlen : buf.length < 2 ^ 32)
    (hs : Passes c.paintPass start s) : ∃ cells, PaintInv c s cells := by
  apply Passes.invariant (I := fun s => ∃ cells, PaintInv c s cells) _ h.inv hs
  rintro s ⟨cells, hinv⟩
  apply (paintPass_ends hinv (by rwa [h.backup_eq]) (by rw [h.backup_eq, h.replaced.length])).mono
  intro o ho t ht
  exact (ho t ht).1

/-- Nothing is merged yet. -/
theorem PaintInv.merging {cells : List (ℕ × Range)} (h : PaintInv c s cells) :
    MergeInv c s { heap := s.heap } cells := by
  refine ⟨h.holds, fun r hr => (h.marks r hr).imp_right .inl, h.painted, ⟨⟨?_, ?_⟩, ?_, ?_, ?_⟩⟩
  · simp
  · simp
  · simp
  · intro p
    constructor
    · simp [InRegions]
    · rintro ⟨r, hr, hok, -⟩
      have hmarks := h.marks r hr
      simp only [beq_iff_eq] at hok
      omega
  · simp

/-- When no range is left to merge, the regions tell where the buffer differs. -/
theorem Started.colorized (h : Started target buf c start) {cells : List (ℕ × Range)}
    {m : Merging} (hs : ∃ cells, PaintInv c s cells) (hm : MergeInv c s m cells)
    (hdone : ∀ x ∈ cells.map Prod.snd, x.ok ≠ 1) : Colorized target buf s.buf m.taint := by
  obtain ⟨cells₀, hpaint⟩ := hs
  obtain ⟨-, hmarks, hpainted, hmerged⟩ := hm
  rw [h.backup_eq] at hpainted hmerged
  have hsame : ∀ p, InRegions m.taint p ↔ Marked (· != 0) (cells.map Prod.snd) p := by
    intro p
    rw [hmerged.covers]
    apply exists_congr
    intro r
    apply and_congr_right
    intro hr
    have h2 : (r.ok == 2) = (r.ok != 0) := by
      have hcases := hmarks r hr
      have hne := hdone r hr
      rw [Bool.eq_iff_iff, beq_iff_eq, bne_iff_ne]
      omega
    simp only [h2]
  constructor
  · exact hmerged.regions
  · exact hmerged.apart
  · exact hpainted.length
  · intro p hp
    rw [hpainted.bytes p, hsame p]
    split
    · rename_i hmark
      simp [hmark, h.replaced.ne p hp]
    · rename_i hmark
      simp [hmark]
  · rw [← h.execCksum_eq, ← h.target_eq]
    exact hpaint.cksum

end Final

end AflPlusPlus.Colorization
