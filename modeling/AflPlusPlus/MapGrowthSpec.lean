import AflPlusPlus.MapGrowth

/-!
# What is left behind the old entries

Only the arrays of bytes are cleared up to their new size. Of the pointers in `top_rated` an eighth
is cleared, and beside a binary with sanitizers nothing is.
-/

namespace AflPlusPlus.MapGrowth
open ByteWords CheckedBlocks CheckedPrograms CkAlloc

variable {fresh : Map → Mem} {s : State} {oldMapSize newMapSize : ℕ}

/-! ## One array after the other -/

section OnEach
variable {f : Map → Block Byte → Except Stop (Block Byte)} {as : List Map}

theorem onEach_ok (hnodup : as.Nodup) (h : ∀ a ∈ as, ∃ b, f a (s.maps a) = .ok b) :
    ∃ t, onEach f as s = .ok ((), t) ∧ t.mapSize = s.mapSize ∧
      (∀ a ∈ as, f a (s.maps a) = .ok (t.maps a)) ∧ ∀ a, a ∉ as → t.maps a = s.maps a := by
  induction as generalizing s with
  | nil => exact ⟨s, rfl, rfl, fun a ha => absurd ha List.not_mem_nil, fun _ _ => rfl⟩
  | cons a as ih =>
    obtain ⟨hnot, hnodup⟩ := List.nodup_cons.mp hnodup
    obtain ⟨b, hb⟩ := h a List.mem_cons_self
    have hother : ∀ c, c ≠ a → Function.update s.maps a b c = s.maps c := fun c hc =>
      Function.update_of_ne hc b s.maps
    have hlater : ∀ c ∈ as, c ≠ a := fun c hc => ne_of_mem_of_not_mem hc hnot
    have hget : (get : Init State) s = .ok (s, s) := rfl
    obtain ⟨t, ht, hsize, hdone, hrest⟩ := ih (s := { s with maps := Function.update s.maps a b })
      hnodup (by
        intro c hc
        dsimp only
        rw [hother c (hlater c hc)]
        exact h c (List.mem_cons_of_mem a hc))
    dsimp only at hsize hdone hrest
    refine ⟨t, ?_, hsize, ?_, ?_⟩
    · rw [onEach, bind_ok hget, hb]
      exact ht
    · refine List.forall_mem_cons.mpr ⟨?_, ?_⟩
      · rw [hrest a hnot, Function.update_self, hb]
      · intro c hc
        rw [← hdone c hc, hother c (hlater c hc)]
    · intro c hc
      rw [List.mem_cons, not_or] at hc
      rw [hrest c hc.2, hother c hc.1]

/-- The first array that fails ends the steps. -/
theorem onEach_error {e : Stop} (hnodup : as.Nodup)
    (hkind : ∀ a b e', f a b = .error e' → e' = e) (h : ∃ a ∈ as, f a (s.maps a) = .error e) :
    onEach f as s = .error e := by
  have hget : ∀ s : State, (get : Init State) s = .ok (s, s) := fun _ => rfl
  induction as generalizing s with
  | nil =>
    obtain ⟨a, ha, -⟩ := h
    exact absurd ha List.not_mem_nil
  | cons a as ih =>
    obtain ⟨hnot, hnodup⟩ := List.nodup_cons.mp hnodup
    rw [onEach, bind_ok (hget s)]
    cases hb : f a (s.maps a) with
    | error e' =>
      rw [hkind a _ e' hb]
      rfl
    | ok b =>
      obtain ⟨c, hc, herror⟩ := h
      have hne : c ≠ a := by
        rintro rfl
        rw [hb] at herror
        exact absurd herror nofun
      have hlater : c ∈ as := (List.mem_cons.mp hc).resolve_left hne
      apply ih (s := { s with maps := Function.update s.maps a b }) hnodup
      refine ⟨c, hlater, ?_⟩
      dsimp only
      rw [Function.update_of_ne hne, herror]

end OnEach

/-! ## Reallocating -/

/-- A size that `ck_realloc` does not grant. -/
def Refused (newMapSize : ℕ) : Prop :=
  ∃ a, maxAlloc < newMapSize * elemSize a % 2 ^ 32

/-- Each array has the size that is computed in 32 bits, with the old bytes in front. -/
structure Reallocated (fresh : Map → Mem) (newMapSize : ℕ) (s t : State) : Prop where
  mapSize_eq : t.mapSize = s.mapSize
  size_eq : ∀ a, (t.maps a).size = newMapSize * elemSize a % 2 ^ 32
  cell_eq : ∀ a k, k < (t.maps a).size →
    (t.maps a).cell k = if k < (s.maps a).size then (s.maps a).cell k else fresh a k

theorem mem_allMaps (a : Map) : a ∈ allMaps := by
  cases a <;> decide

theorem ckRealloc_ok (x : Mem) (orig : Block Byte) {size : ℕ}
    (h : ¬ maxAlloc < size % 2 ^ 32) : ∃ b, ckRealloc x orig size = .ok b ∧
      b.size = size % 2 ^ 32 ∧
        ∀ k < b.size, b.cell k = if k < orig.size then orig.cell k else x k := by
  rw [ckRealloc]
  split
  · next hzero =>
    refine ⟨_, rfl, hzero.symm, ?_⟩
    intro k hk
    exact absurd hk (Nat.not_lt_zero k)
  · exact ⟨_, rfl, rfl, fun _ _ => rfl⟩

theorem ckRealloc_error {x : Mem} {orig : Block Byte} {size : ℕ}
    (h : maxAlloc < size % 2 ^ 32) : ckRealloc x orig size = .error .abort := by
  rw [ckRealloc]
  rw [if_neg (by omega), if_pos h]

theorem reallocMaps_ok (fresh : Map → Mem) (s : State) (h : ¬ Refused newMapSize) :
    ∃ t, reallocMaps fresh newMapSize s = .ok ((), t) ∧ Reallocated fresh newMapSize s t := by
  have hgranted : ∀ a, ¬ maxAlloc < newMapSize * elemSize a % 2 ^ 32 := fun a ha => h ⟨a, ha⟩
  obtain ⟨t, ht, hsize, hdone, -⟩ := onEach_ok (s := s)
    (f := fun a b => ckRealloc (fresh a) b (newMapSize * elemSize a)) (by decide : allMaps.Nodup) (by
      intro a _
      obtain ⟨b, hb, -⟩ := ckRealloc_ok (fresh a) (s.maps a) (hgranted a)
      exact ⟨b, hb⟩)
  have hblock : ∀ a, (t.maps a).size = newMapSize * elemSize a % 2 ^ 32 ∧
      ∀ k < (t.maps a).size, (t.maps a).cell k =
        if k < (s.maps a).size then (s.maps a).cell k else fresh a k := by
    intro a
    obtain ⟨b, hb, hspec⟩ := ckRealloc_ok (fresh a) (s.maps a) (hgranted a)
    rw [hdone a (mem_allMaps a)] at hb
    rwa [Except.ok.inj hb]
  exact ⟨t, ht, hsize, fun a => (hblock a).1, fun a => (hblock a).2⟩

theorem reallocMaps_refused (h : Refused newMapSize) :
    reallocMaps fresh newMapSize s = .error .abort := by
  obtain ⟨a, ha⟩ := h
  apply onEach_error (by decide)
  · intro c b e he
    by_cases hc : maxAlloc < newMapSize * elemSize c % 2 ^ 32
    · rw [ckRealloc_error hc] at he
      exact (Except.error.inj he).symm
    · obtain ⟨b', hb', -⟩ := ckRealloc_ok (fresh c) b hc
      rw [hb'] at he
      exact absurd he nofun
  · exact ⟨a, mem_allMaps a, ckRealloc_error ha⟩

/-! ## Clearing -/

/-- The bytes of an array from the offset on, as many as entries were added. -/
structure Cleared (oldMapSize newMapSize : ℕ) (s t : State) : Prop where
  mapSize_eq : t.mapSize = s.mapSize
  maps_eq : ∀ a, t.maps a = if a ∈ clearedMaps then
    (s.maps a).overwrite (oldMapSize * elemSize a) (newMapSize - oldMapSize) fun _ => 0
    else s.maps a

theorem clearMaps_ok (hlt : oldMapSize < newMapSize) (h : ∀ a ∈ clearedMaps,
    oldMapSize * elemSize a + (newMapSize - oldMapSize) ≤ (s.maps a).size) :
    ∃ t, clearMaps oldMapSize newMapSize s = .ok ((), t) ∧ Cleared oldMapSize newMapSize s t := by
  have hset : ∀ a ∈ clearedMaps,
      memset (s.maps a) (oldMapSize * elemSize a) (newMapSize - oldMapSize) =
        .ok ((s.maps a).overwrite (oldMapSize * elemSize a) (newMapSize - oldMapSize) fun _ => 0) :=
    fun a ha => if_pos (h a ha)
  obtain ⟨t, ht, hsize, hdone, hrest⟩ := onEach_ok (s := s)
    (f := fun a b => memset b (oldMapSize * elemSize a) (newMapSize - oldMapSize))
    (by decide : clearedMaps.Nodup) (fun a ha => ⟨_, hset a ha⟩)
  refine ⟨t, ?_, hsize, ?_⟩
  · rw [clearMaps, if_pos hlt]
    exact ht
  · intro a
    split
    · next ha =>
      have hblock := hdone a ha
      rw [hset a ha] at hblock
      exact (Except.ok.inj hblock).symm
    · next ha => exact hrest a ha

theorem clearMaps_error (hlt : oldMapSize < newMapSize) (h : ∃ a ∈ clearedMaps,
    (s.maps a).size < oldMapSize * elemSize a + (newMapSize - oldMapSize)) :
    clearMaps oldMapSize newMapSize s = .error .outOfBounds := by
  obtain ⟨a, ha, hsize⟩ := h
  rw [clearMaps, if_pos hlt]
  apply onEach_error (by decide)
  · intro c b e he
    rw [memset] at he
    split at he
    · exact absurd he nofun
    · exact (Except.error.inj he).symm
  · exact ⟨a, ha, if_neg (by omega)⟩

/-! ## The entries behind the old size -/

/-- The array of an entry has its bytes, and they are zero: a number `0` or a pointer `NULL`. -/
def ZeroEntry (s : State) (a : Map) (i : ℕ) : Prop :=
  ∀ j < elemSize a, (s.maps a).load (i * elemSize a + j) = some 0

/-- The new entries of the arrays with state for each index. -/
def Clean (oldMapSize newMapSize : ℕ) (s : State) : Prop :=
  ∀ a ∈ clearedMaps, ∀ i, oldMapSize ≤ i → i < newMapSize → ZeroEntry s a i

theorem elemSize_pos (a : Map) : 0 < elemSize a := by
  cases a <;> decide

/-- The bytes of the new entries. -/
theorem clean_iff : Clean oldMapSize newMapSize s ↔ ∀ a ∈ clearedMaps, ∀ k,
    oldMapSize * elemSize a ≤ k → k < newMapSize * elemSize a → (s.maps a).load k = some 0 := by
  constructor
  · intro h a ha k hmin hmax
    have hpos := elemSize_pos a
    have hbyte := h a ha (k / elemSize a) ((Nat.le_div_iff_mul_le hpos).mpr hmin)
      ((Nat.div_lt_iff_lt_mul hpos).mpr hmax) (k % elemSize a) (Nat.mod_lt k hpos)
    rwa [Nat.mul_comm, Nat.div_add_mod] at hbyte
  · intro h a ha i hmin hmax j hj
    apply h a ha
    · exact (Nat.mul_le_mul_right _ hmin).trans (Nat.le_add_right _ _)
    · calc i * elemSize a + j < i * elemSize a + elemSize a := Nat.add_lt_add_left hj _
        _ = (i + 1) * elemSize a := by rw [Nat.succ_mul]
        _ ≤ newMapSize * elemSize a := Nat.mul_le_mul_right _ hmax

/-! ## The blocks -/

/-- Each array has the size of its entries for the indices of the map, in 32 bits. -/
def Sized (mapSize : ℕ) (s : State) : Prop :=
  ∀ a, (s.maps a).size = mapSize * elemSize a % 2 ^ 32

theorem elemSize_le (a : Map) : elemSize a ≤ 8 := by
  cases a <;> decide

section Entries
variable {t u : State} {a : Map} {k : ℕ}

theorem size_of_fits (hsized : Sized newMapSize t) (hfits : newMapSize * 8 ≤ maxAlloc) (a : Map) :
    (t.maps a).size = newMapSize * elemSize a := by
  have hword : maxAlloc < 2 ^ 32 := by decide
  have hle : newMapSize * elemSize a ≤ newMapSize * 8 := Nat.mul_le_mul_left _ (elemSize_le a)
  rw [hsized, Nat.mod_eq_of_lt (by omega)]

/-- With a size that does not wrap, the new bytes are the ones that `realloc` found. -/
theorem load_reallocated (hsized : Sized oldMapSize s) (h : Reallocated fresh newMapSize s t)
    (hfits : newMapSize * 8 ≤ maxAlloc) (hmin : oldMapSize * elemSize a ≤ k)
    (hmax : k < newMapSize * elemSize a) : (t.maps a).load k = some (fresh a k) := by
  have hk : k < (t.maps a).size := by
    rwa [size_of_fits h.size_eq hfits]
  have hold : (s.maps a).size ≤ k := by
    rw [hsized]
    exact (Nat.mod_le _ _).trans hmin
  rw [Block.load_eq hk, h.cell_eq a k hk, if_neg (Nat.not_lt.mpr hold)]

theorem load_cleared (h : Cleared oldMapSize newMapSize t u) (ha : a ∈ clearedMaps)
    (hmin : oldMapSize * elemSize a ≤ k) (hk : k < (t.maps a).size) : (u.maps a).load k =
      if k < oldMapSize * elemSize a + (newMapSize - oldMapSize) then some 0
      else (t.maps a).load k := by
  have hblock := h.maps_eq a
  rw [if_pos ha] at hblock
  rw [hblock, Block.load_eq hk, Block.load_eq (by rwa [Block.size_overwrite]), Block.overwrite]
  dsimp only
  split_ifs with hin hlt hlt
  · rfl
  · exact absurd hin.2 hlt
  · exact absurd ⟨hmin, hlt⟩ hin
  · rfl

/-- An array that is too short has no entry for the last index. -/
theorem not_clean_of_short (hlt : oldMapSize < newMapSize)
    (h : (u.maps .topRated).size < newMapSize * 8) : ¬ Clean oldMapSize newMapSize u := by
  intro hclean
  have hlast := clean_iff.mp hclean .topRated (by decide) (newMapSize * 8 - 1)
    (by dsimp only [elemSize]; omega) (by dsimp only [elemSize]; omega)
  rw [Block.load, if_neg (by omega)] at hlast
  exact absurd hlast nofun

end Entries

/-- A block without the assignment of the size: the new entries are clean where it ends. -/
theorem wp_grow (fresh : Map → Mem) (clears : Bool) (hsized : Sized oldMapSize s) (hlt : oldMapSize < newMapSize) :
    wp (· = .abort) (reallocMaps fresh newMapSize) (fun _ t =>
      wp (· = .abort) (if clears then clearMaps oldMapSize newMapSize else pure ())
        (fun _ u => Clean oldMapSize newMapSize u) t) s ↔
    Refused newMapSize ∨ newMapSize * 8 ≤ maxAlloc ∧ ∀ a ∈ clearedMaps, ∀ k,
      oldMapSize * elemSize a + (if clears then newMapSize - oldMapSize else 0) ≤ k →
        k < newMapSize * elemSize a → fresh a k = 0 := by
  by_cases hrefused : Refused newMapSize
  · rw [wp_error_iff (reallocMaps_refused hrefused)]
    exact iff_of_true rfl (Or.inl hrefused)
  obtain ⟨t, ht, hreallocated⟩ := reallocMaps_ok fresh s hrefused
  rw [wp_ok_iff ht, or_iff_right hrefused]
  by_cases hfits : newMapSize * 8 ≤ maxAlloc
  · rw [and_iff_right hfits]
    have hsize := size_of_fits hreallocated.size_eq hfits
    cases clears with
    | false =>
      simp only [Bool.false_eq_true, if_false, wp_pure, Nat.add_zero]
      rw [clean_iff]
      refine forall₅_congr fun a ha k hmin hmax => ?_
      rw [load_reallocated hsized hreallocated hfits hmin hmax, Option.some_inj]
    | true =>
      simp only [if_true]
      have hroom : ∀ a, oldMapSize * elemSize a + (newMapSize - oldMapSize) ≤
          newMapSize * elemSize a := by
        intro a
        have hpos := elemSize_pos a
        obtain ⟨n, rfl⟩ := Nat.exists_eq_add_of_lt hlt
        have hadded : n + 1 ≤ (n + 1) * elemSize a := Nat.le_mul_of_pos_right _ hpos
        rw [Nat.add_assoc, Nat.add_mul, Nat.add_sub_cancel_left]
        omega
      obtain ⟨u, hu, hcleared⟩ := clearMaps_ok (s := t) hlt
        (fun a _ => (hroom a).trans_eq (hsize a).symm)
      rw [wp_ok_iff hu, clean_iff]
      constructor
      · intro h a ha k hk hmax
        have hmin : oldMapSize * elemSize a ≤ k := (Nat.le_add_right _ _).trans hk
        have hzero := h a ha k hmin hmax
        rw [load_cleared hcleared ha hmin (by rwa [hsize a]), if_neg (Nat.not_lt.mpr hk),
          load_reallocated hsized hreallocated hfits hmin hmax] at hzero
        exact Option.some.inj hzero
      · intro h a ha k hmin hmax
        rw [load_cleared hcleared ha hmin (by rwa [hsize a])]
        split
        · rfl
        · next hk =>
          rw [load_reallocated hsized hreallocated hfits hmin hmax,
            h a ha k (Nat.not_lt.mp hk) hmax]
  · -- the size of `top_rated` wraps
    have hshort : (t.maps .topRated).size < newMapSize * 8 := by
      have hgranted : ¬ maxAlloc < newMapSize * 8 % 2 ^ 32 := fun h => hrefused ⟨.topRated, h⟩
      rw [hreallocated.size_eq, elemSize]
      omega
    refine iff_of_false ?_ fun h => hfits h.1
    cases clears with
    | false =>
      simp only [Bool.false_eq_true, if_false, wp_pure]
      exact not_clean_of_short hlt hshort
    | true =>
      simp only [if_true]
      by_cases hroom : ∀ a ∈ clearedMaps,
          oldMapSize * elemSize a + (newMapSize - oldMapSize) ≤ (t.maps a).size
      · obtain ⟨u, hu, hcleared⟩ := clearMaps_ok hlt hroom
        rw [wp_ok_iff hu]
        apply not_clean_of_short hlt
        rw [hcleared.maps_eq, if_pos (by decide), Block.size_overwrite]
        exact hshort
      · push Not at hroom
        rw [wp_error_iff (clearMaps_error hlt hroom)]
        exact nofun

/-- All blocks but the one for the sanitizers clear the arrays. -/
def Reinit.clears : Reinit → Bool
  | .sanBinary _ => false
  | _ => true

/-- The bytes behind the ones that are cleared, if any are, come from `realloc`. -/
def FoundZero (fresh : Map → Mem) (oldMapSize : ℕ) (b : Reinit) : Prop :=
  ∀ a ∈ clearedMaps, ∀ k,
    oldMapSize * elemSize a + (if b.clears then b.newMapSize - oldMapSize else 0) ≤ k →
      k < b.newMapSize * elemSize a → fresh a k = 0

theorem wp_run (fresh : Map → Mem) {b : Reinit} (hsized : Sized s.mapSize s) (hlt : s.mapSize < b.newMapSize) :
    wp (· = .abort) (b.run fresh) (fun _ t => Clean s.mapSize b.newMapSize t) s ↔
      Refused b.newMapSize ∨ b.newMapSize * 8 ≤ maxAlloc ∧ FoundZero fresh s.mapSize b := by
  have htarget : ∀ newMapSize, s.mapSize < newMapSize →
      (wp (· = .abort) (targetMap fresh newMapSize) (fun _ t => Clean s.mapSize newMapSize t) s ↔
        wp (· = .abort) (reallocMaps fresh newMapSize) (fun _ t => wp (· = .abort)
          (clearMaps s.mapSize newMapSize) (fun _ u => Clean s.mapSize newMapSize u) t) s) := by
    intro newMapSize hlt
    rw [targetMap, wp_bind, wp_get, if_pos hlt, wp_bind]
    simp only [wp_bind, setMapSize, wp_modify]
    rfl
  cases b with
  | fixedSizeModes =>
    have hgrow := wp_grow (s := { s with mapSize := fixedMapSize }) fresh true hsized hlt
    rw [Reinit.run, fixedSizeModes, wp_bind, wp_get, wp_bind, setMapSize, wp_modify, wp_bind]
    exact hgrow
  | targetMap newMapSize => exact (htarget _ hlt).trans (wp_grow fresh true hsized hlt)
  | cmplogBinary newMapSize => exact (htarget _ hlt).trans (wp_grow fresh true hsized hlt)
  | sanBinary newMapSize =>
    have hgrow := wp_grow fresh false hsized hlt
    rw [Reinit.run, sanBinary, wp_bind, wp_get, if_pos (by exact hlt), wp_bind]
    exact hgrow

/-! ## Every run -/

theorem ckAlloc_ok {size : ℕ} (h : ¬ maxAlloc < size % 2 ^ 32) :
    orAbort (ckAlloc size) = .ok ⟨size % 2 ^ 32, fun _ => 0⟩ := by
  rw [ckAlloc, if_neg h]
  rfl

theorem ckAlloc_error {size : ℕ} (h : maxAlloc < size % 2 ^ 32) :
    orAbort (ckAlloc size) = .error .abort := by
  rw [ckAlloc, if_pos h]
  rfl

/-- The state after `afl_state_init`. -/
def zeroed (mapSize : ℕ) : State := ⟨mapSize, fun a => ⟨mapSize * elemSize a % 2 ^ 32, fun _ => 0⟩⟩

theorem stateInit_ok {mapSize : ℕ} (h : ¬ Refused mapSize) :
    stateInit mapSize s = .ok ((), zeroed mapSize) := by
  have hgranted : ∀ a, orAbort (ckAlloc (mapSize * elemSize a)) =
      .ok ⟨mapSize * elemSize a % 2 ^ 32, fun _ => 0⟩ := fun a => ckAlloc_ok fun ha => h ⟨a, ha⟩
  obtain ⟨t, ht, -, hdone, -⟩ := onEach_ok (s := s)
    (f := fun a _ => orAbort (ckAlloc (mapSize * elemSize a))) (by decide : allMaps.Nodup)
    fun a _ => ⟨_, hgranted a⟩
  have hmaps : t.maps = (zeroed mapSize).maps := by
    funext a
    have hblock := hdone a (mem_allMaps a)
    rw [hgranted a] at hblock
    exact (Except.ok.inj hblock).symm
  rw [stateInit, bind_ok ht]
  change Except.ok ((), { t with mapSize := mapSize }) = _
  rw [hmaps]
  rfl

theorem stateInit_refused {mapSize : ℕ} (h : Refused mapSize) :
    stateInit mapSize s = .error .abort := by
  obtain ⟨a, ha⟩ := h
  apply bind_error
  apply onEach_error (by decide)
  · intro c b e he
    by_cases hc : maxAlloc < mapSize * elemSize c % 2 ^ 32
    · rw [ckAlloc_error hc] at he
      exact (Except.error.inj he).symm
    · rw [ckAlloc_ok hc] at he
      exact absurd he nofun
  · exact ⟨a, mem_allMaps a, ckAlloc_error ha⟩

theorem reallocMaps_sized : wp (fun _ => True) (reallocMaps fresh newMapSize)
    (fun _ t => t.mapSize = s.mapSize ∧ Sized newMapSize t) s := by
  by_cases h : Refused newMapSize
  · rw [wp_error_iff (reallocMaps_refused h)]
    trivial
  · obtain ⟨t, ht, hreallocated⟩ := reallocMaps_ok fresh s h
    rw [wp_ok_iff ht]
    exact ⟨hreallocated.mapSize_eq, hreallocated.size_eq⟩

theorem clearMaps_sized {n : ℕ} (h : Sized n s) :
    wp (fun _ => True) (clearMaps oldMapSize newMapSize)
      (fun _ t => t.mapSize = s.mapSize ∧ Sized n t) s := by
  by_cases hlt : oldMapSize < newMapSize
  · by_cases hroom : ∀ a ∈ clearedMaps,
        oldMapSize * elemSize a + (newMapSize - oldMapSize) ≤ (s.maps a).size
    · obtain ⟨t, ht, hcleared⟩ := clearMaps_ok hlt hroom
      rw [wp_ok_iff ht]
      refine ⟨hcleared.mapSize_eq, fun a => ?_⟩
      rw [hcleared.maps_eq, ← h a]
      split
      · rw [Block.size_overwrite]
      · rfl
    · push Not at hroom
      rw [wp_error_iff (clearMaps_error hlt hroom)]
      trivial
  · rw [clearMaps, if_neg hlt]
    exact ⟨rfl, h⟩

/-- Both steps leave the arrays in the new size. -/
theorem grow_sized : wp (fun _ => True)
    (do reallocMaps fresh newMapSize; clearMaps oldMapSize newMapSize)
    (fun _ t => t.mapSize = s.mapSize ∧ Sized newMapSize t) s := by
  apply wp_cut reallocMaps_sized
  rintro _ t ⟨hsize, ht⟩
  apply wp_mono (clearMaps_sized ht)
  rintro _ u ⟨hkept, hu⟩
  exact ⟨hkept.trans hsize, hu⟩

theorem run_sized (b : Reinit) (h : Sized s.mapSize s) :
    wp (fun _ => True) (b.run fresh) (fun _ t => Sized t.mapSize t) s := by
  have htarget : ∀ newMapSize,
      wp (fun _ => True) (targetMap fresh newMapSize) (fun _ t => Sized t.mapSize t) s := by
    intro newMapSize
    rw [targetMap, wp_bind, wp_get]
    apply wp_ite
    · intro _
      apply wp_cut reallocMaps_sized
      rintro _ t ⟨-, ht⟩
      apply wp_cut (clearMaps_sized ht)
      rintro _ u ⟨-, hu⟩
      exact hu
    · intro _
      exact h
  have hfixed : ∀ newMapSize, wp (fun _ => True)
      (do reallocMaps fresh newMapSize; clearMaps s.mapSize newMapSize)
      (fun _ t => Sized t.mapSize t) { s with mapSize := newMapSize } := by
    intro newMapSize
    apply wp_mono grow_sized
    rintro _ t ⟨hsize, ht⟩
    rw [hsize]
    exact ht
  cases b with
  | fixedSizeModes =>
    rw [Reinit.run, fixedSizeModes, wp_bind, wp_get, wp_bind, setMapSize, wp_modify]
    generalize fixedMapSize = newMapSize
    exact hfixed newMapSize
  | targetMap newMapSize => exact htarget _
  | cmplogBinary newMapSize => exact htarget _
  | sanBinary newMapSize =>
    rw [Reinit.run, sanBinary, wp_bind, wp_get]
    apply wp_ite
    · intro _
      apply wp_cut reallocMaps_sized
      rintro _ t ⟨-, ht⟩
      exact ht
    · intro _
      exact h

/-- The arrays have the size of the map in every state that is reached. -/
theorem Reachable.sized (h : Reachable s) : Sized s.mapSize s := by
  induction h with
  | @init s t mapSize hrun =>
    by_cases hrefused : Refused mapSize.toNat
    · rw [stateInit_refused hrefused] at hrun
      exact absurd hrun nofun
    · rw [stateInit_ok hrefused] at hrun
      obtain ⟨-, rfl⟩ := Prod.mk.inj (Except.ok.inj hrun)
      exact fun _ => rfl
  | reinit fresh b _ hrun ih => exact wp_of_ok (a := ()) (run_sized b ih) hrun

/-! ## What the blocks leave -/

theorem refused_iff :
    Refused newMapSize ↔ maxAlloc < newMapSize % 2 ^ 32 ∨ maxAlloc < newMapSize * 8 % 2 ^ 32 := by
  constructor
  · rintro ⟨a, ha⟩
    cases a with
    | topRated => exact Or.inr ha
    | _ =>
      dsimp only [elemSize] at ha
      rw [Nat.mul_one] at ha
      exact Or.inl ha
  · rintro (h | h)
    · refine ⟨.virginBits, ?_⟩
      dsimp only [elemSize]
      rwa [Nat.mul_one]
    · exact ⟨.topRated, h⟩

instance : Decidable (Refused newMapSize) := decidable_of_iff _ refused_iff.symm

/-- The last pointer is not cleared by any block. -/
theorem not_foundZero {b : Reinit} (hlt : oldMapSize < b.newMapSize)
    (h : fresh .topRated (b.newMapSize * 8 - 1) ≠ 0) : ¬ FoundZero fresh oldMapSize b := by
  intro hzero
  apply h
  apply hzero .topRated (by decide)
  · dsimp only [elemSize]
    split <;> omega
  · dsimp only [elemSize]
    omega

theorem not_wp_run {b : Reinit} (hs : Reachable s) (hlt : s.mapSize < b.newMapSize)
    (hgranted : ¬ Refused b.newMapSize) (h : fresh .topRated (b.newMapSize * 8 - 1) ≠ 0) :
    ¬ wp (· = .abort) (b.run fresh) (fun _ t => Clean s.mapSize b.newMapSize t) s := by
  rw [wp_run fresh hs.sized hlt]
  rintro (hrefused | ⟨-, hzero⟩)
  · exact hgranted hrefused
  · exact not_foundZero hlt h hzero

theorem reachable_zeroed (mapSize : BitVec 32) (h : ¬ Refused mapSize.toNat) :
    Reachable (zeroed mapSize.toNat) :=
  .init (s := zeroed 0) mapSize (stateInit_ok h)

/-- From 64 to 128 indices. -/
def doubled : Reinit := .targetMap 128

theorem reachable_sixty_four : Reachable (zeroed 64) := reachable_zeroed 64 (by decide)

/-- The new entries are clean if the bytes that are not cleared happen to be zero, and all sizes
fit. Whatever `realloc` finds they are clean only if the process ends instead. -/
theorem reinit_clean_iff (b : Reinit) (hs : Reachable s) (hlt : s.mapSize < b.newMapSize) :
    (∀ fresh, wp (· = .abort) (b.run fresh) (fun _ t => Clean s.mapSize b.newMapSize t) s ↔
      Refused b.newMapSize ∨ b.newMapSize * 8 ≤ maxAlloc ∧ FoundZero fresh s.mapSize b) ∧
    ((∀ fresh, wp (· = .abort) (b.run fresh) (fun _ t => Clean s.mapSize b.newMapSize t) s) ↔
      Refused b.newMapSize) := by
  have hrun := fun fresh => wp_run fresh hs.sized hlt
  refine ⟨hrun, ?_⟩
  constructor
  · intro h
    by_contra hgranted
    exact not_wp_run hs hlt hgranted (by decide) (h fun _ _ => 1)
  · intro hrefused fresh
    exact (hrun fresh).mpr (Or.inl hrefused)

theorem reinit_clean_iff_doubled :
    (∀ fresh, wp (· = .abort) (doubled.run fresh)
      (fun _ t => Clean (zeroed 64).mapSize doubled.newMapSize t) (zeroed 64) ↔
        Refused doubled.newMapSize ∨
          doubled.newMapSize * 8 ≤ maxAlloc ∧ FoundZero fresh (zeroed 64).mapSize doubled) ∧
    ((∀ fresh, wp (· = .abort) (doubled.run fresh)
      (fun _ t => Clean (zeroed 64).mapSize doubled.newMapSize t) (zeroed 64)) ↔
        Refused doubled.newMapSize) :=
  reinit_clean_iff doubled reachable_sixty_four (by decide)

/-- One larger size that is granted is enough, in memory that was in use before. -/
theorem not_forall_clean (h : ∃ (b : Reinit) (s : State), Reachable s ∧ s.mapSize < b.newMapSize ∧
    ¬ Refused b.newMapSize) : ¬ ∀ (b : Reinit) (s : State) (fresh : Map → Mem), Reachable s →
      s.mapSize < b.newMapSize →
        wp (· = .abort) (b.run fresh) (fun _ t => Clean s.mapSize b.newMapSize t) s := by
  intro hclean
  obtain ⟨b, s, hs, hlt, hgranted⟩ := h
  exact not_wp_run hs hlt hgranted (by decide) (hclean b s (fun _ _ => 0xff) hs hlt)

theorem added_pointers_kept : ¬ ∀ (b : Reinit) (s : State) (fresh : Map → Mem), Reachable s →
    s.mapSize < b.newMapSize →
      wp (· = .abort) (b.run fresh) (fun _ t => Clean s.mapSize b.newMapSize t) s :=
  not_forall_clean ⟨doubled, zeroed 64, reachable_sixty_four, by decide, by decide⟩

end AflPlusPlus.MapGrowth
