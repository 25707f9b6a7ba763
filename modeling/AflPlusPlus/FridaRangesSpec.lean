import AflPlusPlus.FridaRanges
import AflPlusPlus.SpanLists
import Mathlib.Tactic.SplitIfs

/-!
# What Frida mode excludes

Read as spans of natural numbers, the three walks over address ranges are the sweeps over ordered
span lists, since no limit passes the end of the address space.
-/

namespace AflPlusPlus.FridaRanges

open SpanLists

variable {ra rb : GumMemoryRange} {a b : List GumMemoryRange} {x : UInt64}

/-! ## Ranges as spans -/

def GumMemoryRange.span (r : GumMemoryRange) : Span ℕ :=
  ⟨r.baseAddress.toNat, r.baseAddress.toNat + r.size.toNat⟩

/-- The limit of the range is an address. -/
def GumMemoryRange.Fits (r : GumMemoryRange) : Prop := r.span.hi < 2 ^ 64

def spans (a : List GumMemoryRange) : List (Span ℕ) := a.map GumMemoryRange.span

/-- The addresses of a list of ranges. -/
def addresses (a : List GumMemoryRange) : Set UInt64 :=
  {x | ∃ r ∈ a, r.baseAddress.toNat ≤ x.toNat ∧ x.toNat < r.baseAddress.toNat + r.size.toNat}

/-- A sorted list of disjoint non-empty ranges, all limits of which are addresses. -/
structure RangeList (a : List GumMemoryRange) : Prop where
  sorted : a.Pairwise
    (fun r s => r.baseAddress.toNat + r.size.toNat ≤ s.baseAddress.toNat)
  nonempty : ∀ r ∈ a, r.size ≠ 0
  fits : ∀ r ∈ a, r.baseAddress.toNat + r.size.toNat < 2 ^ 64

@[simp]
theorem spans_nil : spans [] = [] := rfl

@[simp]
theorem spans_cons : spans (ra :: a) = ra.span :: spans a := rfl

@[simp]
theorem spans_append : spans (a ++ b) = spans a ++ spans b := List.map_append

theorem mem_addresses : x ∈ addresses a ↔ x.toNat ∈ region (spans a) := by
  simp [addresses, region, spans, Span.points, GumMemoryRange.span]

theorem limit_toNat (h : ra.Fits) : ra.limit.toNat = ra.span.hi := by
  rw [GumMemoryRange.limit, UInt64.toNat_add]
  exact Nat.mod_eq_of_lt h

theorem size_eq_zero_iff : ra.size = 0 ↔ ¬ ra.span.lo < ra.span.hi := by
  rw [← UInt64.toNat_inj]
  simp only [GumMemoryRange.span, UInt64.toNat_zero]
  omega

theorem RangeList.ordered (h : RangeList a) : Ordered (spans a) := by
  refine ⟨List.pairwise_map.mpr h.sorted, ?_⟩
  intro r hr
  obtain ⟨s, hs, rfl⟩ := List.mem_map.mp hr
  exact not_not.mp (size_eq_zero_iff.not.mp (h.nonempty s hs))

theorem RangeList.of_ordered (h : Ordered (spans a)) (hfits : ∀ r ∈ a, r.Fits) : RangeList a where
  sorted := List.pairwise_map.mp h.pairwise
  nonempty _ hr := size_eq_zero_iff.not.mpr (not_not.mpr (h.nonempty _ (List.mem_map_of_mem hr)))
  fits := hfits

/-! ## Intersecting -/

theorem toNat_largest (x y : UInt64) : (if x > y then x else y).toNat = max x.toNat y.toNat := by
  split_ifs with h
  · exact (max_eq_left (UInt64.lt_iff_toNat_lt.mp h).le).symm
  · rw [gt_iff_lt, UInt64.lt_iff_toNat_lt] at h
    exact (max_eq_right (not_lt.mp h)).symm

theorem toNat_smallest (x y : UInt64) : (if x < y then x else y).toNat = min x.toNat y.toNat := by
  split_ifs with h
  · exact (min_eq_left (UInt64.lt_iff_toNat_lt.mp h).le).symm
  · rw [UInt64.lt_iff_toNat_lt] at h
    exact (min_eq_right (not_lt.mp h)).symm

theorem intersectRange_before (ha : ra.Fits) (h : ra.span.hi < rb.span.lo) :
    intersectRange ra rb = (false, ⟨0, 0⟩) := by
  have hlt : ra.baseAddress + ra.size < rb.baseAddress := by
    rw [UInt64.lt_iff_toNat_lt]
    exact (limit_toNat ha).trans_lt h
  simp [intersectRange, hlt]

/-- Otherwise `rr` is the common part of the two ranges, of size 0 when there is none. -/
theorem intersectRange_common (ha : ra.Fits) (hb : rb.Fits) (h : ¬ ra.span.hi < rb.span.lo) :
    ∃ ri, intersectRange ra rb = (true, ri) ∧ ri.Fits ∧
      if max ra.span.lo rb.span.lo < min ra.span.hi rb.span.hi then
        ri.size ≠ 0 ∧ ri.span = ⟨max ra.span.lo rb.span.lo, min ra.span.hi rb.span.hi⟩
      else ri.size = 0 := by
  have hral : (ra.baseAddress + ra.size).toNat = ra.span.hi := limit_toNat ha
  have hrbl : (rb.baseAddress + rb.size).toNat = rb.span.hi := limit_toNat hb
  have hnot : ¬ ra.baseAddress + ra.size < rb.baseAddress := by
    rw [UInt64.lt_iff_toNat_lt, hral]
    exact h
  rw [intersectRange]
  dsimp only
  rw [if_neg hnot]
  by_cases hafter : ra.baseAddress > rb.baseAddress + rb.size
  · rw [if_pos hafter]
    rw [gt_iff_lt, UInt64.lt_iff_toNat_lt, hrbl] at hafter
    refine ⟨_, rfl, by simp [GumMemoryRange.Fits, GumMemoryRange.span], ?_⟩
    rw [if_neg]
    exact not_lt.mpr ((min_le_right _ _).trans (hafter.le.trans (le_max_left _ _)))
  · rw [if_neg hafter]
    rw [gt_iff_lt, UInt64.lt_iff_toNat_lt, hrbl] at hafter
    set rrb := if ra.baseAddress > rb.baseAddress then ra.baseAddress else rb.baseAddress
    set rrl := if ra.baseAddress + ra.size < rb.baseAddress + rb.size then
      ra.baseAddress + ra.size else rb.baseAddress + rb.size
    have hrrb : rrb.toNat = max ra.span.lo rb.span.lo := toNat_largest _ _
    have hrrl : rrl.toNat = min ra.span.hi rb.span.hi := by
      rw [← hral, ← hrbl]
      exact toNat_smallest _ _
    have hle : rrb.toNat ≤ rrl.toNat := by
      rw [hrrb, hrrl]
      exact max_le (le_min (Nat.le_add_right _ _) (not_lt.mp hafter))
        (le_min (not_lt.mp h) (Nat.le_add_right _ _))
    have hspan : GumMemoryRange.span ⟨rrb, rrl - rrb⟩ =
        ⟨max ra.span.lo rb.span.lo, min ra.span.hi rb.span.hi⟩ := by
      rw [GumMemoryRange.span, UInt64.toNat_sub_of_le _ _ (UInt64.le_iff_toNat_le.mpr hle),
        Nat.add_sub_cancel' hle, hrrb, hrrl]
    refine ⟨_, rfl, ?_, ?_⟩
    · rw [GumMemoryRange.Fits, hspan]
      exact (min_le_left _ _).trans_lt ha
    · split_ifs with hcommon
      · refine ⟨size_eq_zero_iff.not.mpr (not_not.mpr ?_), hspan⟩
        rwa [hspan]
      · refine size_eq_zero_iff.mpr ?_
        rwa [hspan]

theorem intersectLoop_spec (ha : ra.Fits) (hb : ∀ rb ∈ b, rb.Fits) :
    spans (intersectLoop ra b) = ra.span.clip (spans b) ∧ ∀ r ∈ intersectLoop ra b, r.Fits := by
  induction b with
  | nil => simp [intersectLoop, Span.clip]
  | cons rb b ih =>
    obtain ⟨hspans, hfits⟩ := ih (fun r hr => hb r (List.mem_cons_of_mem rb hr))
    rw [intersectLoop, spans_cons, Span.clip]
    by_cases h : ra.span.hi < rb.span.lo
    · rw [intersectRange_before ha h, if_pos h]
      exact ⟨rfl, by simp⟩
    · obtain ⟨ri, heq, hri, hcommon⟩ := intersectRange_common ha (hb rb List.mem_cons_self) h
      rw [heq, if_neg h]
      dsimp only
      split_ifs at hcommon with hlt
      · rw [if_pos hlt, if_neg hcommon.1, spans_cons, hcommon.2, hspans]
        exact ⟨rfl, List.forall_mem_cons.mpr ⟨hri, hfits⟩⟩
      · rw [if_neg hlt, if_pos hcommon]
        exact ⟨hspans, hfits⟩

theorem intersectRanges_spec (ha : ∀ r ∈ a, r.Fits) (hb : ∀ r ∈ b, r.Fits) :
    spans (intersectRanges a b) = meet (spans a) (spans b) ∧
      ∀ r ∈ intersectRanges a b, r.Fits := by
  induction a with
  | nil => exact ⟨rfl, by simp [intersectRanges]⟩
  | cons ra a ih =>
    obtain ⟨hspans, hfits⟩ := ih (fun r hr => ha r (List.mem_cons_of_mem ra hr))
    obtain ⟨hloop, hloopFits⟩ := intersectLoop_spec (ha ra List.mem_cons_self) hb
    rw [intersectRanges, List.flatMap_cons, spans_append, hloop]
    refine ⟨?_, List.forall_mem_append.mpr ⟨hloopFits, hfits⟩⟩
    rw [meet, spans_cons, List.flatMap_cons]
    exact congrArg _ hspans

/-! ## Subtracting -/

/-- The remainder of a range from the address `base` on. -/
theorem span_remainder (ha : ra.Fits) {base : UInt64} (h : base.toNat ≤ ra.span.hi) :
    GumMemoryRange.span ⟨base, ra.limit - base⟩ = ⟨base.toNat, ra.span.hi⟩ := by
  rw [← limit_toNat ha] at h ⊢
  rw [GumMemoryRange.span, UInt64.toNat_sub_of_le _ _ (UInt64.le_iff_toNat_le.mpr h),
    Nat.add_sub_cancel' h]

theorem limit_remainder (base limit : UInt64) :
    GumMemoryRange.limit ⟨base, limit - base⟩ = limit := by
  rw [GumMemoryRange.limit, UInt64.add_comm]
  exact UInt64.sub_add_cancel _ _

theorem spans_whatIsLeft (ra : GumMemoryRange) :
    spans (whatIsLeft ra) = if ra.span.lo < ra.span.hi then [ra.span] else [] := by
  rw [whatIsLeft]
  by_cases h : ra.size = 0
  · rw [if_neg (not_not.mpr h), if_neg (size_eq_zero_iff.mp h), spans_nil]
  · rw [if_pos h, if_pos (not_not.mp (size_eq_zero_iff.not.mp h)), spans_cons, spans_nil]

theorem fits_whatIsLeft (ha : ra.Fits) : ∀ r ∈ whatIsLeft ra, r.Fits := by
  rw [whatIsLeft]
  split_ifs
  · simpa using ha
  · simp

/-- What the walk appends, with what is left of the range behind it. -/
def subtracted (ra : GumMemoryRange) (b : List GumMemoryRange) : List GumMemoryRange :=
  (subtractLoop ra.limit ra b).1 ++ whatIsLeft (subtractLoop ra.limit ra b).2

theorem subtracted_before {ri : GumMemoryRange} (h : intersectRange ra rb = (false, ri)) :
    subtracted ra (rb :: b) = whatIsLeft ra := by
  rw [subtracted, subtractLoop, h]
  rfl

theorem subtracted_skip {ri : GumMemoryRange} (h : intersectRange ra rb = (true, ri))
    (hsize : ri.size = 0) : subtracted ra (rb :: b) = subtracted ra b := by
  rw [subtracted, subtractLoop, h]
  dsimp only
  rw [if_pos hsize, subtracted]

/-- Where the two ranges meet, the start of the range is kept and the walk goes on with its end. -/
theorem subtracted_cut {ri : GumMemoryRange} (h : intersectRange ra rb = (true, ri))
    (hsize : ri.size ≠ 0) (hlimit : ¬ ri.baseAddress + ri.size > ra.limit) :
    subtracted ra (rb :: b) =
      (if ra.baseAddress < ri.baseAddress then
        [⟨ra.baseAddress, ri.baseAddress - ra.baseAddress⟩] else []) ++
      subtracted ⟨ri.baseAddress + ri.size, ra.limit - (ri.baseAddress + ri.size)⟩ b := by
  rw [subtracted, subtractLoop, h]
  dsimp only
  rw [if_neg hsize, if_neg hlimit, subtracted, limit_remainder, List.append_assoc]

/-- The start of a range up to the address `base` inside it. -/
theorem span_start {base : UInt64} (h : ra.baseAddress < base) :
    GumMemoryRange.span ⟨ra.baseAddress, base - ra.baseAddress⟩ = ⟨ra.span.lo, base.toNat⟩ := by
  have hle := (UInt64.lt_iff_toNat_lt.mp h).le
  rw [GumMemoryRange.span, UInt64.toNat_sub_of_le _ _ (UInt64.le_iff_toNat_le.mpr hle),
    Nat.add_sub_cancel' hle]
  rfl

theorem subtracted_spec (ha : ra.Fits) (hb : ∀ rb ∈ b, rb.Fits) :
    spans (subtracted ra b) = ra.span.carve (spans b) ∧ ∀ r ∈ subtracted ra b, r.Fits := by
  induction b generalizing ra with
  | nil => exact ⟨spans_whatIsLeft ra, fits_whatIsLeft ha⟩
  | cons rb b ih =>
    have htail : ∀ r ∈ b, r.Fits := fun r hr => hb r (List.mem_cons_of_mem rb hr)
    rw [spans_cons, Span.carve]
    by_cases h : ra.span.hi < rb.span.lo
    · rw [subtracted_before (intersectRange_before ha h), if_pos h]
      exact ⟨spans_whatIsLeft ra, fits_whatIsLeft ha⟩
    · obtain ⟨ri, heq, hri, hcommon⟩ := intersectRange_common ha (hb rb List.mem_cons_self) h
      rw [if_neg h]
      split_ifs at hcommon with hlt
      · obtain ⟨hsize, hspan⟩ := hcommon
        have hlo : ri.baseAddress.toNat = max ra.span.lo rb.span.lo := congrArg Span.lo hspan
        have hhi : (ri.baseAddress + ri.size).toNat = min ra.span.hi rb.span.hi :=
          (limit_toNat hri).trans (congrArg Span.hi hspan)
        have hle : (ri.baseAddress + ri.size).toNat ≤ ra.span.hi := hhi ▸ min_le_left _ _
        have hinside : ¬ ri.baseAddress + ri.size > ra.limit := by
          rw [gt_iff_lt, UInt64.lt_iff_toNat_lt, limit_toNat ha]
          exact not_lt.mpr hle
        rw [subtracted_cut heq hsize hinside, if_pos hlt]
        set base := ri.baseAddress + ri.size
        have hnext : GumMemoryRange.span ⟨base, ra.limit - base⟩ =
            ⟨min ra.span.hi rb.span.hi, ra.span.hi⟩ := hhi ▸ span_remainder ha hle
        obtain ⟨hspans, hfits⟩ :=
          @ih ⟨base, ra.limit - base⟩ (by rwa [GumMemoryRange.Fits, hnext]) htail
        rw [hnext] at hspans
        have hkept : ra.baseAddress < ri.baseAddress ↔ ra.span.lo < rb.span.lo := by
          rw [UInt64.lt_iff_toNat_lt, hlo, lt_max_iff]
          exact or_iff_right (lt_irrefl _)
        by_cases hstart : ra.span.lo < rb.span.lo
        · rw [if_pos (hkept.mpr hstart), if_pos hstart, spans_append, spans_cons,
            span_start (hkept.mpr hstart), hlo, max_eq_right hstart.le, hspans]
          refine ⟨rfl, List.forall_mem_append.mpr ⟨?_, hfits⟩⟩
          intro r hr
          rw [List.mem_singleton.mp hr, GumMemoryRange.Fits, span_start (hkept.mpr hstart)]
          exact UInt64.toNat_lt _
        · rw [if_neg (hkept.not.mpr hstart), if_neg hstart]
          exact ⟨hspans, hfits⟩
      · rw [subtracted_skip heq hcommon, if_neg hlt]
        exact ih ha htail

theorem subtractRanges_spec (ha : ∀ r ∈ a, r.Fits) (hb : ∀ r ∈ b, r.Fits) :
    spans (subtractRanges a b).1 = remove (spans a) (spans b) ∧
      ∀ r ∈ (subtractRanges a b).1, r.Fits := by
  induction a with
  | nil => exact ⟨rfl, by simp [subtractRanges]⟩
  | cons ra a ih =>
    obtain ⟨hspans, hfits⟩ := ih (fun r hr => ha r (List.mem_cons_of_mem ra hr))
    obtain ⟨hloop, hloopFits⟩ := subtracted_spec (ha ra List.mem_cons_self) hb
    have hcons : (subtractRanges (ra :: a) b).1 = subtracted ra b ++ (subtractRanges a b).1 := rfl
    rw [hcons, spans_append, hloop, hspans]
    exact ⟨rfl, List.forall_mem_append.mpr ⟨hloopFits, hfits⟩⟩

/-! ## Merging -/

theorem mergeLoop_spec (ha : ra.Fits) (h : ∀ r ∈ a, r.Fits) :
    spans (mergeLoop ra a) = joinFrom ra.span (spans a) ∧ ∀ r ∈ mergeLoop ra a, r.Fits := by
  induction a generalizing ra with
  | nil => exact ⟨rfl, by simpa [mergeLoop] using ha⟩
  | cons rb a ih =>
    have htail : ∀ r ∈ a, r.Fits := fun r hr => h r (List.mem_cons_of_mem rb hr)
    have hrb : rb.Fits := h rb List.mem_cons_self
    have hlimit : (ra.baseAddress + ra.size).toNat = ra.span.hi := limit_toNat ha
    have htouch : ra.baseAddress + ra.size = rb.baseAddress ↔ ra.span.hi = rb.span.lo := by
      rw [← UInt64.toNat_inj, hlimit]
      rfl
    rw [mergeLoop, spans_cons, joinFrom]
    by_cases hi : ra.span.hi = rb.span.lo
    · rw [if_pos (htouch.mpr hi), if_pos hi]
      have hjoined : GumMemoryRange.span ⟨ra.baseAddress, ra.size + rb.size⟩ =
          ⟨ra.span.lo, rb.span.hi⟩ := by
        simp only [GumMemoryRange.Fits, GumMemoryRange.span] at hrb hi
        have hsize : (ra.size + rb.size).toNat = ra.size.toNat + rb.size.toNat := by
          rw [UInt64.toNat_add]
          exact Nat.mod_eq_of_lt (by omega)
        simp only [GumMemoryRange.span, hsize, Span.mk.injEq, true_and]
        omega
      rw [← hjoined]
      exact ih (by rwa [GumMemoryRange.Fits, hjoined]) htail
    · obtain ⟨hspans, hfits⟩ := ih hrb htail
      rw [if_neg (htouch.not.mpr hi), if_neg hi, spans_cons, hspans]
      exact ⟨rfl, List.forall_mem_cons.mpr ⟨ha, hfits⟩⟩

theorem mergeRanges_spec (h : ∀ r ∈ a, r.Fits) :
    spans (mergeRanges a) = join (spans a) ∧ ∀ r ∈ mergeRanges a, r.Fits := by
  cases a with
  | nil => exact ⟨rfl, by simp [mergeRanges]⟩
  | cons ra a =>
    exact mergeLoop_spec (h ra List.mem_cons_self) (fun r hr => h r (List.mem_cons_of_mem ra hr))

/-! ## Looking up -/

theorem excludedLoop_eq (h : ∀ r ∈ a, r.Fits) : excludedLoop x a = search x.toNat (spans a) := by
  induction a with
  | nil => rfl
  | cons ra a ih =>
    rw [excludedLoop, spans_cons, search, ih (fun r hr => h r (List.mem_cons_of_mem ra hr))]
    simp only [UInt64.lt_iff_toNat_lt, limit_toNat (h ra List.mem_cons_self)]
    rfl

/-! ## The excluded addresses -/

theorem RangeList.whole : RangeList collectWholeMemRanges where
  sorted := List.pairwise_singleton _ _
  nonempty := by decide
  fits := by decide

variable {found : Process} {includes excludes : List GumMemoryRange} {dynamicLoad : Bool}

/-- The included ranges after the default. -/
def included (includes : List GumMemoryRange) : List GumMemoryRange :=
  if includes.length = 0 then includes ++ [⟨0, gMaxulong⟩] else includes

theorem RangeList.included (h : RangeList includes) : RangeList (included includes) := by
  rw [FridaRanges.included]
  split_ifs with hempty
  · rw [List.length_eq_zero_iff.mp hempty]
    exact RangeList.whole
  · exact h

/-- Everything is included by default: no module reaches the last address. -/
theorem addresses_inter_included (ha : RangeList a) :
    addresses a ∩ addresses (included includes) =
      addresses a ∩ if includes = [] then Set.univ else addresses includes := by
  by_cases hempty : includes = []
  · rw [if_pos hempty, hempty, Set.inter_univ]
    refine Set.inter_eq_left.mpr ?_
    rintro x ⟨r, hr, -, hx⟩
    have hfits := ha.fits r hr
    refine ⟨⟨0, gMaxulong⟩, List.mem_singleton_self _, Nat.zero_le _, ?_⟩
    exact hx.trans_le (Nat.le_sub_one_of_lt hfits)
  · have hlength : includes.length ≠ 0 := fun h => hempty (List.length_eq_zero_iff.mp h)
    rw [if_neg hempty, included, if_neg hlength]

theorem intersectRanges_rangeList (ha : RangeList a) (hb : RangeList b) :
    RangeList (intersectRanges a b) ∧
      addresses (intersectRanges a b) = addresses a ∩ addresses b := by
  obtain ⟨hspans, hfits⟩ := intersectRanges_spec ha.fits hb.fits
  refine ⟨RangeList.of_ordered (hspans ▸ ha.ordered.meet hb.ordered) hfits, ?_⟩
  ext x
  rw [Set.mem_inter_iff, mem_addresses, mem_addresses, mem_addresses, hspans,
    region_meet hb.ordered, Set.mem_inter_iff]

theorem subtractRanges_rangeList (ha : RangeList a) (hb : RangeList b) :
    RangeList (subtractRanges a b).1 ∧
      addresses (subtractRanges a b).1 = addresses a \ addresses b := by
  obtain ⟨hspans, hfits⟩ := subtractRanges_spec ha.fits hb.fits
  refine ⟨RangeList.of_ordered (hspans ▸ ha.ordered.remove _) hfits, ?_⟩
  ext x
  rw [Set.mem_sdiff, mem_addresses, mem_addresses, mem_addresses, hspans,
    region_remove hb.ordered, Set.mem_sdiff]

theorem mergeRanges_rangeList (ha : RangeList a) :
    RangeList (mergeRanges a) ∧ addresses (mergeRanges a) = addresses a ∧
      (mergeRanges a).Pairwise
        (fun r s => r.baseAddress.toNat + r.size.toNat < s.baseAddress.toNat) := by
  obtain ⟨hspans, hfits⟩ := mergeRanges_spec ha.fits
  have hseparated : Separated (spans (mergeRanges a)) := hspans ▸ join_separated ha.ordered
  refine ⟨RangeList.of_ordered hseparated.ordered hfits, ?_,
    List.pairwise_map.mp hseparated.pairwise⟩
  ext x
  rw [mem_addresses, mem_addresses, hspans, region_join ha.ordered]

theorem excludedLoop_iff (ha : RangeList a) : excludedLoop x a = true ↔ x ∈ addresses a := by
  rw [excludedLoop_eq ha.fits, search_iff ha.ordered, mem_addresses]

/-- The base ranges, before they are overwritten. -/
def baseRanges (found : Process) (dynamicLoad : Bool) : List GumMemoryRange :=
  if dynamicLoad then found.modules else collectWholeMemRanges

theorem includeDefault_eq (s : State) :
    s.includeDefault = { s with includeRanges := included s.includeRanges } := by
  rw [State.includeDefault, included]
  split_ifs <;> rfl

theorem rangesInit_ranges :
    ((rangesConfig includes excludes dynamicLoad).rangesInit found).ranges =
      some (mergeRanges (subtractRanges (baseRanges found dynamicLoad)
        (subtractRanges (subtractRanges (intersectRanges
          (intersectRanges found.modules found.libs) (included includes)) excludes).1
          found.jit).1).1) := by
  rw [State.rangesInit, includeDefault_eq]
  cases dynamicLoad <;> rfl

theorem rangesInit_excluded (hmodules : RangeList found.modules) (hlibs : RangeList found.libs)
    (hjit : RangeList found.jit) (hincludes : RangeList includes)
    (hexcludes : RangeList excludes) :
    {x | ((rangesConfig includes excludes dynamicLoad).rangesInit found).rangeIsExcluded x} =
      addresses (baseRanges found dynamicLoad) \
        (((addresses found.modules ∩ addresses found.libs ∩
          if includes = [] then Set.univ else addresses includes) \
            addresses excludes) \ addresses found.jit) ∧
    ∃ ranges,
      ((rangesConfig includes excludes dynamicLoad).rangesInit found).ranges = some ranges ∧
      RangeList ranges ∧
      ranges.Pairwise (fun r s => r.baseAddress.toNat + r.size.toNat < s.baseAddress.toNat) := by
  have hbase : RangeList (baseRanges found dynamicLoad) := by
    cases dynamicLoad
    · exact RangeList.whole
    · exact hmodules
  obtain ⟨hlist₁, haddr₁⟩ := intersectRanges_rangeList hmodules hlibs
  obtain ⟨hlist₂, haddr₂⟩ := intersectRanges_rangeList hlist₁ hincludes.included
  obtain ⟨hlist₃, haddr₃⟩ := subtractRanges_rangeList hlist₂ hexcludes
  obtain ⟨hlist₄, haddr₄⟩ := subtractRanges_rangeList hlist₃ hjit
  obtain ⟨hlist₅, haddr₅⟩ := subtractRanges_rangeList hbase hlist₄
  obtain ⟨hranges, haddr, hgaps⟩ := mergeRanges_rangeList hlist₅
  refine ⟨?_, _, rangesInit_ranges, hranges, hgaps⟩
  ext x
  rw [Set.mem_ofPred_eq, State.rangeIsExcluded, rangesInit_ranges]
  dsimp only
  rw [excludedLoop_iff hranges, haddr, haddr₅, haddr₄, haddr₃, haddr₂,
    addresses_inter_included hlist₁, haddr₁]

/-- A program with a gap, part of which is excluded. -/
def twoModules : Process where
  modules := [⟨0x1000, 0x1000⟩, ⟨0x3000, 0x1000⟩]
  libs := [⟨0x1000, 0x800⟩, ⟨0x3000, 0x1000⟩]
  jit := [⟨0x3000, 0x10⟩]

theorem rangesInit_twoModules :
    {x | ((rangesConfig [] [⟨0x3010, 0x10⟩] true).rangesInit twoModules).rangeIsExcluded x} =
      addresses twoModules.modules \
        (((addresses twoModules.modules ∩ addresses twoModules.libs ∩
          if ([] : List GumMemoryRange) = [] then Set.univ else addresses []) \
            addresses [⟨0x3010, 0x10⟩]) \ addresses twoModules.jit) ∧
    ∃ ranges,
      ((rangesConfig [] [⟨0x3010, 0x10⟩] true).rangesInit twoModules).ranges = some ranges ∧
      RangeList ranges ∧
      ranges.Pairwise (fun r s => r.baseAddress.toNat + r.size.toNat < s.baseAddress.toNat) :=
  @rangesInit_excluded twoModules _ _ _ ⟨by decide, by decide, by decide⟩
    ⟨by decide, by decide, by decide⟩ ⟨by decide, by decide, by decide⟩
    ⟨by decide, by decide, by decide⟩ ⟨by decide, by decide, by decide⟩

example : ((rangesConfig [] [⟨0x3010, 0x10⟩] true).rangesInit twoModules).ranges =
    some [⟨0x1800, 0x800⟩, ⟨0x3000, 0x20⟩] := by decide

end AflPlusPlus.FridaRanges
