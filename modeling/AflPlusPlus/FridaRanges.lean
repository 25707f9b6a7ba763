import Mathlib

/-!
# The excluded ranges of Frida mode

`ranges_init` intersects the ranges of the modules, of the libraries and the included ranges,
takes the excluded and the just-in-time ranges away, and hands what remains of the base ranges to
the stalker as the ranges it shall not follow. All arithmetic is that of 64-bit addresses.
-/

namespace AflPlusPlus.FridaRanges

structure GumMemoryRange where
  baseAddress : UInt64
  size : UInt64
deriving DecidableEq

def gMaxulong : UInt64 := 0xffffffffffffffff

def GumMemoryRange.limit (r : GumMemoryRange) : UInt64 := r.baseAddress + r.size

/-! ## Intersecting -/

/-- The result, and what is written to `rr`. -/
def intersectRange (ra rb : GumMemoryRange) : Bool × GumMemoryRange :=
  let rab := ra.baseAddress
  let ral := rab + ra.size
  let rbb := rb.baseAddress
  let rbl := rbb + rb.size
  -- ra is before rb
  if ral < rbb then (false, ⟨0, 0⟩)
  -- ra is after rb
  else if rab > rbl then (true, ⟨0, 0⟩)
  else
    let rrb := if rab > rbb then rab else rbb
    let rrl := if ral < rbl then ral else rbl
    (true, ⟨rrb, rrl - rrb⟩)

/-- The walk over `b` for one range of `a`: what it appends to the result. -/
def intersectLoop (ra : GumMemoryRange) : List GumMemoryRange → List GumMemoryRange
  | [] => []
  | rb :: b =>
    match intersectRange ra rb with
    | (false, _) => []
    | (true, ri) => if ri.size = 0 then intersectLoop ra b else ri :: intersectLoop ra b

def intersectRanges (a b : List GumMemoryRange) : List GumMemoryRange :=
  a.flatMap (fun ra => intersectLoop ra b)

/-! ## Subtracting -/

/-- The walk over `b` for one range of `a` with limit `ral`: what it appends to the result, and
the range of `a` as it leaves it. -/
def subtractLoop (ral : UInt64) (ra : GumMemoryRange) :
    List GumMemoryRange → List GumMemoryRange × GumMemoryRange
  | [] => ([], ra)
  | rb :: b =>
    match intersectRange ra rb with
    | (false, _) => ([], ra)
    | (true, ri) =>
      if ri.size = 0 then subtractLoop ral ra b
      else
        -- the intersection is part way through the range: keep the start of the range
        let kept := if ra.baseAddress < ri.baseAddress then
          [⟨ra.baseAddress, ri.baseAddress - ra.baseAddress⟩] else []
        if ri.baseAddress + ri.size > ral then (kept, ⟨ral, 0⟩)
        else
          let base := ri.baseAddress + ri.size
          let next := subtractLoop ral ⟨base, ral - base⟩ b
          (kept ++ next.1, next.2)

/-- What is appended of a range after its walk. -/
def whatIsLeft (ra : GumMemoryRange) : List GumMemoryRange :=
  if ra.size ≠ 0 then [ra] else []

/-- The result, and the first argument as the loops overwrite it. -/
def subtractRanges : List GumMemoryRange → List GumMemoryRange →
    List GumMemoryRange × List GumMemoryRange
  | [], _ => ([], [])
  | ra :: a, b =>
    let walked := subtractLoop ra.limit ra b
    let next := subtractRanges a b
    (walked.1 ++ whatIsLeft walked.2 ++ next.1, walked.2 :: next.2)

/-! ## Merging -/

def mergeLoop (rp : GumMemoryRange) : List GumMemoryRange → List GumMemoryRange
  | [] => [rp]
  | r :: a =>
    if rp.baseAddress + rp.size = r.baseAddress then mergeLoop ⟨rp.baseAddress, rp.size + r.size⟩ a
    else rp :: mergeLoop r a

def mergeRanges : List GumMemoryRange → List GumMemoryRange
  | [] => []
  | rp :: a => mergeLoop rp a

/-! ## The ranges of a process -/

/-- The file's variables. `ranges` is `none` until `ranges_init` has run. -/
structure State where
  rangesInstDynamicLoad : Bool
  moduleRanges : List GumMemoryRange
  libsRanges : List GumMemoryRange
  jitRanges : List GumMemoryRange
  includeRanges : List GumMemoryRange
  excludeRanges : List GumMemoryRange
  ranges : Option (List GumMemoryRange)
  wholeMemoryRanges : List GumMemoryRange
deriving DecidableEq

def collectWholeMemRanges : List GumMemoryRange := [⟨0, gMaxulong⟩]

/-- After `ranges_config`, with what it collected from `AFL_FRIDA_INST_RANGES` and
`AFL_FRIDA_EXCLUDE_RANGES`, and whether `AFL_FRIDA_INST_NO_DYNAMIC_LOAD` is unset. -/
def rangesConfig (includes excludes : List GumMemoryRange) (dynamicLoad : Bool) : State where
  rangesInstDynamicLoad := dynamicLoad
  moduleRanges := []
  libsRanges := []
  jitRanges := []
  includeRanges := includes
  excludeRanges := excludes
  ranges := none
  wholeMemoryRanges := collectWholeMemRanges

/-- What `collect_module_ranges`, `collect_libs_ranges` and `collect_jit_ranges` find. -/
structure Process where
  modules : List GumMemoryRange
  libs : List GumMemoryRange
  jit : List GumMemoryRange

/-- If there is no included range, then everything is included. -/
def State.includeDefault (s : State) : State :=
  if s.includeRanges.length = 0 then
    { s with includeRanges := s.includeRanges ++ [⟨0, gMaxulong⟩] } else s

/-- The ranges to be instrumented. -/
def State.step4 (s : State) : List GumMemoryRange :=
  let step1 := intersectRanges s.moduleRanges s.libsRanges
  let step2 := intersectRanges step1 s.includeRanges
  let step3 := (subtractRanges step2 s.excludeRanges).1
  (subtractRanges step3 s.jitRanges).1

/-- What is left of the base ranges without `step4`. The base ranges are overwritten. -/
def State.subtractFromBase (s : State) (step4 : List GumMemoryRange) :
    List GumMemoryRange × State :=
  if s.rangesInstDynamicLoad then
    let r := subtractRanges s.moduleRanges step4
    (r.1, { s with moduleRanges := r.2 })
  else
    let r := subtractRanges s.wholeMemoryRanges step4
    (r.1, { s with wholeMemoryRanges := r.2 })

def State.rangesInit (s : State) (found : Process) : State :=
  let s := { s with
    moduleRanges := found.modules, libsRanges := found.libs, jitRanges := found.jit }
  let s := s.includeDefault
  let (step5, s) := s.subtractFromBase s.step4
  { s with ranges := some (mergeRanges step5) }

/-- The walk of `range_is_excluded` over the ranges. -/
def excludedLoop (address : UInt64) : List GumMemoryRange → Bool
  | [] => false
  | curr :: rest =>
    if address < curr.baseAddress then false
    else if address < curr.limit then true
    else excludedLoop address rest

def State.rangeIsExcluded (s : State) (address : UInt64) : Bool :=
  match s.ranges with
  | none => false
  | some ranges => excludedLoop address ranges

end AflPlusPlus.FridaRanges
