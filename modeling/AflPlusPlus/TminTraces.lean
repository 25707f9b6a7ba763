import AflPlusPlus.Coverage32

/-!
# The traces of afl-tmin

`afl-tmin` has its own table and its own loops over the bytes of the map, but has to agree with
`afl-fuzz` about what the same path is.
-/

namespace AflPlusPlus.Tmin
open ByteWords CoverageMap

/-- `count_class_lookup[256]`. -/
def countClassLookup (b : Byte) : Byte :=
  if b = 0 then 0 else if b = 1 then 1 else if b = 2 then 2 else if b = 3 then 4
  else if b ≤ 7 then 8 else if b ≤ 15 then 16 else if b ≤ 31 then 32
  else if b ≤ 127 then 64 else 128

/-- With `-e` only the edges count. -/
def classifyByte (edgesOnly : Bool) (b : Byte) : Byte :=
  if edgesOnly then if b ≠ 0 then 1 else b else countClassLookup b

def classifyCounts (edgesOnly : Bool) (mapSize : ℕ) (traceBits : Mem) : Mem :=
  (List.range mapSize).foldl (fun mem i => Function.update mem i (classifyByte edgesOnly (mem i)))
    traceBits

/-- Clear the bits of the mask, if there is one. -/
def applyMask (mapSize : ℕ) (mask : Option Mem) (mem : Mem) : Mem :=
  match mask with
  | none => mem
  | some mask => (List.range (mapSize >>> 2)).foldl (fun mem k =>
      storeWord 4 mem k (loadWord 4 mem k &&& ~~~loadWord 4 mask k)) mem

theorem classifyCounts_apply (edgesOnly : Bool) (mapSize : ℕ) (traceBits : Mem) (i : ℕ) :
    classifyCounts edgesOnly mapSize traceBits i =
      if i < mapSize then classifyByte edgesOnly (traceBits i) else traceBits i := by
  unfold classifyCounts
  induction mapSize generalizing i with
  | zero => rfl
  | succ n ih =>
    rw [List.range_succ, List.foldl_append, List.foldl_cons, List.foldl_nil]
    by_cases hi : i = n
    · rw [hi, Function.update_self, ih, if_neg (lt_irrefl n), if_pos n.lt_succ_self]
    · have hiff : i < n + 1 ↔ i < n := by omega
      rw [Function.update_of_ne hi, ih]
      simp only [hiff]

/-- Both builds of `afl-fuzz` and `afl-tmin` bucket and simplify each byte of the map alone, and
in the same way. -/
theorem builds_agree (g : MapGeometry) (traceBits : Mem) :
    (∀ i < g.mapSize, CoverageMap.classifyCounts g traceBits i =
      countClassLookup8 (traceBits i)) ∧
    Coverage32.classifyCounts g traceBits = CoverageMap.classifyCounts g traceBits ∧
    classifyCounts false g.mapSize traceBits = CoverageMap.classifyCounts g traceBits ∧
    (∀ i < g.mapSize, simplifyTrace g traceBits i = if traceBits i = 0 then 1 else 128) ∧
    Coverage32.simplifyTrace g traceBits = simplifyTrace g traceBits := by
  refine ⟨fun i hi => ?_, funext fun i => ?_, funext fun i => ?_, fun i hi => ?_,
    funext fun i => ?_⟩
  · rw [CoverageMap.classifyCounts_apply, if_pos hi]
  · rw [Coverage32.classifyCounts_apply, CoverageMap.classifyCounts_apply]
  · rw [classifyCounts_apply, CoverageMap.classifyCounts_apply]
    rfl
  · rw [simplifyTrace_apply, if_pos hi]
    rfl
  · rw [Coverage32.simplifyTrace_apply, simplifyTrace_apply]

end AflPlusPlus.Tmin
