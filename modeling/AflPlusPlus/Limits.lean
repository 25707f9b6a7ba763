import Mathlib.Data.Nat.Notation

/-!
# Limits of the program

The constants of `config.h` and `alloc-inl.h` that several parts of the program use.
-/

namespace AflPlusPlus

/-- `MAX_FILE`, the bound on every length that the fuzzer reads or writes. -/
def maxFile : ℕ := 1 * 1024 * 1024

/-- `MAX_ALLOC` -/
def maxAlloc : ℕ := 0x40000000

/-- `ARITH_MAX` -/
def arithMax : ℕ := 35

/-- `USE_AUTO_EXTRAS` -/
def useAutoExtras : ℕ := 4096

/-- `CMPLOG_FAIL_MAX` -/
def cmplogFailMax : ℕ := 96

end AflPlusPlus
