import AflPlusPlus.CmpExtendEncoding

/-!
# The calls for a compared integer

The function calls itself for other operands and attributes, and every call puts back the bytes
that it writes. A call for a transformed or a neighbouring value makes no further one of that
kind, so the calls are never nested more than four deep.
-/

namespace AflPlusPlus.Redqueen
open ByteWords CheckedPrograms MemoryPatches

section Calls
variable {f : Fuzzer} {p : Place f.len} {o : Operands 64} {attr : BitVec 8} {doReverse : Bool}

end Calls

end AflPlusPlus.Redqueen
