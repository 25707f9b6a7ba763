import AflPlusPlus.Base64
import AflPlusPlus.SextetTexts

/-!
# What the base64 conversions compute

The text of some bytes is that of the standard encoding but for the bits that fill the last
sextet, which are those of the byte behind them. Decoding drops these bits.
-/

namespace AflPlusPlus.Redqueen
open ByteWords MemoryPatches SextetTexts TextLines

/-! ## Letters -/

section Groups
variable (a b c : Byte)

variable (v0 v1 v2 v3 : BitVec 6)

variable {a b c} {src dst : Mem} {n i j len r ret k : ℕ}

end Groups

/-! ## Texts -/

section Texts
variable {src dst : Mem} {n k g : ℕ}

end Texts

end AflPlusPlus.Redqueen
