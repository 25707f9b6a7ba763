import Mathlib.Data.BitVec
import Mathlib.Logic.Function.Basic

/-!
# Texts of sextets

Three bytes are four sextets, each of which has a letter of an alphabet. A last group of one or
two bytes has letters of the padding. The bits that its last sextet lacks are filled.
-/

namespace AflPlusPlus.SextetTexts

def sextet0 (a : BitVec 8) : BitVec 6 := a.extractLsb' 2 6
def sextet1 (a b : BitVec 8) : BitVec 6 := a.extractLsb' 0 2 ++ b.extractLsb' 4 4
def sextet2 (b c : BitVec 8) : BitVec 6 := b.extractLsb' 0 4 ++ c.extractLsb' 6 2
def sextet3 (c : BitVec 8) : BitVec 6 := c.extractLsb' 0 6

variable {α : Type} (letter : BitVec 6 → α) (pad : α) (fill : BitVec 8)

/-- The last sextet is filled with the upper bits of a byte. -/
def encodeFilled : List (BitVec 8) → List α
  | [] => []
  | [a] => [letter (sextet0 a), letter (sextet1 a fill), pad, pad]
  | [a, b] => [letter (sextet0 a), letter (sextet1 a b), letter (sextet2 b fill), pad]
  | a :: b :: c :: bytes =>
    letter (sextet0 a) :: letter (sextet1 a b) :: letter (sextet2 b c) :: letter (sextet3 c) ::
      encodeFilled bytes

/-- The standard encoding fills it with zero bits. -/
def encode : List (BitVec 8) → List α := encodeFilled letter pad 0

variable {letter pad fill} {a b c d : BitVec 8}

end AflPlusPlus.SextetTexts
