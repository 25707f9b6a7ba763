import Mathlib

/-!
# Binary interchange formats

The bits of a floating-point number, read as a natural number, and the datum they stand
for. Every finite number of a format is an integer multiple of its least subnormal number;
that integer is its value here. On the data other than NaN the order of the values is the
order of the bits below the sign, reversed for negative numbers.
-/

namespace AflPlusPlus.FloatFormats

/-- The order of the values is the computable one of the integers. -/
instance (priority := high) instPreorderValue : Preorder ℤ := Int.instLinearOrder.toPreorder

structure Format where
  exponentBits : ℕ
  fractionBits : ℕ
  exponent_pos : 0 < exponentBits

namespace Format

def width (f : Format) : ℕ := 1 + f.exponentBits + f.fractionBits

def sign (f : Format) (x : ℕ) : ℕ := x / 2 ^ (f.exponentBits + f.fractionBits) % 2

def exponent (f : Format) (x : ℕ) : ℕ := x / 2 ^ f.fractionBits % 2 ^ f.exponentBits

def fraction (f : Format) (x : ℕ) : ℕ := x % 2 ^ f.fractionBits

/-- The exponent field of infinities and NaNs. -/
def maxExponent (f : Format) : ℕ := 2 ^ f.exponentBits - 1

def IsNaN (f : Format) (x : ℕ) : Prop := f.exponent x = f.maxExponent ∧ f.fraction x ≠ 0

instance (f : Format) (x : ℕ) : Decidable (f.IsNaN x) := inferInstanceAs (Decidable (_ ∧ _))

/-- The absolute value of a finite number with these fields. -/
def magnitude (f : Format) (exponent fraction : ℕ) : ℕ :=
  if exponent = 0 then fraction else (2 ^ f.fractionBits + fraction) * 2 ^ (exponent - 1)

def signed (sign m : ℕ) : ℤ := if sign = 1 then -m else m

/-- The value of a bit pattern; none for a NaN. -/
def decode (f : Format) (x : ℕ) : Option (WithBot (WithTop ℤ)) :=
  if f.exponent x = f.maxExponent then
    if f.fraction x ≠ 0 then none else some (if f.sign x = 1 then ⊥ else ⊤)
  else some (signed (f.sign x) (f.magnitude (f.exponent x) (f.fraction x)) : ℤ)

end Format

/-- The possible predicates of a comparison; `o` stands for ordered, `u` for unordered. -/
inductive FloatPredicate
  | false | oeq | ogt | oge | olt | ole | one | ord
  | uno | ueq | ugt | uge | ult | ule | une | true
  deriving DecidableEq, Repr

namespace FloatPredicate

/-- The answer when an operand is NaN. -/
def unordered : FloatPredicate → Bool
  | uno | ueq | ugt | uge | ult | ule | une | true => Bool.true
  | _ => Bool.false

/-- The answer on two numbers. -/
def ordered (u v : WithBot (WithTop ℤ)) : FloatPredicate → Bool
  | false | uno => Bool.false
  | oeq | ueq => u = v
  | ogt | ugt => v < u
  | oge | uge => v ≤ u
  | olt | ult => u < v
  | ole | ule => u ≤ v
  | one | une => u ≠ v
  | ord | true => Bool.true

def eval (p : FloatPredicate) (f : Format) (x y : ℕ) : Bool :=
  match f.decode x, f.decode y with
  | some u, some v => p.ordered u v
  | _, _ => p.unordered

end FloatPredicate

namespace Format

variable (f : Format)

/-- The bits below the sign. -/
def key (x : ℕ) : ℕ := x % 2 ^ (f.exponentBits + f.fractionBits)

/-- The bits of infinity below the sign. -/
def topKey : ℕ := f.maxExponent * 2 ^ f.fractionBits

def keyMagnitude (k : ℕ) : ℕ := f.magnitude (k / 2 ^ f.fractionBits) (k % 2 ^ f.fractionBits)

theorem key_div (x : ℕ) : f.key x / 2 ^ f.fractionBits = f.exponent x := by
  rw [key, exponent, Nat.add_comm, pow_add, Nat.mod_mul_right_div_self]

theorem key_mod (x : ℕ) : f.key x % 2 ^ f.fractionBits = f.fraction x := by
  rw [key, fraction, Nat.add_comm, pow_add, Nat.mod_mul_right_mod]

theorem key_eq (x : ℕ) : f.key x = f.exponent x * 2 ^ f.fractionBits + f.fraction x := by
  rw [← f.key_div, ← f.key_mod, Nat.mul_comm]
  exact (Nat.div_add_mod _ _).symm

theorem keyMagnitude_zero : f.keyMagnitude 0 = 0 := by
  simp [keyMagnitude, magnitude]

theorem magnitude_lt_top {e m : ℕ} (hm : m < 2 ^ f.fractionBits) :
    f.magnitude e m < 2 ^ f.fractionBits * 2 ^ e := by
  unfold magnitude
  split
  · next h => simpa [h] using hm
  · next h =>
    obtain ⟨e, rfl⟩ : ∃ k, e = k + 1 := ⟨e - 1, by omega⟩
    have hsum : 2 ^ f.fractionBits + m < 2 ^ f.fractionBits * 2 := by omega
    calc (2 ^ f.fractionBits + m) * 2 ^ (e + 1 - 1)
        < 2 ^ f.fractionBits * 2 * 2 ^ e := Nat.mul_lt_mul_of_pos_right hsum (Nat.two_pow_pos _)
      _ = 2 ^ f.fractionBits * 2 ^ (e + 1) := by ring

theorem magnitude_lt_of_exponent {e e' m m' : ℕ} (hm : m < 2 ^ f.fractionBits) (h : e < e') :
    f.magnitude e m < f.magnitude e' m' := by
  obtain ⟨d, rfl⟩ : ∃ k, e' = k + 1 := ⟨e' - 1, by omega⟩
  have hpow : 2 ^ e ≤ 2 ^ d := Nat.pow_le_pow_right (by omega) (by omega)
  calc f.magnitude e m < 2 ^ f.fractionBits * 2 ^ e := f.magnitude_lt_top hm
    _ ≤ (2 ^ f.fractionBits + m') * 2 ^ d := Nat.mul_le_mul (by omega) hpow
    _ = f.magnitude (d + 1) m' := by simp [magnitude]

theorem magnitude_lt_of_fraction (e : ℕ) {m m' : ℕ} (h : m < m') :
    f.magnitude e m < f.magnitude e m' := by
  unfold magnitude
  split
  · exact h
  · exact Nat.mul_lt_mul_of_pos_right (by omega) (Nat.two_pow_pos _)

theorem keyMagnitude_strictMono : StrictMono f.keyMagnitude := by
  intro k k' h
  have hpos : 0 < 2 ^ f.fractionBits := Nat.two_pow_pos _
  rcases Nat.lt_or_eq_of_le (Nat.div_le_div_right (c := 2 ^ f.fractionBits) h.le) with hdiv | hdiv
  · exact f.magnitude_lt_of_exponent (Nat.mod_lt _ hpos) hdiv
  · have hk := Nat.div_add_mod k (2 ^ f.fractionBits)
    have hk' := Nat.div_add_mod k' (2 ^ f.fractionBits)
    rw [keyMagnitude, keyMagnitude, hdiv]
    rw [hdiv] at hk
    exact f.magnitude_lt_of_fraction _ (by omega)

theorem exponent_le (x : ℕ) : f.exponent x ≤ f.maxExponent := by
  have := Nat.mod_lt (x / 2 ^ f.fractionBits) (Nat.two_pow_pos f.exponentBits)
  unfold exponent maxExponent
  omega

theorem sign_lt (x : ℕ) : f.sign x < 2 := Nat.mod_lt _ (by omega)

/-- The numbers are the bit patterns up to infinity. -/
theorem not_isNaN_iff (x : ℕ) : ¬f.IsNaN x ↔ f.key x ≤ f.topKey := by
  have he := f.exponent_le x
  have hf : f.fraction x < 2 ^ f.fractionBits := Nat.mod_lt _ (Nat.two_pow_pos _)
  rw [f.key_eq, topKey, IsNaN]
  constructor
  · intro h
    rcases Nat.lt_or_eq_of_le he with hlt | heq
    · have := Nat.mul_le_mul_right (2 ^ f.fractionBits) (Nat.succ_le_of_lt hlt)
      rw [Nat.succ_mul] at this
      omega
    · rw [heq]
      have : f.fraction x = 0 := by
        by_contra h0
        exact h ⟨heq, h0⟩
      omega
  · rintro h ⟨heq, h0⟩
    rw [heq] at h
    omega

/-- The value of a number, with infinity in the place after the largest finite number. -/
def rank (x : ℕ) : ℤ := signed (f.sign x) (f.keyMagnitude (f.key x))

theorem key_eq_topKey_iff (x : ℕ) :
    f.key x = f.topKey ↔ f.exponent x = f.maxExponent ∧ f.fraction x = 0 := by
  have hpos : 0 < 2 ^ f.fractionBits := Nat.two_pow_pos _
  constructor
  · intro h
    rw [← f.key_div, ← f.key_mod, h, topKey]
    exact ⟨Nat.mul_div_cancel _ hpos, Nat.mul_mod_left _ _⟩
  · rintro ⟨he, hf⟩
    rw [f.key_eq, he, hf, topKey, Nat.add_zero]

theorem decode_number {x : ℕ} (h : ¬f.IsNaN x) :
    f.decode x = some (if f.key x = f.topKey then if f.sign x = 1 then ⊥ else ⊤
      else (f.rank x : WithBot (WithTop ℤ))) := by
  by_cases ht : f.key x = f.topKey
  · obtain ⟨he, hf⟩ := (f.key_eq_topKey_iff x).mp ht
    simp [decode, he, hf, ht]
  · have he : f.exponent x ≠ f.maxExponent := by
      intro he
      have hf : ¬f.fraction x = 0 := fun hf => ht ((f.key_eq_topKey_iff x).mpr ⟨he, hf⟩)
      exact h ⟨he, hf⟩
    simp [decode, he, ht, rank, keyMagnitude, f.key_div, f.key_mod]

theorem decode_nan {x : ℕ} (h : f.IsNaN x) : f.decode x = none := by
  simp [decode, h.1, h.2]

theorem keyMagnitude_topKey_pos : 0 < f.keyMagnitude f.topKey := by
  have hexp := Nat.one_lt_two_pow f.exponent_pos.ne'
  have hpos : 0 < f.topKey :=
    Nat.mul_pos (by unfold maxExponent; omega) (Nat.two_pow_pos _)
  simpa [f.keyMagnitude_zero] using f.keyMagnitude_strictMono hpos

/-- A number is an infinity, at one end of the ranks, or finite and its own rank. -/
theorem decode_cases {x : ℕ} {u : WithBot (WithTop ℤ)} (hx : ¬f.IsNaN x)
    (hu : f.decode x = some u) :
    (u = ⊥ ∧ f.rank x = -f.keyMagnitude f.topKey) ∨
    (u = ⊤ ∧ f.rank x = f.keyMagnitude f.topKey) ∨
    (u = f.rank x ∧ -(f.keyMagnitude f.topKey : ℤ) < f.rank x ∧
      f.rank x < f.keyMagnitude f.topKey) := by
  rw [f.decode_number hx, Option.some.injEq] at hu
  by_cases ht : f.key x = f.topKey
  · by_cases hs : f.sign x = 1
    · exact .inl ⟨by simpa [ht, hs] using hu.symm, by simp [rank, signed, ht, hs]⟩
    · exact .inr (.inl ⟨by simpa [ht, hs] using hu.symm, by simp [rank, signed, ht, hs]⟩)
  · have hlt := f.keyMagnitude_strictMono
      (Nat.lt_of_le_of_ne ((f.not_isNaN_iff x).mp hx) ht)
    refine .inr (.inr ⟨by simpa [ht] using hu.symm, ?_⟩)
    unfold rank signed
    split <;> omega

section Compare

variable {f} {x y : ℕ} {u v : WithBot (WithTop ℤ)} (hx : ¬f.IsNaN x) (hy : ¬f.IsNaN y)
  (hu : f.decode x = some u) (hv : f.decode y = some v)

include hx hy hu hv

theorem decode_lt_of_rank_lt (h : f.rank x < f.rank y) : u < v := by
  have htop := f.keyMagnitude_topKey_pos
  rcases f.decode_cases hx hu with ⟨rfl, hx⟩ | ⟨rfl, hx⟩ | ⟨rfl, hx, hx'⟩ <;>
    rcases f.decode_cases hy hv with ⟨rfl, hy⟩ | ⟨rfl, hy⟩ | ⟨rfl, hy, hy'⟩
  · omega
  · exact bot_lt_top
  · exact WithBot.bot_lt_coe _
  · omega
  · omega
  · omega
  · omega
  · exact WithBot.coe_lt_coe.mpr (WithTop.coe_lt_top _)
  · exact WithBot.coe_lt_coe.mpr (WithTop.coe_lt_coe.mpr h)

theorem decode_eq_of_rank_eq (h : f.rank x = f.rank y) : u = v := by
  have htop := f.keyMagnitude_topKey_pos
  rcases f.decode_cases hx hu with ⟨rfl, hx⟩ | ⟨rfl, hx⟩ | ⟨rfl, hx, hx'⟩ <;>
    rcases f.decode_cases hy hv with ⟨rfl, hy⟩ | ⟨rfl, hy⟩ | ⟨rfl, hy, hy'⟩ <;>
    first | rfl | omega | rw [h]

/-- The order of two numbers is the order of their ranks. -/
theorem decode_compare :
    (u < v ↔ f.rank x < f.rank y) ∧ (u = v ↔ f.rank x = f.rank y) := by
  have hlt := decode_lt_of_rank_lt hx hy hu hv
  have hgt := decode_lt_of_rank_lt hy hx hv hu
  have heq := decode_eq_of_rank_eq hx hy hu hv
  rcases lt_trichotomy (f.rank x) (f.rank y) with h | h | h
  · exact ⟨iff_of_true (hlt h) h, iff_of_false (hlt h).ne h.ne⟩
  · exact ⟨iff_of_false (heq h).not_lt h.not_lt, iff_of_true (heq h) h⟩
  · exact ⟨iff_of_false (hgt h).not_gt h.not_gt, iff_of_false (hgt h).ne' h.ne'⟩

end Compare

/-- Not the negative zero. -/
def NotMinusZero (x : ℕ) : Prop := ¬(f.sign x = 1 ∧ f.key x = 0)

variable {f}

theorem rank_lt_iff {x y : ℕ} (hx : f.NotMinusZero x) (hy : f.NotMinusZero y) :
    f.rank x < f.rank y ↔ if f.sign x = f.sign y then
      if f.sign x = 1 then f.key y < f.key x else f.key x < f.key y else f.sign x = 1 := by
  have hlt : ∀ a b, f.keyMagnitude a < f.keyMagnitude b ↔ a < b :=
    fun a b => f.keyMagnitude_strictMono.lt_iff_lt
  have h0 := f.keyMagnitude_zero
  have hsx := f.sign_lt x
  have hsy := f.sign_lt y
  have hxy := hlt (f.key x) (f.key y)
  have hyx := hlt (f.key y) (f.key x)
  have hx0 := hlt 0 (f.key x)
  have hy0 := hlt 0 (f.key y)
  unfold rank signed
  unfold NotMinusZero at hx hy
  split <;> split <;> split <;> omega

theorem rank_eq_iff {x y : ℕ} (hx : f.NotMinusZero x) (hy : f.NotMinusZero y) :
    f.rank x = f.rank y ↔ f.sign x = f.sign y ∧ f.key x = f.key y := by
  have hinj : f.keyMagnitude (f.key x) = f.keyMagnitude (f.key y) ↔ f.key x = f.key y :=
    f.keyMagnitude_strictMono.injective.eq_iff
  have hsx := f.sign_lt x
  have hsy := f.sign_lt y
  have hx0 := f.keyMagnitude_strictMono.lt_iff_lt (a := 0) (b := f.key x)
  have hy0 := f.keyMagnitude_strictMono.lt_iff_lt (a := 0) (b := f.key y)
  rw [f.keyMagnitude_zero] at hx0 hy0
  unfold rank signed
  unfold NotMinusZero at hx hy
  split <;> split <;> omega

end Format

end AflPlusPlus.FloatFormats
