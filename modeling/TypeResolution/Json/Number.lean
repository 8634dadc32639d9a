/-
# JSON numbers

A number is an integer only if it is written without fraction and exponent and fits into 64
bits; the sign of a negative zero and whatever lies outside the 64 bits make it a real number,
of which nothing more is kept than whether it is in the range of doubles.

The range is that of one multiplication in double precision. The digits are gathered into a
significand of 64 bits, and what they leave out goes into a power of ten; the significand and
the power are each rounded to a double, and the number is too large if their product is beyond
all finite doubles. The double that is nearest to the number itself does not decide: where it
is the largest one, the product may be in range or out of it.

Key definitions: `Number`, `nearestDouble`, `Decimal`, `Decimal.ofDigits`,
`Decimal.isTooLarge`, `Number.ofDigits`.
Key theorems: `nearestDouble_of_lt`, `two_mul_nearestDouble_le`, `two_mul_le_nearestDouble`,
`gather_lt`.
-/
import TypeResolution.Numeral

namespace TypeResolution
namespace Json

/-- A number. -/
inductive Number where
  /-- An integer from `-2 ^ 63` to `2 ^ 64 - 1`. -/
  | integer (n : Int)
  /-- A number that is no such integer. -/
  | real
  /-- A number out of the range of doubles. -/
  | tooLarge
deriving DecidableEq, Inhabited

/-! ### Doubles -/

/-- The distance of the doubles around `n` from each other: they have 53 binary digits. -/
def doubleSpacing (n : Nat) : Nat := 1 <<< (Nat.log2 n - 52)

/-- The multiple of `unit` that is nearest to `n`; of two the even one. -/
def roundTo (unit n : Nat) : Nat :=
  let below := n / unit
  let rest := n % unit
  (if unit < 2 * rest ∨ (unit = 2 * rest ∧ below % 2 = 1) then below + 1 else below) * unit

/-- The double that is nearest to `n`, as if there were no largest one. -/
def nearestDouble (n : Nat) : Nat := roundTo (doubleSpacing n) n

/-- The least number that is rounded beyond all finite doubles: it lies half a spacing above
the largest one. -/
def overflowThreshold : Nat := 1 <<< 1024 - 1 <<< 970

/-! ### Decimal digits -/

/-- The number `significand * 10 ^ exponent`. -/
structure Decimal where
  significand : Nat
  exponent : Int
deriving DecidableEq

/-- Significands stay below this bound. -/
def significandBound : Nat := UInt64.size

/-- Appends digits to a significand up to the first one that does not fit, and counts the
digits that are left. -/
def gather (significand : Nat) : List Char → Nat × Nat
  | [] => (significand, 0)
  | d :: ds =>
    let next := 10 * significand + digitValue d
    if next < significandBound then gather next ds else (significand, ds.length + 1)

namespace Decimal

/-- The number that digits before and behind a point and an exponent write. Every digit left
before the point multiplies by ten, every digit gathered behind it divides by ten, and those
left behind it are dropped. -/
def ofDigits (whole fraction : List Char) (exponent : Int) : Decimal :=
  let (significand, left) := gather 0 whole
  let (significand, dropped) := gather significand fraction
  ⟨significand, exponent + left - (fraction.length - dropped : Nat)⟩

/-- The powers of ten up to this one are finite doubles. -/
def maxExponent : Int := 308

/-- Whether a number is out of the range of doubles. Dividing never leads out of it. -/
def isTooLarge (d : Decimal) : Bool :=
  if d.exponent < 0 ∨ d.significand = 0 then false
  else if maxExponent < d.exponent then true
  else
    overflowThreshold ≤ nearestDouble d.significand * nearestDouble (Nat.pow 10 d.exponent.toNat)

end Decimal

/-- The number that digits write, with a fraction and an exponent if there are any. -/
def Number.ofDigits (negative : Bool) (whole : List Char) (fraction : Option (List Char))
    (exponent : Option Int) : Number :=
  let d := Decimal.ofDigits whole (fraction.getD []) (exponent.getD 0)
  if fraction.isNone ∧ exponent.isNone ∧ d.exponent = 0 then
    if negative then
      if 0 < d.significand ∧ d.significand ≤ UInt64.size / 2 then .integer (-d.significand)
      else .real
    else .integer d.significand
  else if d.isTooLarge then .tooLarge
  else .real

/-! ### Laws of rounding -/

theorem doubleSpacing_pos (n : Nat) : 0 < doubleSpacing n := by
  rw [doubleSpacing, Nat.shiftLeft_eq, Nat.one_mul]
  exact Nat.two_pow_pos _

@[simp] theorem roundTo_one (n : Nat) : roundTo 1 n = n := by simp [roundTo, Nat.mod_one]

/-- Numbers of 53 binary digits are doubles themselves. -/
theorem nearestDouble_of_lt {n : Nat} (h : n < 1 <<< 53) : nearestDouble n = n := by
  have hl : Nat.log2 n - 52 = 0 := by
    by_cases hn : n = 0
    · simp [hn]
    · rw [Nat.shiftLeft_eq, Nat.one_mul] at h
      have := (Nat.log2_lt hn).2 h
      omega
  simp [nearestDouble, doubleSpacing, hl]

/-- A rounded number is at most half a unit too large. -/
theorem two_mul_roundTo_le (unit n : Nat) : 2 * roundTo unit n ≤ 2 * n + unit := by
  have h := Nat.div_add_mod n unit
  have hc : n / unit * unit = unit * (n / unit) := Nat.mul_comm ..
  unfold roundTo
  dsimp only
  split
  · rw [Nat.add_mul]
    omega
  · omega

/-- A rounded number is at most half a unit too small. -/
theorem two_mul_le_roundTo {unit : Nat} (n : Nat) (hu : 0 < unit) :
    2 * n ≤ 2 * roundTo unit n + unit := by
  have h := Nat.div_add_mod n unit
  have hr := Nat.mod_lt n hu
  have hc : n / unit * unit = unit * (n / unit) := Nat.mul_comm ..
  unfold roundTo
  dsimp only
  split
  · rw [Nat.add_mul]
    omega
  · omega

theorem two_mul_nearestDouble_le (n : Nat) : 2 * nearestDouble n ≤ 2 * n + doubleSpacing n :=
  two_mul_roundTo_le _ n

theorem two_mul_le_nearestDouble (n : Nat) : 2 * n ≤ 2 * nearestDouble n + doubleSpacing n :=
  two_mul_le_roundTo n (doubleSpacing_pos n)

/-- What has been gathered fits. -/
theorem gather_lt {significand : Nat} (h : significand < significandBound) (ds : List Char) :
    (gather significand ds).1 < significandBound := by
  induction ds generalizing significand with
  | nil => exact h
  | cons d ds ih =>
    unfold gather
    dsimp only
    split
    · rename_i hn
      exact ih hn
    · exact h

end Json
end TypeResolution
