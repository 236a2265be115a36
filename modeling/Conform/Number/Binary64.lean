set_option autoImplicit false

/-!
# Finite binary64 numbers

A finite binary64 number is a sign and a multiple `mantissa * 2 ^ exponent` of the least positive
one, `2 ^ -1074`. Measured in that unit each of them is an integer, so that comparing two of them,
or one with an integer, needs no rational arithmetic. The two zeros differ as representations and
are equal as numbers.
-/
namespace Conform

/-- Each number has one representation: a mantissa below `2 ^ 52` comes with exponent zero. -/
structure Binary64 where
  negative : Bool
  mantissa : Nat
  exponent : Nat
  mantissa_lt : mantissa < Nat.pow 2 53
  normal : Nat.pow 2 52 ≤ mantissa ∨ exponent = 0
  exponent_le : exponent ≤ 2045
deriving DecidableEq

namespace Binary64

def one : Nat := Nat.pow 2 1074

def zero (negative : Bool) : Binary64 := ⟨negative, 0, 0, by decide, .inr rfl, by decide⟩

def magnitude (x : Binary64) : Nat := x.mantissa * Nat.pow 2 x.exponent

def units (x : Binary64) : Int := if x.negative then -(x.magnitude : Int) else x.magnitude

def equal (x y : Binary64) : Bool := x.units == y.units

/-- The integer nearest `num / den`; a half goes to the even neighbour. -/
def roundHalfEven (num den : Nat) : Nat :=
  let quotient := num / den
  let twice := 2 * (num % den)
  if twice < den then quotient
  else if den < twice then quotient + 1
  else quotient + quotient % 2

/-- Keeps 53 significant bits of `num / den`: the answer `(m, p)` stands for `m * 2 ^ p`, and `p`
is zero as long as the integer part fits. -/
def significand (num den : Nat) : Nat × Nat :=
  let shift := (num / den).log2 - 52
  (roundHalfEven num (den * Nat.pow 2 shift), shift)

/-- The representation of `mantissa * 2 ^ exponent` units, unless it is too large for one. A
mantissa that rounding has carried to `2 ^ 53` is halved first. -/
def ofParts? (negative : Bool) (mantissa exponent : Nat) : Option Binary64 :=
  let (m, p) :=
    if mantissa = Nat.pow 2 53 then (Nat.pow 2 52, exponent + 1) else (mantissa, exponent)
  if h : m < Nat.pow 2 53 ∧ (Nat.pow 2 52 ≤ m ∨ p = 0) ∧ p ≤ 2045 then
    some ⟨negative, m, p, h.1, h.2.1, h.2.2⟩
  else none

def nearest? (negative : Bool) (num den : Nat) : Option Binary64 :=
  let (m, p) := significand num den
  ofParts? negative m p

/-- The number nearest `digits * 10 ^ exponent`, or `none` if that is out of range. Far outside
the range on either side the power of ten is not computed. -/
def ofDecimal? (negative : Bool) (digits : Nat) (exponent : Int) : Option Binary64 :=
  let size := (Nat.toDigits 10 digits).length + exponent
  if digits = 0 ∨ size < -400 then some (zero negative)
  else if 400 < size then none
  else
    nearest? negative (digits * Nat.pow 10 exponent.toNat * one) (Nat.pow 10 (-exponent).toNat)

/-- The integer nearest to `n` among those with at most 53 significant bits. -/
def nearestInt (n : Int) : Int :=
  let (m, p) := significand n.natAbs 1
  n.sign * (m * Nat.pow 2 p : Nat)

def equalInt (x : Binary64) (n : Int) : Bool := x.units == nearestInt n * one

end Binary64
end Conform
