import Conform.Number.Binary64

set_option autoImplicit false

/-!
# Shortest decimals

The text of a binary64 number has the fewest significant digits that read back to it; of the
decimals with that many digits it is the nearest, and of two equally near ones the even one. The
search works on the interval of reals that round to the number. It tries the decimal grids with one
digit, two digits and so on; on each grid only the two neighbours of the number can be the nearest
point, so only they are tested.
-/
namespace Conform

structure Decimal where
  digits : Nat
  exponent : Int
deriving DecidableEq

/-- The reals that round to a positive number `middle`, in quarters of the binary64 unit. The ends
belong to it if the mantissa is even. -/
structure RoundingInterval where
  low : Nat
  middle : Nat
  high : Nat
  closed : Bool

namespace RoundingInterval

/-- The gap below a power of two is half the gap above it. -/
def ofBinary64 (x : Binary64) : RoundingInterval :=
  let gap := Nat.pow 2 x.exponent
  let below := if x.mantissa = Nat.pow 2 52 ∧ x.exponent ≠ 0 then gap else 2 * gap
  let middle := 4 * x.magnitude
  ⟨middle - below, middle, middle + 2 * gap, x.mantissa % 2 == 0⟩

def one : Nat := 4 * Binary64.one

def scaled (digits : Nat) (exponent : Int) : Nat := digits * Nat.pow 10 exponent.toNat * one

def scaledBound (bound : Nat) (exponent : Int) : Nat := bound * Nat.pow 10 (-exponent).toNat

def contains (i : RoundingInterval) (d : Decimal) : Bool :=
  let point := scaled d.digits d.exponent
  let low := scaledBound i.low d.exponent
  let high := scaledBound i.high d.exponent
  if i.closed then low ≤ point && point ≤ high else low < point && point < high

def onGrid? (i : RoundingInterval) (exponent : Int) : Option Decimal :=
  let middle := scaledBound i.middle exponent
  let below := middle / scaled 1 exponent
  let lower : Decimal := ⟨below, exponent⟩
  let upper : Decimal := ⟨below + 1, exponent⟩
  match i.contains lower, i.contains upper with
  | true, false => some lower
  | false, true => some upper
  | true, true =>
    let halfway := scaled (2 * below + 1) exponent
    if 2 * middle < halfway then some lower
    else if halfway < 2 * middle then some upper
    else some ⟨below + below % 2, exponent⟩
  | false, false => none

/-- The `e` with `10 ^ (e - 1) ≤ middle < 10 ^ e`; the least number exceeds `10 ^ -324`. -/
def decimalSize (i : RoundingInterval) : Int :=
  (Nat.toDigits 10 (i.middle * Nat.pow 10 324 / one)).length - 324

/-- Seventeen digits always suffice, and the exact value, which has finitely many digits, stands
behind them. -/
def shortest (i : RoundingInterval) : Decimal :=
  let size := i.decimalSize
  let found := (List.range 17).findSome? fun (n : Nat) => i.onGrid? (size - (n + 1))
  found.getD ⟨i.middle * Nat.pow 5 1076, -1076⟩

end RoundingInterval

def Binary64.shortest (x : Binary64) : Decimal := (RoundingInterval.ofBinary64 x).shortest

end Conform
