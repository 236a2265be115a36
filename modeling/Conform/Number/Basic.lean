import Conform.Number.Shortest

set_option autoImplicit false

namespace Conform

inductive Number where
  | int (n : Int)
  | float (x : Binary64)
deriving DecidableEq

namespace Number

def equal : Number → Number → Bool
  | int m, int n => m == n
  | float x, float y => x.equal y
  | _, _ => false

/-- Equality with a literal: an integer that meets a float is first rounded to a binary64. -/
def agrees : Number → Number → Bool
  | int n, float x => x.equalInt n
  | float x, int n => x.equalInt n
  | a, b => a.equal b

def units : Number → Int
  | int n => n * Binary64.one
  | float x => x.units

end Number

/-- Floats are written positionally while the exponent of their first digit is in this range, and
with an exponent outside it. -/
structure FloatLayout where
  least : Int
  greatest : Int

namespace FloatLayout

/-- Five zeros after the point and sixteen digits before it are the most that is written out. -/
def document : FloatLayout := ⟨-5, 15⟩

def positional (digits : List Char) (exponent : Int) : List Char :=
  if exponent < 0 then
    ['0', '.'] ++ List.replicate (-exponent - 1).toNat '0' ++ digits
  else
    let whole := exponent.toNat + 1
    let fraction := digits.drop whole
    digits.take whole ++ List.replicate (whole - digits.length) '0' ++
      '.' :: (if fraction.isEmpty then ['0'] else fraction)

def scientific (digits : List Char) (exponent : Int) : List Char :=
  let fraction := digits.drop 1
  digits.take 1 ++ (if fraction.isEmpty then [] else '.' :: fraction) ++
    'e' :: (if exponent < 0 then '-' else '+') :: Nat.toDigits 10 exponent.natAbs

def decimal (layout : FloatLayout) (d : Decimal) : List Char :=
  let written := Nat.toDigits 10 d.digits
  let exponent := d.exponent + written.length - 1
  let digits := (written.reverse.dropWhile (· == '0')).reverse
  if layout.least ≤ exponent ∧ exponent ≤ layout.greatest then positional digits exponent
  else scientific digits exponent

end FloatLayout

def Binary64.text (x : Binary64) : String :=
  let digits := if x.mantissa = 0 then ['0', '.', '0'] else FloatLayout.document.decimal x.shortest
  String.ofList (if x.negative then '-' :: digits else digits)

def Number.text : Number → String
  | .int n => toString n
  | .float x => x.text

end Conform
