import Conform.Number.Basic

set_option autoImplicit false

namespace Conform.Number

def digits (cs : List Char) : List Char × List Char :=
  (cs.takeWhile Char.isDigit, cs.dropWhile Char.isDigit)

def decimalValue (cs : List Char) : Nat :=
  cs.foldl (fun n c => 10 * n + (c.toNat - '0'.toNat)) 0

def splitSign : List Char → Bool × List Char
  | '-' :: cs => (true, cs)
  | cs => (false, cs)

/-- The digits after a point, or `none` if a point stands without digits. -/
def fraction? : List Char → Option (List Char × List Char)
  | '.' :: cs => if (digits cs).1.isEmpty then none else some (digits cs)
  | cs => some ([], cs)

def exponent? : List Char → Option Int
  | [] => some 0
  | e :: cs =>
    let (negative, cs) := match cs with
      | '+' :: cs => (false, cs)
      | cs => splitSign cs
    let (ds, rest) := digits cs
    if (e = 'e' ∨ e = 'E') ∧ !ds.isEmpty ∧ rest.isEmpty then
      some (if negative then -(decimalValue ds : Int) else decimalValue ds)
    else none

def integer? (negative : Bool) (n : Nat) : Option Number :=
  if negative then if 0 < n ∧ n ≤ Nat.pow 2 63 then some (int (-(n : Int))) else none
  else if n < Nat.pow 2 64 then some (int n) else none

def ofChars? (cs : List Char) : Option Number := do
  let (negative, cs) := splitSign cs
  let (whole, rest) := digits cs
  if whole.isEmpty ∨ (whole.head? = some '0' ∧ whole.length ≠ 1) then none
  let plain := if rest.isEmpty then integer? negative (decimalValue whole) else none
  match plain with
  | some n => some n
  | none =>
    let (fraction, rest) ← fraction? rest
    let exponent ← exponent? rest
    let x ← Binary64.ofDecimal? negative (decimalValue (whole ++ fraction))
      (exponent - fraction.length)
    some (float x)

end Conform.Number
