import Conform.Value.Basic

set_option autoImplicit false

namespace Conform.Value

mutual

def equal : Value → Value → Bool
  | null, null => true
  | bool a, bool b => a == b
  | number a, number b => a.equal b
  | string a, string b => a == b
  | array xs, array ys => equalItems xs ys
  | object xs, object ys => xs.length == ys.length && equalEntries xs ys
  | _, _ => false

def equalItems : List Value → List Value → Bool
  | [], [] => true
  | x :: xs, y :: ys => x.equal y && equalItems xs ys
  | _, _ => false

def equalEntries : List (String × Value) → List (String × Value) → Bool
  | [], _ => true
  | (name, x) :: xs, ys =>
    (match ys.lookup name with
      | some y => x.equal y
      | none => false) && equalEntries xs ys

end

/-- Equality with a literal, which compares an integer and a float only at its top. -/
def agrees : Value → Value → Bool
  | number a, number b => a.agrees b
  | a, b => a.equal b

end Conform.Value
