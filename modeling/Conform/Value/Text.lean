import Conform.Quoted
import Conform.Value.Basic

set_option autoImplicit false

namespace Conform.Value

mutual

def text : Value → String
  | null => "null"
  | bool b => if b then "true" else "false"
  | number n => n.text
  | string s => Quoted.write s
  | array items => "[" ++ String.intercalate "," (texts items) ++ "]"
  | object entries => "\x7b" ++ String.intercalate "," (entryTexts entries) ++ "\x7d"

def texts : List Value → List String
  | [] => []
  | x :: xs => x.text :: texts xs

def entryTexts : List (String × Value) → List String
  | [] => []
  | (name, x) :: es => (Quoted.write name ++ ":" ++ x.text) :: entryTexts es

end

/-- The text within a sentence: a string stands in single quotes as it is, anything else as its
text. -/
def shown : Value → String
  | string s => "'" ++ s ++ "'"
  | v => v.text

def bare : Value → String
  | string s => s
  | v => v.text

end Conform.Value
