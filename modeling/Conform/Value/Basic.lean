import Conform.Number.Basic

set_option autoImplicit false

namespace Conform

inductive Category where
  | string
  | number
  | boolean
  | null
  | array
  | object
deriving DecidableEq

namespace Category

def name : Category → String
  | string => "string"
  | number => "number"
  | boolean => "boolean"
  | null => "null"
  | array => "array"
  | object => "object"

def all : List Category := [string, number, boolean, null, array, object]

def ofName? (name : String) : Option Category := all.find? (·.name = name)

@[simp]
theorem ofName?_name (c : Category) : ofName? c.name = some c := by cases c <;> rfl

end Category

inductive Value where
  | null
  | bool (b : Bool)
  | number (n : Number)
  | string (s : String)
  | array (items : List Value)
  | object (entries : List (String × Value))

namespace Value

def category : Value → Category
  | null => .null
  | bool _ => .boolean
  | number _ => .number
  | string _ => .string
  | array _ => .array
  | object _ => .object

def nat (n : Nat) : Value := number (.int n)

/-- What an iteration meets: the items of an array, or the characters of a string, each as a
string of its own. Other values cannot be iterated over. -/
def elements? : Value → Option (List Value)
  | array items => some items
  | string s => some (s.toList.map fun c => string c.toString)
  | _ => none

end Value
end Conform
