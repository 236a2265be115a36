import Conform.Number.Reader
import Conform.Table
import Conform.Value.Basic

set_option autoImplicit false

/-!
# Reading documents

A text is read in two passes, each a machine that takes one step per symbol: characters become
tokens, and tokens become a value. The second machine keeps a stack of the arrays and objects that
are still open. A name that an object repeats stands for its last entry.
-/
namespace Conform.Reader

inductive Token where
  | openArray
  | closeArray
  | openObject
  | closeObject
  | comma
  | colon
  | text (s : String)
  | word (cs : List Char)

/-- Where the scanner stands: between tokens, in a bare word, or in a quoted text, there perhaps
after a backslash or among the digits of a character number. -/
inductive Position where
  | between
  | word
  | text
  | escape
  | code (value count : Nat)

/-- Collected characters and tokens stand in reverse. `high` holds the first half of a surrogate
pair until the second has been read. -/
structure Scanner where
  position : Position := .between
  collected : List Char := []
  high : Option Nat := none
  tokens : List Token := []

namespace Scanner

def punctuation? : Char → Option Token
  | '[' => some .openArray
  | ']' => some .closeArray
  | '\x7b' => some .openObject
  | '\x7d' => some .closeObject
  | ',' => some .comma
  | ':' => some .colon
  | _ => none

def isBlank (c : Char) : Bool := c = ' ' || c = '\n' || c = '\r' || c = '\t'

def push (s : Scanner) (t : Token) : Scanner := ⟨.between, [], none, t :: s.tokens⟩

def flush (s : Scanner) : Scanner :=
  match s.position with
  | .word => s.push (.word s.collected.reverse)
  | _ => s

def plain (s : Scanner) (c : Char) : Option Scanner :=
  if c = '"' then some { s.flush with position := .text }
  else if isBlank c then some s.flush
  else match punctuation? c with
    | some t => some (s.flush.push t)
    | none => some { s with position := .word, collected := c :: s.collected }

def collect (s : Scanner) (c : Char) : Option Scanner :=
  if s.high.isSome then none
  else some { s with position := .text, collected := c :: s.collected }

def escaped? : Char → Option Char
  | '"' => some '"'
  | '\\' => some '\\'
  | '/' => some '/'
  | 'b' => some '\x08'
  | 'f' => some '\x0c'
  | 'n' => some '\n'
  | 'r' => some '\r'
  | 't' => some '\t'
  | _ => none

def hexDigit? (c : Char) : Option Nat :=
  if '0' ≤ c ∧ c ≤ '9' then some (c.toNat - '0'.toNat)
  else if 'a' ≤ c ∧ c ≤ 'f' then some (c.toNat - 'a'.toNat + 10)
  else if 'A' ≤ c ∧ c ≤ 'F' then some (c.toNat - 'A'.toNat + 10)
  else none

/-- A character given by number. A number in the range of surrogates is half of one, and the two
halves come one directly after the other. -/
def collectCode (s : Scanner) (n : Nat) : Option Scanner :=
  if 0xD800 ≤ n ∧ n < 0xDC00 then
    if s.high.isSome then none else some { s with position := .text, high := some n }
  else if 0xDC00 ≤ n ∧ n < 0xE000 then do
    let high ← s.high
    let c := Char.ofNat (0x10000 + (high - 0xD800) * 0x400 + (n - 0xDC00))
    some { s with position := .text, collected := c :: s.collected, high := none }
  else s.collect (Char.ofNat n)

def step (s : Scanner) (c : Char) : Option Scanner :=
  match s.position with
  | .between | .word => s.plain c
  | .text =>
    if c = '"' then
      if s.high.isSome then none else some (s.push (.text (String.ofList s.collected.reverse)))
    else if c = '\\' then some { s with position := .escape }
    else if c.toNat < 0x20 then none
    else s.collect c
  | .escape =>
    if c = 'u' then some { s with position := .code 0 0 } else escaped? c >>= s.collect
  | .code value count => do
    let d ← hexDigit? c
    let value := 16 * value + d
    if count = 3 then s.collectCode value else some { s with position := .code value (count + 1) }

end Scanner

def tokens? (cs : List Char) : Option (List Token) := do
  let s ← cs.foldlM Scanner.step {}
  match s.position with
  | .between | .word => some s.flush.tokens.reverse
  | _ => none

/-- An open array with its items, or an open object with its entries and the name whose value
comes next; both in reverse. -/
inductive Frame where
  | array (items : List Value)
  | object (entries : List (String × Value)) (name : String)

/-- What may come next, given the open frames. Just after an opening bracket its closing one may;
`nextName` waits for a name after a comma, and `colon` for the mark after a name. -/
inductive Builder where
  | value (stack : List Frame)
  | firstItem (stack : List Frame)
  | firstName (stack : List Frame)
  | nextName (entries : List (String × Value)) (stack : List Frame)
  | colon (frame : Frame) (stack : List Frame)
  | after (frame : Frame) (stack : List Frame)
  | done (v : Value)

namespace Builder

def put (v : Value) : List Frame → Builder
  | [] => done v
  | .array items :: stack => after (.array (v :: items)) stack
  | .object entries name :: stack => after (.object ((name, v) :: entries) name) stack

def scalar? (cs : List Char) : Option Value :=
  if cs = "null".toList then some .null
  else if cs = "true".toList then some (.bool true)
  else if cs = "false".toList then some (.bool false)
  else (Number.ofChars? cs).map .number

def start (stack : List Frame) : Token → Option Builder
  | .openArray => some (firstItem stack)
  | .openObject => some (firstName stack)
  | .text s => some (put (.string s) stack)
  | .word cs => (scalar? cs).map (put · stack)
  | _ => none

def step : Builder → Token → Option Builder
  | value stack, t => start stack t
  | firstItem stack, .closeArray => some (put (.array []) stack)
  | firstItem stack, t => start (.array [] :: stack) t
  | firstName stack, .closeObject => some (put (.object []) stack)
  | firstName stack, .text s => some (colon (.object [] s) stack)
  | nextName entries stack, .text s => some (colon (.object entries s) stack)
  | colon frame stack, .colon => some (value (frame :: stack))
  | after (.array items) stack, .comma => some (value (.array items :: stack))
  | after (.array items) stack, .closeArray => some (put (.array items.reverse) stack)
  | after (.object entries _) stack, .comma => some (nextName entries stack)
  | after (.object entries _) stack, .closeObject =>
    some (put (.object (Table.ofList entries.reverse).entries) stack)
  | _, _ => none

end Builder
end Reader

def Value.ofText? (text : String) : Option Value := do
  match ← (← Reader.tokens? text.toList).foldlM Reader.Builder.step (.value []) with
  | .done v => some v
  | _ => none

end Conform
