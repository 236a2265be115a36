import Conform.Schema.Basic
import Conform.Value.Equality

set_option autoImplicit false

namespace Conform.Schema

mutual

def accepts : Schema → Value → Bool
  | category c _, v => v.category == c
  | literal l _, v => v.agrees l
  | anyArray _, v => v.category == .array
  | arrayOf e _, .array items => items.all e.accepts
  | tuple ps _, .array items => acceptsItems ps items
  | record k e _, .object entries =>
    entries.all fun (name, x) => k.accepts (.string name) && e.accepts x
  | fields ds _, .object entries =>
    (Table.ofList (fieldTests ds)).entries.all fun (name, test) => (entries.lookup name).all test
  | each e _, v => v.elements?.any fun items => items.all e.accepts
  | size b limit _, v => v.elements?.any fun items => b.holds limit items.length
  | anyOf bs _, v => acceptsAny bs v
  | both l r _, v => l.accepts v && r.accepts v
  | _, _ => false

def acceptsItems : List Schema → List Value → Bool
  | [], _ => true
  | _ :: _, [] => false
  | p :: ps, x :: xs => p.accepts x && acceptsItems ps xs

def acceptsAny : List Schema → Value → Bool
  | [], _ => false
  | b :: bs, v => b.accepts v || acceptsAny bs v

def fieldTests : List (String × Schema) → List (String × (Value → Bool))
  | [] => []
  | (name, s) :: ds => (name, s.accepts) :: fieldTests ds

end

@[simp]
theorem acceptsAny_eq_any (bs : List Schema) (v : Value) :
    acceptsAny bs v = bs.any fun b => b.accepts v := by
  induction bs with
  | nil => rfl
  | cons b bs ih => simp [acceptsAny, ih]

@[simp]
theorem fieldTests_eq_map (ds : List (String × Schema)) :
    fieldTests ds = ds.map (Prod.map id accepts) := by
  induction ds with
  | nil => rfl
  | cons d ds ih => simp [fieldTests, ih, Prod.map]

end Conform.Schema
