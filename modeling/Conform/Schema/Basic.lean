import Conform.SizeBound
import Conform.Table

set_option autoImplicit false

namespace Conform

/-- `tuple` asks for a value at each position and leaves further ones alone. `fields` checks the
declared names that are present; of several declarations of a name the last one counts, at the
place of the first. `each` and `size` take arrays and strings alike. -/
inductive Schema where
  | category (c : Category) (w : Wording)
  | literal (l : Value) (w : Wording)
  | anyArray (w : Wording)
  | arrayOf (element : Schema) (w : Wording)
  | tuple (positions : List Schema) (w : Wording)
  | record (key value : Schema) (w : Wording)
  | fields (declarations : List (String × Schema)) (w : Wording)
  | each (element : Schema) (w : Wording)
  | size (b : SizeBound) (limit : Nat) (w : Wording)
  | anyOf (branches : List Schema) (w : Wording)
  | both (left right : Schema) (w : Wording)

namespace Schema

def oneOf (literals : List Value) : Schema :=
  anyOf (literals.map fun l => literal l .standard) .standard

def declare (s : Schema) (name : String) (field : Schema) : Schema :=
  match s with
  | fields ds w => fields (ds ++ [(name, field)]) w
  | s => s

def names : Schema → List String
  | fields ds _ => (Table.ofList ds).names
  | _ => []

def withMessage (m : Message) : Schema → Schema
  | category c _ => category c (.custom m)
  | literal l _ => literal l (.custom m)
  | anyArray _ => anyArray (.custom m)
  | arrayOf e _ => arrayOf e (.custom m)
  | tuple ps _ => tuple ps (.custom m)
  | record k e _ => record k e (.custom m)
  | fields ds _ => fields ds (.custom m)
  | each e _ => each e (.custom m)
  | size b n _ => size b n (.custom m)
  | anyOf bs _ => anyOf bs (.custom m)
  | both l r _ => both l r (.custom m)

/-- The wording of what the root finds. An intersection finds nothing itself and, without a
message, speaks with the wording of its left side. -/
def wording : Schema → Wording
  | category _ w | literal _ w | anyArray w | arrayOf _ w | tuple _ w | record _ _ w
  | fields _ w | each _ w | size _ _ w | anyOf _ w => w
  | both l _ w => w.orElse l.wording

@[simp]
theorem wording_withMessage (s : Schema) (m : Message) :
    (s.withMessage m).wording = .custom m := by
  cases s <;> rfl

end Schema
end Conform
