import Conform.Checker

set_option autoImplicit false

namespace Conform

inductive SequenceSchema (ε : Type) where
  | each (element : ε) (w : Wording)
  | size (b : SizeBound) (limit : Nat) (w : Wording)
  | both (left right : SequenceSchema ε) (w : Wording)

namespace SequenceSchema

variable {ε α : Type}

def withMessage (m : Message) : SequenceSchema ε → SequenceSchema ε
  | each e _ => each e (.custom m)
  | size b n _ => size b n (.custom m)
  | both l r _ => both l r (.custom m)

def onList (element : ε → Checker α) : SequenceSchema ε → Checker (List α)
  | each e _ => (element e).eachItem
  | size b limit w => .countItems b limit w
  | both l r w => (l.onList element).both (r.onList element) w

def onSource (element : ε → Checker α) : SequenceSchema ε → Checker (Source α)
  | each e _ => (element e).eachDrawn
  | size b limit w => .countDrawn b limit w
  | both l r w => (l.onSource element).both (r.onSource element) w

def toSchema (element : ε → Schema) : SequenceSchema ε → Schema
  | each e w => .each (element e) w
  | size b limit w => .size b limit w
  | both l r w => .both (l.toSchema element) (r.toSchema element) w

@[simp]
theorem toSchema_withMessage (element : ε → Schema) (o : SequenceSchema ε) (m : Message) :
    (o.withMessage m).toSchema element = (o.toSchema element).withMessage m := by
  cases o <;> rfl

end SequenceSchema
end Conform
