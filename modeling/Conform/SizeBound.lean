import Conform.Wording

set_option autoImplicit false

namespace Conform

inductive SizeBound where
  | atLeast
  | atMost
deriving DecidableEq

namespace SizeBound

def holds : SizeBound → Nat → Nat → Bool
  | atLeast, limit, n => limit ≤ n
  | atMost, limit, n => n ≤ limit

def label : SizeBound → String
  | atLeast => "Min"
  | atMost => "Max"

def defectKind : SizeBound → DefectKind
  | atLeast => .belowMinimum
  | atMost => .aboveMaximum

def description (b : SizeBound) (limit : Nat) : String := b.label ++ "(" ++ toString limit ++ ")"

def findings (b : SizeBound) (limit n : Nat) (w : Wording) : List Finding :=
  if b.holds limit n then [] else [⟨⟨[], b.defectKind, toString limit, .nat n⟩, w⟩]

end SizeBound
end Conform
