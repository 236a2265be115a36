set_option autoImplicit false

namespace Conform

inductive Segment where
  | index (i : Nat)
  | key (name : String)
deriving DecidableEq

def Segment.text : Segment → String
  | index i => toString i
  | key name => name

abbrev Path := List Segment

def Path.text (p : Path) : String := String.intercalate "." (p.map Segment.text)

end Conform
