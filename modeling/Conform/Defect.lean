import Conform.Path
import Conform.Value.Text

set_option autoImplicit false

namespace Conform

inductive DefectKind where
  | typeMismatch
  | equalityMismatch
  | shapeMismatch
  | disjunctionMismatch
  | belowMinimum
  | aboveMaximum
deriving DecidableEq

namespace DefectKind

def name : DefectKind → String
  | typeMismatch => "type_mismatch"
  | equalityMismatch => "equality_mismatch"
  | shapeMismatch => "shape_mismatch"
  | disjunctionMismatch => "disjunction_mismatch"
  | belowMinimum => "below_minimum"
  | aboveMaximum => "above_maximum"

/-- The name in a log. -/
def label : DefectKind → String
  | typeMismatch => "TypeMismatch"
  | equalityMismatch => "EqualityMismatch"
  | shapeMismatch => "ShapeMismatch"
  | disjunctionMismatch => "DisjunctionMismatch"
  | belowMinimum => "BelowMinimum"
  | aboveMaximum => "AboveMaximum"

def all : List DefectKind :=
  [typeMismatch, equalityMismatch, shapeMismatch, disjunctionMismatch, belowMinimum, aboveMaximum]

def ofName? (name : String) : Option DefectKind := all.find? (·.name = name)

@[simp]
theorem ofName?_name (k : DefectKind) : ofName? k.name = some k := by cases k <;> rfl

end DefectKind

/-- The path starts where the check that found the defect was applied. -/
structure Defect where
  path : Path
  kind : DefectKind
  expected : String
  actual : Value

namespace Defect

/-- A value of the wrong category for a check that has to look inside. -/
def shape (expected : String) (v : Value) : Defect :=
  ⟨[], .shapeMismatch, expected, .string v.category.name⟩

def under (s : Segment) (d : Defect) : Defect := { d with path := s :: d.path }

def isRoot (d : Defect) : Bool := d.path.isEmpty

def summary (d : Defect) : String :=
  match d.kind with
  | .typeMismatch | .shapeMismatch => "should be " ++ d.expected ++ " but " ++ d.actual.bare
  | .equalityMismatch | .disjunctionMismatch =>
    "should be " ++ d.expected ++ " but " ++ d.actual.shown
  | .belowMinimum =>
    "should be greater than or equal to " ++ d.expected ++ " but " ++ d.actual.text
  | .aboveMaximum => "should be less than or equal to " ++ d.expected ++ " but " ++ d.actual.text

/-- The defect in words, preceded by its place unless that is the root. -/
def sentence (d : Defect) : String :=
  if d.path.isEmpty then d.summary else "'" ++ d.path.text ++ "' " ++ d.summary

end Defect
end Conform
