import Conform.Report

set_option autoImplicit false

namespace Conform

namespace Value

def components? (names : List String) : Value → Option (List Value)
  | object entries => names.mapM fun name => entries.lookup name
  | array items => if items.length = names.length then some items else none
  | _ => none

/-- A choice among names is the name itself, or an object that has it as its only key and nothing
to go with it. -/
def choice? : Value → Option String
  | string name => some name
  | object [(name, null)] => some name
  | _ => none

def string? : Value → Option String
  | string s => some s
  | _ => none

def bool? : Value → Option Bool
  | bool b => some b
  | _ => none

def array? : Value → Option (List Value)
  | array items => some items
  | _ => none

end Value

def Category.toValue (c : Category) : Value := .string c.name

def Category.ofValue? (v : Value) : Option Category := v.choice?.bind Category.ofName?

def DefectKind.toValue (k : DefectKind) : Value := .string k.name

def DefectKind.ofValue? (v : Value) : Option DefectKind := v.choice?.bind DefectKind.ofName?

namespace Segment

def toValue : Segment → Value
  | index i => .nat i
  | key name => .string name

def ofValue? : Value → Option Segment
  | .number (.int (.ofNat i)) => some (index i)
  | .string name => some (key name)
  | _ => none

end Segment

namespace Path

def toValue (p : Path) : Value := .array (p.map Segment.toValue)

def ofValue? (v : Value) : Option Path := do (← v.array?).mapM Segment.ofValue?

end Path

namespace Defect

def fields (d : Defect) : List (String × Value) :=
  [("instancePath", Path.toValue d.path), ("kind", d.kind.toValue),
    ("expected", .string d.expected), ("actual", d.actual)]

def toValue (d : Defect) : Value := .object d.fields

end Defect

namespace Violation

def toValue (x : Violation) : Value := .object (x.fields ++ [("message", .string x.message)])

def ofValue? (v : Value) : Option Violation := do
  match ← v.components? ["instancePath", "kind", "expected", "actual", "message"] with
  | [path, kind, expected, actual, message] =>
    let path ← Path.ofValue? path
    let kind ← DefectKind.ofValue? kind
    let expected ← expected.string?
    let message ← message.string?
    some ⟨⟨path, kind, expected, actual⟩, message⟩
  | _ => none

def equal (x y : Violation) : Bool :=
  x.path == y.path && x.kind == y.kind && x.expected == y.expected && x.actual.equal y.actual &&
    x.message == y.message

end Violation

namespace Report

def toValue (r : Report) : Value :=
  .object [("valid", .bool r.valid), ("violations", .array (r.violations.map Violation.toValue))]

/-- The two fields are taken as they are, even if they contradict each other. -/
def ofValue? (v : Value) : Option Report := do
  match ← v.components? ["valid", "violations"] with
  | [valid, violations] =>
    let valid ← valid.bool?
    let violations ← (← violations.array?).mapM Violation.ofValue?
    some ⟨valid, violations⟩
  | _ => none

end Report
end Conform
