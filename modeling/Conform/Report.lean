import Conform.Checker

set_option autoImplicit false

namespace Conform

structure Violation extends Defect where
  message : String

def Finding.violation (f : Finding) : Violation := ⟨f.toDefect, f.message⟩

structure Report where
  valid : Bool
  violations : List Violation

namespace Report

def passed : Report := ⟨true, []⟩

def failed (violations : List Violation) : Report := ⟨false, violations⟩

def ofFindings (fs : List Finding) : Report :=
  if fs.isEmpty then passed else failed (fs.map Finding.violation)

def messages (r : Report) : List String := r.violations.map Violation.message

end Report

structure Refusal where
  message : String
  path : Path
  kind : DefectKind

def Finding.refusal (f : Finding) : Refusal := ⟨f.message, f.path, f.kind⟩

inductive Event where
  | refused (path : Path) (kind : DefectKind) (description : String)
  | reported (description : String) (violations : Nat)

namespace Event

def level : Event → String
  | refused .. => "DEBUG"
  | reported .. => "TRACE"

def fields : Event → List (String × String)
  | refused path kind description =>
    [("message", "assertion failed"), ("path", path.text), ("kind", kind.label),
      ("validator", description)]
  | reported description violations =>
    [("message", "report complete"), ("violations", toString violations),
      ("validator", description)]

end Event

structure Logged (α : Type) where
  value : α
  events : List Event

namespace Checker

variable {α : Type}

/-- Refuses the input with its first finding, as soon as that is known. -/
def ensure (c : Checker α) (x : α) (n : Nat) : Option (Logged (Except Refusal Unit)) := do
  let d ← c.examine x n
  match d.items with
  | f :: _ => some ⟨.error f.refusal, [.refused f.path f.kind c.description]⟩
  | [] => if d.ended then some ⟨.ok (), []⟩ else none

/-- Reports on the input, as soon as all findings are known. -/
def report (c : Checker α) (x : α) (n : Nat) : Option (Logged Report) := do
  let d ← c.examine x n
  if d.ended then
    some ⟨.ofFindings d.items, [.reported c.description d.items.length]⟩
  else none

end Checker
end Conform
