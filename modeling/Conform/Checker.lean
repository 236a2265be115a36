import Conform.Schema.Findings
import Conform.Sequence.Source

set_option autoImplicit false

/-!
# Checkers

A checker is what a schema means for one type of input. Both of its answers depend on how often
each source may be drawn from: `examine` hands over the findings that are known by then, and
`accepts` the verdict. Either may have no answer yet. A source that must be counted withholds it
until the source has ended; from an endless one it never comes.
-/
namespace Conform

/-- `wording` words a finding that is made in place of a missing input. -/
structure Checker (α : Type) where
  description : String
  wording : Wording
  examine : α → Nat → Option (Delivery Finding)
  accepts : α → Nat → Option Bool

def Schema.checker (s : Schema) : Checker Value where
  description := s.description
  wording := s.wording
  examine v _ := some (.complete (s.findings v))
  accepts v _ := some (s.accepts v)

namespace Checker

variable {α : Type}

/-- A checker that accepts as soon as its findings have ended without one, and rejects with the
first of them. A message does not show outside of it. -/
def ofFindings (description : String) (examine : α → Nat → Option (Delivery Finding)) :
    Checker α where
  description := description
  wording := .standard
  examine := examine
  accepts x n := (examine x n).bind Delivery.isEmpty?

def eachDescription (c : Checker α) : String := "Iterable<" ++ c.description ++ ">"

def examineAt (c : Checker α) (n : Nat) (x : α × Nat) : Option (Delivery Finding) :=
  (c.examine x.1 n).map (.map (Finding.under (.index x.2)))

def eachItem (c : Checker α) : Checker (List α) :=
  ofFindings c.eachDescription fun items n =>
    some (.concat (items.zipIdx.map (c.examineAt n)))

/-- Every element of a source. What an element has handed over is handed on together, when its
stream has ended. -/
def eachDrawn (c : Checker α) : Checker (Source α) :=
  ofFindings c.eachDescription fun s n =>
    let drawn := s.draw n
    let streams := drawn.items.zipIdx.map fun x => (c.examineAt n x).filter Delivery.ended
    some ((Delivery.concat streams).append ⟨[], drawn.ended⟩)

def countItems (b : SizeBound) (limit : Nat) (w : Wording) : Checker (List α) :=
  ofFindings (b.description limit) fun items _ =>
    some (.complete (b.findings limit items.length w))

def countDrawn (b : SizeBound) (limit : Nat) (w : Wording) : Checker (Source α) :=
  ofFindings (b.description limit) fun s n =>
    let drawn := s.draw n
    if drawn.ended then some (.complete (b.findings limit drawn.items.length w)) else none

/-- Findings of both sides, left ones first, are handed over when both streams are there. The
verdict, though, does not wait for the right side after a rejection by the left one. -/
def both (l r : Checker α) (w : Wording) : Checker α where
  description := l.description ++ " & " ++ r.description
  wording := w.orElse l.wording
  examine x n := do
    let left ← l.examine x n
    let right ← r.examine x n
    some ((left.append right).map (Finding.reworded w))
  accepts x n := do
    if ← l.accepts x n then r.accepts x n else some false

end Checker
end Conform
