import Conform.Defect

set_option autoImplicit false

namespace Conform

/-- A computed message is applied last, when the path is complete. -/
inductive Message where
  | fixed (text : String)
  | computed (text : Defect → String)

namespace Message

def textFor : Message → Defect → String
  | fixed text, _ => text
  | computed text, d => text d

end Message

inductive Wording where
  | standard
  | custom (m : Message)

namespace Wording

def isCustom : Wording → Bool
  | standard => false
  | custom _ => true

def message : Wording → Defect → String
  | standard, d => d.sentence
  | custom m, d => m.textFor d

def orElse (w other : Wording) : Wording :=
  match w with
  | standard => other
  | custom _ => w

end Wording

structure Finding extends Defect where
  wording : Wording

namespace Finding

def message (f : Finding) : String := f.wording.message f.toDefect

def under (s : Segment) (f : Finding) : Finding := ⟨f.toDefect.under s, f.wording⟩

def reworded (w : Wording) (f : Finding) : Finding := ⟨f.toDefect, w.orElse f.wording⟩

@[simp]
theorem toDefect_under (s : Segment) (f : Finding) :
    (f.under s).toDefect = f.toDefect.under s := rfl

@[simp]
theorem toDefect_reworded (w : Wording) (f : Finding) : (f.reworded w).toDefect = f.toDefect := rfl

end Finding
end Conform
