import Conform.Schema.Acceptance
import Conform.Schema.Description

set_option autoImplicit false

namespace Conform.Schema

def itemFindings (f : Value → List Finding) (items : List Value) : List Finding :=
  items.zipIdx.flatMap fun (x, i) => (f x).map (Finding.under (.index i))

/-- A position without an item, worded as the schema of that position words its findings. -/
def missing (s : Schema) : Finding :=
  ⟨⟨[], .shapeMismatch, s.description, .string "undefined"⟩, s.wording⟩

mutual

def findings : Schema → Value → List Finding
  | category c w, v =>
    if v.category = c then []
    else [⟨⟨[], .typeMismatch, c.name, .string v.category.name⟩, w⟩]
  | literal l w, v => if v.agrees l then [] else [⟨⟨[], .equalityMismatch, l.shown, v⟩, w⟩]
  | anyArray w, v => if v.category = .array then [] else [⟨.shape "array" v, w⟩]
  | arrayOf e w, v =>
    match v with
    | .array items => itemFindings e.findings items
    | v => [⟨.shape "array" v, w⟩]
  | tuple ps w, v =>
    match v with
    | .array items => positionFindings ps items 0
    | v => [⟨.shape "array" v, w⟩]
  | record k e w, v =>
    match v with
    | .object entries => entries.flatMap fun (name, x) =>
      (k.findings (.string name) ++ e.findings x).map (Finding.under (.key name))
    | v => [⟨.shape "object" v, w⟩]
  | fields ds w, v =>
    match v with
    | .object entries => (Table.ofList (fieldFindings ds)).entries.flatMap fun (name, f) =>
      match entries.lookup name with
      | some x => (f x).map (Finding.under (.key name))
      | none => []
    | v => [⟨.shape "object" v, w⟩]
  | each e w, v =>
    match v.elements? with
    | some items => itemFindings e.findings items
    | none => [⟨.shape "iterable" v, w⟩]
  | size b limit w, v =>
    match v.elements? with
    | some items => b.findings limit items.length w
    | none => [⟨.shape "iterable" v, w⟩]
  | anyOf bs w, v =>
    if acceptsAny bs v then [] else [⟨⟨[], .disjunctionMismatch, alternatives bs, v⟩, w⟩]
  | both l r w, v => (l.findings v ++ r.findings v).map (Finding.reworded w)

/-- The positions from the one with index `i` on, beside the items from there on. -/
def positionFindings : List Schema → List Value → Nat → List Finding
  | [], _, _ => []
  | p :: ps, [], i => p.missing.under (.index i) :: positionFindings ps [] (i + 1)
  | p :: ps, x :: xs, i =>
    (p.findings x).map (Finding.under (.index i)) ++ positionFindings ps xs (i + 1)

def fieldFindings : List (String × Schema) → List (String × (Value → List Finding))
  | [] => []
  | (name, s) :: ds => (name, s.findings) :: fieldFindings ds

end

@[simp]
theorem fieldFindings_eq_map (ds : List (String × Schema)) :
    fieldFindings ds = ds.map (Prod.map id findings) := by
  induction ds with
  | nil => rfl
  | cons d ds ih => simp [fieldFindings, ih, Prod.map]

end Conform.Schema
