import Conform.Listing
import Conform.Schema.Basic

set_option autoImplicit false

namespace Conform.Schema

mutual

def description : Schema → String
  | category c _ => c.name
  | literal l _ => l.shown
  | anyArray _ => "unknown[]"
  | arrayOf e _ => e.description ++ "[]"
  | tuple ps _ => "[" ++ String.intercalate ", " (descriptions ps) ++ "]"
  | record k e _ => "Record<" ++ k.description ++ ", " ++ e.description ++ ">"
  | fields ds _ =>
    if ds.isEmpty then "Partial<\x7b\x7d>"
    else
      let shown := (Table.ofList (fieldDescriptions ds)).entries.map fun d => d.1 ++ ": " ++ d.2
      "Partial<\x7b " ++ String.intercalate ", " shown ++ " \x7d>"
  | each e _ => "Iterable<" ++ e.description ++ ">"
  | size b n _ => b.description n
  | anyOf bs _ => if bs.isEmpty then "never" else String.intercalate " | " (descriptions bs)
  | both l r _ => l.description ++ " & " ++ r.description

def descriptions : List Schema → List String
  | [] => []
  | s :: ss => s.description :: descriptions ss

def fieldDescriptions : List (String × Schema) → List (String × String)
  | [] => []
  | (name, s) :: ds => (name, s.description) :: fieldDescriptions ds

end

@[simp]
theorem descriptions_eq_map (ss : List Schema) : descriptions ss = ss.map description := by
  induction ss with
  | nil => rfl
  | cons s ss ih => simp [descriptions, ih]

@[simp]
theorem fieldDescriptions_eq_map (ds : List (String × Schema)) :
    fieldDescriptions ds = ds.map (Prod.map id description) := by
  induction ds with
  | nil => rfl
  | cons d ds ih => simp [fieldDescriptions, ih, Prod.map]

def alternatives (branches : List Schema) : String :=
  if branches.isEmpty then "never" else Listing.alternatives (descriptions branches)

end Conform.Schema
