import Conform.Proofs.Value.Equality
import Conform.Proofs.Value.Replacement
import Mathlib.Order.Defs.Unbundled

set_option autoImplicit false

namespace Conform.Value

def part? : Value → Segment → Option Value
  | string text, .index i => text.toList[i]?.map fun c => string c.toString
  | v, s => v.member? s

/-- Of two segments into a value, the former leads to what stands first there. An index may also
stand for an item that an array is too short to have. -/
inductive Earlier : Value → Segment → Segment → Prop where
  | index (v : Value) {i j : Nat} (h : i < j) : Earlier v (.index i) (.index j)
  | key {entries : List (String × Value)} {i j : Nat} {m n : String} (h : i < j)
      (hm : (entries.map Prod.fst)[i]? = some m) (hn : (entries.map Prod.fst)[j]? = some n) :
      Earlier (object entries) (.key m) (.key n)

/-- Of two paths into a value, the former leads to what a reader meets first. -/
inductive Precedes : Value → Path → Path → Prop where
  | inside (v : Value) (s : Segment) (p : Path) : Precedes v [] (s :: p)
  | earlier {v : Value} {s t : Segment} (h : v.Earlier s t) (p q : Path) :
      Precedes v (s :: p) (t :: q)
  | within {v u : Value} {s : Segment} {p q : Path} (hu : v.part? s = some u)
      (h : Precedes u p q) : Precedes v (s :: p) (s :: q)

theorem Distinct.part? {v u : Value} {s : Segment} (hv : v.Distinct) (h : v.part? s = some u) :
    u.Distinct := by
  cases v with
  | string text =>
    cases s with
    | index i =>
      obtain ⟨c, -, rfl⟩ := Option.map_eq_some_iff.1 h
      exact .string _
    | key name => cases h
  | array items =>
    cases s with
    | index i => cases hv with | array hv => exact hv u (List.mem_of_getElem? h)
    | key name => cases h
  | object entries =>
    cases s with
    | index i => cases h
    | key name => cases hv with | object _ hv => exact hv (name, u) (Table.mem_of_lookup h)
  | _ => cases s <;> cases h

theorem index_unique {names : List String} (h : names.Nodup) {n : String} {i j : Nat}
    (hi : names[i]? = some n) (hj : names[j]? = some n) : i = j :=
  (List.getElem?_inj (List.getElem?_eq_some_iff.1 hi).1 h).1 (hi.trans hj.symm)

theorem not_earlier_self {v : Value} (hv : v.Distinct) (s : Segment) : ¬ v.Earlier s s := by
  intro h
  cases h with
  | index _ h => exact Nat.lt_irrefl _ h
  | key h hm hn =>
    cases hv with
    | object names _ => exact Nat.ne_of_lt h (index_unique names hm hn)

theorem Earlier.trans {v : Value} (hv : v.Distinct) {s t u : Segment} (h : v.Earlier s t)
    (h' : v.Earlier t u) : v.Earlier s u := by
  cases h with
  | index _ h => cases h' with | index _ h' => exact .index v (Nat.lt_trans h h')
  | key h hm hn =>
    cases h' with
    | key h' hm' hn' =>
      cases hv with
      | object names _ =>
        -- The name in the middle stands at one index only.
        have hmiddle := index_unique names hn hm'
        exact .key (Nat.lt_trans h (hmiddle ▸ h')) hm hn'

theorem not_precedes_self {v : Value} (hv : v.Distinct) (p : Path) : ¬ v.Precedes p p := by
  induction p generalizing v with
  | nil => exact nofun
  | cons s p ih =>
    intro h
    cases h with
    | earlier h => exact not_earlier_self hv s h
    | within hu h => exact ih (hv.part? hu) h

theorem Precedes.trans {v : Value} (hv : v.Distinct) {p q r : Path} (h : v.Precedes p q)
    (h' : v.Precedes q r) : v.Precedes p r := by
  induction h generalizing r with
  | inside v s p => cases h' <;> exact .inside _ _ _
  | earlier h p q =>
    cases h' with
    | earlier h' => exact .earlier (h.trans hv h') _ _
    | within => exact .earlier h _ _
  | within hu _ ih =>
    cases h' with
    | earlier h' => exact .earlier h' _ _
    | within hu' h' =>
      cases hu.symm.trans hu'
      exact .within hu (ih (hv.part? hu) h')

theorem isStrictOrder_precedes {v : Value} (hv : v.Distinct) : IsStrictOrder Path v.Precedes where
  irrefl := not_precedes_self hv
  trans _ _ _ := Precedes.trans hv

end Conform.Value
