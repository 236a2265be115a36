import Conform.Path
import Conform.Proofs.Table
import Conform.Value.Basic

set_option autoImplicit false

namespace Conform

/-- Neither of the paths is a part of the way along the other. -/
def Path.Apart (p q : Path) : Prop := ¬ p <+: q ∧ ¬ q <+: p

instance (p q : Path) : Decidable (p.Apart q) := inferInstanceAs (Decidable (_ ∧ _))

theorem Path.not_apart_nil (p : Path) : ¬ p.Apart [] := fun h => h.2 List.nil_prefix

theorem Path.not_nil_apart (p : Path) : ¬ Path.Apart [] p := fun h => h.1 List.nil_prefix

theorem Path.append_apart_append_iff (r p q : Path) :
    Path.Apart (r ++ p) (r ++ q) ↔ p.Apart q := by
  unfold Path.Apart
  rw [List.prefix_append_right_inj, List.prefix_append_right_inj]

namespace Value

def member? : Value → Segment → Option Value
  | array items, .index i => items[i]?
  | object entries, .key name => entries.lookup name
  | _, _ => none

def modifyMember (f : Value → Value) : Value → Segment → Value
  | array items, .index i => array (items.modify i f)
  | object entries, .key name =>
    object (entries.map fun e => if e.1 = name then (e.1, f e.2) else e)
  | v, _ => v

def at? : Value → Path → Option Value
  | v, [] => some v
  | v, s :: p => (v.member? s).bind fun u => u.at? p

def replaceAt : Value → Path → Value → Value
  | _, [], x => x
  | v, s :: p, x => v.modifyMember (fun u => u.replaceAt p x) s

theorem lookup_map_ite (f : Value → Value) (name n : String) (entries : List (String × Value)) :
    (entries.map fun e => if e.1 = name then (e.1, f e.2) else e).lookup n =
      if n = name then (entries.lookup n).map f else entries.lookup n := by
  induction entries with
  | nil => split <;> rfl
  | cons e rest ih =>
    obtain ⟨m, y⟩ := e
    rw [List.map_cons]
    by_cases hm : m = name
    · rw [if_pos hm, Table.lookup_cons_eq_ite, Table.lookup_cons_eq_ite, ih]
      by_cases hn : n = m
      · simp [hn, hm]
      · simp [hn]
    · rw [if_neg hm, Table.lookup_cons_eq_ite, Table.lookup_cons_eq_ite, ih]
      by_cases hn : n = m
      · simp [hn, hm]
      · simp [hn]

theorem member?_modifyMember (f : Value → Value) (v : Value) (s t : Segment) :
    (v.modifyMember f s).member? t = if t = s then (v.member? t).map f else v.member? t := by
  cases v with
  | array items =>
    cases s with
    | index i =>
      cases t with
      | index j =>
        by_cases h : i = j
        · simp [modifyMember, member?, h]
        · simp [modifyMember, member?, h, Ne.symm h]
      | key n => simp [modifyMember, member?]
    | key name => cases t <;> simp [modifyMember, member?]
  | object entries =>
    cases s with
    | index i => cases t <;> simp [modifyMember, member?]
    | key name =>
      cases t with
      | index j => simp [modifyMember, member?]
      | key n => simp [modifyMember, member?, lookup_map_ite]
  | _ => cases s <;> simp [modifyMember, member?]

theorem at?_replaceAt {v u : Value} {p : Path} (h : v.at? p = some u) (x : Value) :
    (v.replaceAt p x).at? p = some x := by
  induction p generalizing v with
  | nil => rfl
  | cons s p ih =>
    obtain ⟨m, hm, hu⟩ := Option.bind_eq_some_iff.1 h
    have hmember := member?_modifyMember (fun u => u.replaceAt p x) v s s
    rw [if_pos rfl, hm] at hmember
    rw [replaceAt, at?, hmember]
    exact ih hu

theorem at?_replaceAt_of_apart (v x : Value) {p q : Path} (h : q.Apart p) :
    (v.replaceAt p x).at? q = v.at? q := by
  induction p generalizing v q with
  | nil => exact absurd h q.not_apart_nil
  | cons s p ih =>
    cases q with
    | nil => exact absurd h (Path.not_nil_apart _)
    | cons t q =>
      have hmember := member?_modifyMember (fun u => u.replaceAt p x) v s t
      rw [replaceAt, at?, at?, hmember]
      by_cases hts : t = s
      · subst hts
        have hq : Path.Apart q p := (Path.append_apart_append_iff [t] q p).1 h
        rw [if_pos rfl, Option.bind_map]
        exact congrArg _ (funext fun u => ih u hq)
      · rw [if_neg hts]

end Value
end Conform
