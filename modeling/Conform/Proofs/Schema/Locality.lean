import Conform.Proofs.Schema.Correspondence
import Conform.Proofs.Schema.Places
import Conform.Proofs.Value.Replacement

set_option autoImplicit false

namespace Conform

namespace Value

/-- What becomes of a value at `q` when the value at `p` is replaced. -/
def ChangesAt (p : Path) (x : Value) (q : Path) (y z : Value) : Prop :=
  z = y ∨ ∃ r, p = q ++ r ∧ z = y.replaceAt r x

theorem corresponds_replaceAt (v x : Value) (s : Segment) (p : Path) :
    v.Corresponds (ChangesAt (s :: p) x) (v.replaceAt (s :: p) x) := by
  cases v with
  | array items =>
    cases s with
    | key name => exact .same _
    | index i =>
      refine .array fun j => ?_
      rw [List.getElem?_modify]
      cases items[j]? with
      | none => exact .none
      | some y =>
        by_cases h : i = j
        · exact .some (.inr ⟨p, congrArg (Segment.index · :: p) h, if_pos h⟩)
        · exact .some (.inl (if_neg h))
  | object entries =>
    cases s with
    | index i => exact .same _
    | key name =>
      refine .object ?_
      rw [List.forall₂_map_right_iff]
      refine List.forall₂_same.2 fun e _ => ?_
      by_cases h : e.1 = name
      · rw [if_pos h]
        exact ⟨rfl, .inr ⟨p, congrArg (Segment.key · :: p) h.symm, rfl⟩⟩
      · rw [if_neg h]
        exact ⟨rfl, .inl rfl⟩
  | _ => exact .same _

end Value

namespace Finding

def apartFrom (p : Path) (fs : List Finding) : List Finding := fs.filter fun f => f.path.Apart p

theorem apartFrom_root (fs : List Finding) : apartFrom [] fs = [] :=
  List.filter_eq_nil_iff.2 fun f _ => by simpa using f.path.not_apart_nil

theorem apartFrom_append (p : Path) (fs gs : List Finding) :
    apartFrom p (fs ++ gs) = apartFrom p fs ++ apartFrom p gs := List.filter_append _ _

theorem apartFrom_lift (c : Site) (p : Path) (fs : List Finding) :
    apartFrom (c.path ++ p) (fs.map c.lift) = (apartFrom p fs).map c.lift := by
  have hlift : ∀ f : Finding, (c.lift f).path.Apart (c.path ++ p) ↔ f.path.Apart p :=
    fun f => Path.append_apart_append_iff c.path f.path p
  unfold apartFrom
  rw [List.filter_map]
  refine congrArg _ (List.filter_congr fun f _ => ?_)
  simpa using hlift f

end Finding

namespace Schema

theorem apartFrom_own (s : Schema) (v : Value) (p : Path) :
    Finding.apartFrom p ((s.defect? v).map fun d => ⟨d, s.wording⟩).toList = [] := by
  cases hd : s.defect? v with
  | none => rfl
  | some d =>
    have hroot : d.path = [] := (describes_of_defect? hd).1
    refine List.filter_eq_nil_iff.2 fun f hf => ?_
    have hf : f.path = [] := by
      rw [List.mem_singleton.1 hf]
      exact hroot
    rw [hf]
    simpa using Path.not_nil_apart p

theorem apartFrom_findings_eq_children (s : Schema) (v : Value) (p : Path) :
    Finding.apartFrom p (s.findings v) =
      (s.children v).flatMap fun c => Finding.apartFrom p c.findings := by
  rw [findings_eq_children, Finding.apartFrom_append, apartFrom_own, List.nil_append]
  exact List.filter_flatMap

theorem apartFrom_site_congr (t : Schema) (q : Path) (a : Wording) {p : Path} {y z : Value}
    (h : Finding.apartFrom p (t.findings y) = Finding.apartFrom p (t.findings z)) :
    Finding.apartFrom (q ++ p) (⟨t, q, some y, a⟩ : Site).findings =
      Finding.apartFrom (q ++ p) (⟨t, q, some z, a⟩ : Site).findings := by
  let c : Site := ⟨t, q, some y, a⟩
  calc
    _ = (Finding.apartFrom p (t.findings y)).map c.lift := Finding.apartFrom_lift c p _
    _ = (Finding.apartFrom p (t.findings z)).map c.lift := by rw [h]
    _ = _ := (Finding.apartFrom_lift c p _).symm

theorem apartFrom_findings_of_corresponds {x : Value} {p : Path} {c d : Site}
    (h : Site.Corresponds (Value.ChangesAt p x) c d)
    (hvalue : ∀ y, c.value? = some y → ∀ q, Finding.apartFrom q (c.schema.findings y) =
      Finding.apartFrom q (c.schema.findings (y.replaceAt q x))) :
    Finding.apartFrom p c.findings = Finding.apartFrom p d.findings := by
  cases h with
  | same => rfl
  | @related t q a y z h =>
    rcases h with rfl | ⟨r, rfl, rfl⟩
    · rfl
    · exact apartFrom_site_congr t q a (hvalue y rfl r)

theorem apartFrom_findings_replaceAt (s : Schema) (v x : Value) (p : Path) :
    Finding.apartFrom p (s.findings v) = Finding.apartFrom p (s.findings (v.replaceAt p x)) := by
  induction s, v using child_induction generalizing p with
  | step s v ih =>
    cases p with
    | nil => rw [Finding.apartFrom_root, Finding.apartFrom_root]
    | cons t p =>
      have hchildren := s.children_corresponds (v.corresponds_replaceAt x t p)
        fun _ => .inr ⟨t :: p, rfl, rfl⟩
      rw [apartFrom_findings_eq_children, apartFrom_findings_eq_children]
      exact flatMap_eq_of_forall₂ hchildren fun c hc d hcd =>
        apartFrom_findings_of_corresponds hcd fun y hy q => ih c hc y hy q

/-- If a path leads to a part of a document and another value is put there, what other paths lead to
stays the same, and so do the findings that stand neither on the way to this part nor inside of it,
in their order and with their wording. -/
theorem findings_apart_from_replaced (s : Schema) (v u x : Value) (p : Path)
    (h : v.at? p = some u) :
    (v.replaceAt p x).at? p = some x ∧
    (∀ q : Path, q.Apart p → (v.replaceAt p x).at? q = v.at? q) ∧
    ((s.findings v).filter fun f => f.path.Apart p) =
      (s.findings (v.replaceAt p x)).filter fun f => f.path.Apart p := by
  refine ⟨v.at?_replaceAt h x, fun q hq => v.at?_replaceAt_of_apart x hq, ?_⟩
  exact s.apartFrom_findings_replaceAt v x p

theorem findings_apart_from_replaced_item :
    let s : Schema := .record (.each (.literal (.string "a") .standard) .standard)
      (.both (.arrayOf (.category .string (.custom (.fixed "text"))) .standard)
        (.anyOf [.arrayOf (.category .number .standard) .standard] .standard) .standard) .standard
    let v : Value := .object [("ab", .array [.nat 0, .nat 1])]
    let p : Path := [.key "ab", .index 0]
    v.at? p = some (.nat 0) ∧ (s.findings v).length = 3 ∧
      ((s.findings v).filter fun f => f.path.Apart p).map (·.path) =
        [[.key "ab", .index 1], [.key "ab", .index 1]] ∧
      (s.findings (v.replaceAt p (.array []))).length = 4 ∧
      ((s.findings v).filter fun f => f.path.Apart p) =
        (s.findings (v.replaceAt p (.array []))).filter fun f => f.path.Apart p := by
  intro s v p
  have h : v.at? p = some (.nat 0) := rfl
  have heq := (findings_apart_from_replaced s v (.nat 0) (.array []) p h).2.2
  exact ⟨h, by decide, by decide, by decide, heq⟩

end Schema
end Conform
