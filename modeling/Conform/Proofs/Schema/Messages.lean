import Conform.Proofs.Schema.Attribution

set_option autoImplicit false

namespace Conform

namespace Schema

mutual

def withoutMessages : Schema → Schema
  | category c _ => category c .standard
  | literal l _ => literal l .standard
  | anyArray _ => anyArray .standard
  | arrayOf e _ => arrayOf e.withoutMessages .standard
  | tuple ps _ => tuple (allWithoutMessages ps) .standard
  | record k e _ => record k.withoutMessages e.withoutMessages .standard
  | fields ds _ => fields (fieldsWithoutMessages ds) .standard
  | each e _ => each e.withoutMessages .standard
  | size b limit _ => size b limit .standard
  | anyOf bs _ => anyOf (allWithoutMessages bs) .standard
  | both l r _ => both l.withoutMessages r.withoutMessages .standard

def allWithoutMessages : List Schema → List Schema
  | [] => []
  | s :: ss => s.withoutMessages :: allWithoutMessages ss

def fieldsWithoutMessages : List (String × Schema) → List (String × Schema)
  | [] => []
  | (name, s) :: ds => (name, s.withoutMessages) :: fieldsWithoutMessages ds

end

@[simp]
theorem allWithoutMessages_eq_map (ss : List Schema) :
    allWithoutMessages ss = ss.map withoutMessages := by
  induction ss with
  | nil => rfl
  | cons s ss ih => rw [allWithoutMessages, ih, List.map_cons]

@[simp]
theorem fieldsWithoutMessages_eq_map (ds : List (String × Schema)) :
    fieldsWithoutMessages ds = ds.map (Prod.map id withoutMessages) := by
  induction ds with
  | nil => rfl
  | cons d ds ih =>
    rw [fieldsWithoutMessages, ih, List.map_cons]
    rfl

theorem descriptions_withoutMessages {ss : List Schema}
    (h : ∀ s ∈ ss, s.withoutMessages.description = s.description) :
    descriptions (allWithoutMessages ss) = descriptions ss := by
  simpa using h

theorem fieldDescriptions_withoutMessages {ds : List (String × Schema)}
    (h : ∀ d ∈ ds, d.2.withoutMessages.description = d.2.description) :
    fieldDescriptions (fieldsWithoutMessages ds) = fieldDescriptions ds := by
  simpa using h

@[simp]
theorem description_withoutMessages (s : Schema) :
    s.withoutMessages.description = s.description := by
  induction s with
  | category | literal | anyArray | size => rfl
  | arrayOf e w ih | each e w ih => simp only [withoutMessages, description, ih]
  | tuple ps w ih => simp only [withoutMessages, description, descriptions_withoutMessages ih]
  | record k e w ihk ihe | both k e w ihk ihe => simp only [withoutMessages, description, ihk, ihe]
  | fields ds w ih =>
    have hempty : (fieldsWithoutMessages ds).isEmpty = ds.isEmpty := by cases ds <;> rfl
    simp only [withoutMessages, description, hempty, fieldDescriptions_withoutMessages ih]
  | anyOf bs w ih =>
    have hempty : (allWithoutMessages bs).isEmpty = bs.isEmpty := by cases bs <;> rfl
    simp only [withoutMessages, description, hempty, descriptions_withoutMessages ih]

theorem alternatives_withoutMessages (bs : List Schema) :
    alternatives (allWithoutMessages bs) = alternatives bs := by
  simp [alternatives, Function.comp_def]

theorem defect?_withoutMessages {s : Schema} {v : Value}
    (h : ∀ t ∈ s.parts, t.withoutMessages.accepts v = t.accepts v) :
    s.withoutMessages.defect? v = s.defect? v := by
  cases s with
  | anyOf bs w =>
    have hbranch : (∃ b ∈ allWithoutMessages bs, b.accepts v = true) ↔
        ∃ b ∈ bs, b.accepts v = true := by
      simpa using exists_congr fun b => and_congr_right fun hb => by rw [h b hb]
    simp only [withoutMessages, defect?, hbranch, alternatives_withoutMessages]
  | _ => simp only [withoutMessages, defect?]

end Schema

namespace Site

def withoutMessages (x : Site) : Site := ⟨x.schema.withoutMessages, x.path, x.value?, .standard⟩

end Site

namespace Schema

theorem children_withoutMessages (s : Schema) (v : Value) :
    s.withoutMessages.children v = (s.children v).map Site.withoutMessages := by
  cases s with
  | category | literal | anyArray | size | anyOf =>
    simp only [withoutMessages, children, List.map_nil]
  | arrayOf e w =>
    cases v with
    | array items => simp only [withoutMessages, children, List.map_map]; rfl
    | _ => rfl
  | tuple ps w =>
    cases v with
    | array items =>
      simp only [withoutMessages, allWithoutMessages_eq_map, children, List.zipIdx_map,
        List.map_map]
      rfl
    | _ => rfl
  | record k e w =>
    cases v with
    | object entries => simp only [withoutMessages, children, List.map_flatMap]; rfl
    | _ => rfl
  | fields ds w =>
    cases v with
    | object entries =>
      simp only [withoutMessages, fieldsWithoutMessages_eq_map, children, Table.lastDeclared_map,
        List.filterMap_map, List.map_filterMap, Option.map_map]
      rfl
    | _ => rfl
  | each e w =>
    cases v with
    | array items => simp only [withoutMessages, children, List.map_map]; rfl
    | string text => simp only [withoutMessages, children, List.map_map]; rfl
    | _ => rfl
  | both l r w => rfl

end Schema

theorem Site.toDefect_findings_withoutMessages {x : Site}
    (h : ∀ v, (x.schema.withoutMessages.findings v).map Finding.toDefect =
      (x.schema.findings v).map Finding.toDefect) :
    x.withoutMessages.findings.map Finding.toDefect = x.findings.map Finding.toDefect := by
  have hlift : ∀ (y : Site) (fs : List Finding), (fs.map y.lift).map Finding.toDefect =
      (fs.map Finding.toDefect).map (Defect.inside y.path) := by
    intro y fs
    rw [List.map_map, List.map_map]
    rfl
  obtain ⟨s, p, v?, w⟩ := x
  cases v? with
  | none =>
    let missing (description : String) : Defect :=
      ⟨p ++ [], .shapeMismatch, description, .string "undefined"⟩
    change [missing s.withoutMessages.description] = [missing s.description]
    rw [Schema.description_withoutMessages]
  | some v =>
    change ((s.withoutMessages.findings v).map _).map _ = ((s.findings v).map _).map _
    rw [hlift, hlift, h]
    rfl

namespace Schema

theorem accepts_eq_of_toDefect_findings {s t : Schema} {v : Value}
    (h : (s.findings v).map Finding.toDefect = (t.findings v).map Finding.toDefect) :
    s.accepts v = t.accepts v := by
  rw [accepts_eq_isEmpty, accepts_eq_isEmpty, ← List.isEmpty_map (f := Finding.toDefect), h,
    List.isEmpty_map]

@[simp]
theorem toDefect_findings_withoutMessages (s : Schema) (v : Value) :
    (s.withoutMessages.findings v).map Finding.toDefect = (s.findings v).map Finding.toDefect := by
  induction s using parts_induction generalizing v with
  | step s ih =>
    have haccepts : ∀ t ∈ s.parts, t.withoutMessages.accepts v = t.accepts v :=
      fun t ht => accepts_eq_of_toDefect_findings (ih t ht v)
    have hown : ∀ (d? : Option Defect) (w : Wording),
        ((d?.map fun d => (⟨d, w⟩ : Finding)).toList).map Finding.toDefect = d?.toList := by
      intro d? w
      cases d? <;> rfl
    rw [findings_eq_children, findings_eq_children, List.map_append, List.map_append, hown, hown,
      defect?_withoutMessages haccepts, children_withoutMessages, List.flatMap_map,
      List.map_flatMap, List.map_flatMap]
    refine congrArg _ (List.flatMap_congr fun c hc => ?_)
    exact Site.toDefect_findings_withoutMessages
      (ih c.schema (mem_parts_of_step (step_of_mem_children hc)))

@[simp]
theorem accepts_withoutMessages (s : Schema) (v : Value) :
    s.withoutMessages.accepts v = s.accepts v :=
  accepts_eq_of_toDefect_findings (s.toDefect_findings_withoutMessages v)

end Schema
end Conform
