import Conform.Proofs.Schema.Recursion

set_option autoImplicit false

/-!
# One step of a check

At a value a node of a schema finds at most one defect of its own, and it hands the value or parts
of it on to its sub-schemas. Acceptance and findings are determined by these two: nothing is
accepted or found that is not accepted or found at the node itself or at one of its children.
-/
namespace Conform

namespace Value

def count? : Value → Option Nat
  | array items => some items.length
  | string text => some text.length
  | _ => none

theorem map_length_elements? (v : Value) : v.elements?.map List.length = v.count? := by
  cases v with
  | string text =>
    rw [elements?, Option.map_some, List.length_map, String.length_toList]
    rfl
  | _ => rfl

end Value

/-- A schema at a place of a document, seen from a check around it. A position for which an array
has no item is a place without a value. Of the intersections in between, `around` has the message
of the outermost that has one. -/
structure Site where
  schema : Schema
  path : Path
  value? : Option Value
  around : Wording

namespace Schema

def defect? : Schema → Value → Option Defect
  | category c _, v =>
    if v.category = c then none else some ⟨[], .typeMismatch, c.name, .string v.category.name⟩
  | literal l _, v => if v.agrees l then none else some ⟨[], .equalityMismatch, l.shown, v⟩
  | anyArray _, v | arrayOf _ _, v | tuple _ _, v =>
    if v.category = .array then none else some (.shape "array" v)
  | record _ _ _, v | fields _ _, v =>
    if v.category = .object then none else some (.shape "object" v)
  | each _ _, v =>
    if v.category = .array ∨ v.category = .string then none else some (.shape "iterable" v)
  | size b limit _, v =>
    match v.count? with
    | some n => if b.holds limit n then none else some ⟨[], b.defectKind, toString limit, .nat n⟩
    | none => some (.shape "iterable" v)
  | anyOf bs _, v =>
    if ∃ b ∈ bs, b.accepts v then none else some ⟨[], .disjunctionMismatch, alternatives bs, v⟩
  | both _ _ _, _ => none

/-- Where a node hands a value on to, in order. A choice hands nothing on. -/
def children : Schema → Value → List Site
  | arrayOf e _, .array items | each e _, .array items =>
    items.zipIdx.map fun x => ⟨e, [.index x.2], some x.1, .standard⟩
  | each e _, .string s =>
    s.toList.zipIdx.map fun c => ⟨e, [.index c.2], some (.string c.1.toString), .standard⟩
  | tuple ps _, .array items =>
    ps.zipIdx.map fun p => ⟨p.1, [.index p.2], items[p.2]?, .standard⟩
  | record k e _, .object entries =>
    entries.flatMap fun x =>
      [⟨k, [.key x.1], some (.string x.1), .standard⟩, ⟨e, [.key x.1], some x.2, .standard⟩]
  | fields ds _, .object entries =>
    (Table.lastDeclared ds).filterMap fun d =>
      (entries.lookup d.1).map fun x => ⟨d.2, [.key d.1], some x, .standard⟩
  | both l r w, v => [⟨l, [], some v, w⟩, ⟨r, [], some v, w⟩]
  | _, _ => []

/-- One step of a check: at a value a schema goes on to a sub-schema, to be applied to what stands
at a path from there. `none` stands for the item that an array is too short to have. -/
inductive Step : Schema → Value → Path → Schema → Option Value → Prop where
  | item {e : Schema} {w : Wording} {items : List Value} {i : Nat} {x : Value}
      (h : items[i]? = some x) : Step (arrayOf e w) (.array items) [.index i] e (some x)
  | element {e : Schema} {w : Wording} {items : List Value} {i : Nat} {x : Value}
      (h : items[i]? = some x) : Step (each e w) (.array items) [.index i] e (some x)
  | character {e : Schema} {w : Wording} {text : String} {i : Nat} {c : Char}
      (h : text.toList[i]? = some c) :
      Step (each e w) (.string text) [.index i] e (some (.string c.toString))
  | position {ps : List Schema} {w : Wording} {items : List Value} {i : Nat} {p : Schema}
      (h : ps[i]? = some p) : Step (tuple ps w) (.array items) [.index i] p items[i]?
  | name {k e : Schema} {w : Wording} {entries : List (String × Value)} {x : String × Value}
      (h : x ∈ entries) :
      Step (record k e w) (.object entries) [.key x.1] k (some (.string x.1))
  | entry {k e : Schema} {w : Wording} {entries : List (String × Value)} {x : String × Value}
      (h : x ∈ entries) : Step (record k e w) (.object entries) [.key x.1] e (some x.2)
  | field {ds : List (String × Schema)} {w : Wording} {entries : List (String × Value)}
      {name : String} {s : Schema} {x : Value} (hs : ds.reverse.lookup name = some s)
      (hx : entries.lookup name = some x) :
      Step (fields ds w) (.object entries) [.key name] s (some x)
  | left {l r : Schema} {w : Wording} {v : Value} : Step (both l r w) v [] l (some v)
  | right {l r : Schema} {w : Wording} {v : Value} : Step (both l r w) v [] r (some v)

end Schema

namespace Site

def within (x y : Site) : Site :=
  ⟨y.schema, x.path ++ y.path, y.value?, x.around.orElse y.around⟩

def lift (x : Site) (f : Finding) : Finding :=
  ⟨⟨x.path ++ f.path, f.kind, f.expected, f.actual⟩, x.around.orElse f.wording⟩

def accepts (x : Site) : Bool := x.value?.any x.schema.accepts

def findings (x : Site) : List Finding :=
  match x.value? with
  | some v => (x.schema.findings v).map x.lift
  | none => [x.lift x.schema.missing]

end Site

namespace Schema

theorem accepts_size (b : SizeBound) (limit : Nat) (w : Wording) (v : Value) :
    (size b limit w).accepts v = v.count?.any (b.holds limit) := by
  rw [accepts, ← Value.map_length_elements?, Option.any_map]

theorem itemFindings_eq (f : Value → List Finding) (items : List Value) :
    itemFindings f items =
      items.zipIdx.flatMap fun x => (f x.1).map (Finding.under (.index x.2)) := rfl

theorem fieldFindingsAt_eq (entries : List (String × Value)) (d : String × Schema) :
    fieldFindingsAt entries d =
      ((entries.lookup d.1).map fun x => (⟨d.2, [.key d.1], some x, .standard⟩ : Site)).toList.flatMap
        Site.findings := by
  unfold fieldFindingsAt
  cases entries.lookup d.1 with
  | none => rfl
  | some x => exact (List.append_nil _).symm

/-- What a node finds by itself comes first, then what its children find in turn. -/
theorem findings_eq_children (s : Schema) (v : Value) :
    s.findings v = ((s.defect? v).map fun d => ⟨d, s.wording⟩).toList ++
      (s.children v).flatMap Site.findings := by
  cases s with
  | category c w => simp only [findings, defect?, children]; split <;> rfl
  | literal l w => simp only [findings, defect?, children]; split <;> rfl
  | anyArray w => simp only [findings, defect?, children]; split <;> rfl
  | arrayOf e w =>
    cases v with
    | array items =>
      simp only [findings, children, itemFindings_eq, List.flatMap_map]
      rfl
    | _ => rfl
  | tuple ps w =>
    cases v with
    | array items =>
      simp only [findings_tuple_array, children, List.flatMap_map]
      rfl
    | _ => rfl
  | record k e w =>
    cases v with
    | object entries =>
      simp only [findings, children, List.flatMap_assoc, List.map_append]
      simp only [List.flatMap_cons, List.flatMap_nil, List.append_nil]
      rfl
    | _ => rfl
  | fields ds w =>
    cases v with
    | object entries =>
      simp only [findings_fields_object, children]
      rw [List.filterMap_eq_flatMap_toList, List.flatMap_assoc]
      exact List.flatMap_congr fun d _ => fieldFindingsAt_eq entries d
    | _ => rfl
  | each e w =>
    cases v with
    | array items =>
      simp only [findings, Value.elements?, children, itemFindings_eq, List.flatMap_map]
      rfl
    | string s =>
      simp only [findings, Value.elements?, children, itemFindings_eq, List.zipIdx_map,
        List.flatMap_map]
      rfl
    | _ => rfl
  | size b n w =>
    simp only [findings, defect?, children, ← Value.map_length_elements?]
    cases v.elements? with
    | none => rfl
    | some items => simp only [SizeBound.findings, Option.map_some]; split <;> rfl
  | anyOf bs w =>
    simp only [findings, defect?, children, acceptsAny_eq_any, List.any_eq_true]
    split <;> rfl
  | both l r w =>
    simp only [findings, defect?, children, List.flatMap_cons, List.flatMap_nil, List.append_nil,
      List.map_append]
    rfl

theorem all_zipIdx_fst {α : Type} (test : α → Bool) (items : List α) :
    (items.zipIdx.all fun x => test x.1) = items.all test := by
  have h : items.zipIdx.map Prod.fst = items := List.zipIdx_map_fst 0 items
  calc
    _ = (items.zipIdx.map Prod.fst).all test := List.all_map.symm
    _ = items.all test := by rw [h]

theorem all_fieldTests (entries : List (String × Value)) (ds : List (String × Schema)) :
    (ds.all fun d => (entries.lookup d.1).all d.2.accepts) =
      (ds.filterMap fun d => (entries.lookup d.1).map fun x =>
        (⟨d.2, [.key d.1], some x, .standard⟩ : Site)).all Site.accepts := by
  induction ds with
  | nil => rfl
  | cons d ds ih =>
    rw [List.all_cons, ih, List.filterMap_cons]
    cases entries.lookup d.1 <;> rfl

theorem accepts_eq_children (s : Schema) (v : Value) :
    s.accepts v = ((s.defect? v).isNone && (s.children v).all Site.accepts) := by
  cases s with
  | category c w =>
    simp only [accepts, defect?, children]
    by_cases h : v.category = c <;> simp [h]
  | literal l w => simp only [accepts, defect?, children]; split <;> simp_all
  | anyArray w =>
    simp only [accepts, defect?, children]
    by_cases h : v.category = .array <;> simp [h]
  | arrayOf e w =>
    cases v with
    | array items =>
      rw [accepts, ← all_zipIdx_fst, children, List.all_map]
      rfl
    | _ => rfl
  | tuple ps w =>
    cases v with
    | array items =>
      simp only [accepts_tuple_array, children, List.all_map]
      rfl
    | _ => rfl
  | record k e w =>
    cases v with
    | object entries =>
      simp only [accepts, children, List.all_flatMap, List.all_cons, List.all_nil, Bool.and_true]
      rfl
    | _ => rfl
  | fields ds w =>
    cases v with
    | object entries =>
      simp only [accepts_fields_object, all_fieldTests, children]
      rfl
    | _ => rfl
  | each e w =>
    cases v with
    | array items =>
      rw [accepts, Value.elements?, Option.any_some, ← all_zipIdx_fst, children, List.all_map]
      rfl
    | string s =>
      rw [accepts, Value.elements?, Option.any_some, List.all_map, ← all_zipIdx_fst, children,
        List.all_map]
      rfl
    | _ => rfl
  | size b limit w =>
    rw [accepts_size]
    simp only [defect?, children]
    cases v.count? with
    | none => rfl
    | some n => cases h : b.holds limit n <;> simp [h]
  | anyOf bs w =>
    rw [Bool.eq_iff_iff, accepts_anyOf_iff]
    by_cases h : ∃ b ∈ bs, b.accepts v = true
    · simp [defect?, children, h]
    · simp [defect?, children, h]
  | both l r w =>
    simp only [accepts, defect?, children, List.all_cons, List.all_nil, Bool.and_true]
    rfl

theorem step_of_mem_children {s : Schema} {v : Value} {c : Site} (h : c ∈ s.children v) :
    Step s v c.path c.schema c.value? := by
  cases s with
  | category | literal | anyArray | size | anyOf => simp [children] at h
  | arrayOf e w =>
    cases v with
    | array items =>
      obtain ⟨x, hx, rfl⟩ := List.mem_map.1 h
      exact .item (List.mem_zipIdx_iff_getElem?.1 hx)
    | _ => simp [children] at h
  | tuple ps w =>
    cases v with
    | array items =>
      obtain ⟨p, hp, rfl⟩ := List.mem_map.1 h
      exact .position (List.mem_zipIdx_iff_getElem?.1 hp)
    | _ => simp [children] at h
  | record k e w =>
    cases v with
    | object entries =>
      obtain ⟨x, hx, hc⟩ := List.mem_flatMap.1 h
      simp only [List.mem_cons, List.not_mem_nil, or_false] at hc
      rcases hc with rfl | rfl
      · exact .name hx
      · exact .entry hx
    | _ => simp [children] at h
  | fields ds w =>
    cases v with
    | object entries =>
      obtain ⟨⟨name, s⟩, hd, hc⟩ := List.mem_filterMap.1 h
      obtain ⟨x, hx, rfl⟩ := Option.map_eq_some_iff.1 hc
      exact .field ((Table.mem_lastDeclared ds name s).1 hd) hx
    | _ => simp [children] at h
  | each e w =>
    cases v with
    | array items =>
      obtain ⟨x, hx, rfl⟩ := List.mem_map.1 h
      exact .element (List.mem_zipIdx_iff_getElem?.1 hx)
    | string text =>
      obtain ⟨c, hc, rfl⟩ := List.mem_map.1 h
      exact .character (List.mem_zipIdx_iff_getElem?.1 hc)
    | _ => simp [children] at h
  | both l r w =>
    simp only [children, List.mem_cons, List.not_mem_nil, or_false] at h
    rcases h with rfl | rfl
    · exact .left
    · exact .right

theorem mem_children_of_step {s t : Schema} {v : Value} {q : Path} {y? : Option Value}
    (h : Step s v q t y?) : ∃ w, (⟨t, q, y?, w⟩ : Site) ∈ s.children v := by
  cases h with
  | item h | element h =>
    exact ⟨_, List.mem_map.2 ⟨(_, _), List.mem_zipIdx_iff_getElem?.2 h, rfl⟩⟩
  | character h => exact ⟨_, List.mem_map.2 ⟨(_, _), List.mem_zipIdx_iff_getElem?.2 h, rfl⟩⟩
  | position h => exact ⟨_, List.mem_map.2 ⟨(_, _), List.mem_zipIdx_iff_getElem?.2 h, rfl⟩⟩
  | name h => exact ⟨_, List.mem_flatMap.2 ⟨_, h, .head _⟩⟩
  | entry h => exact ⟨_, List.mem_flatMap.2 ⟨_, h, .tail _ (.head _)⟩⟩
  | field hs hx =>
    refine ⟨.standard, List.mem_filterMap.2 ⟨(_, _), (Table.mem_lastDeclared _ _ _).2 hs, ?_⟩⟩
    exact Option.map_eq_some_iff.2 ⟨_, hx, rfl⟩
  | left => exact ⟨_, .head _⟩
  | right => exact ⟨_, .tail _ (.head _)⟩

theorem sizeOf_lt_of_step {s t : Schema} {v : Value} {q : Path} {y? : Option Value}
    (h : Step s v q t y?) : sizeOf t < sizeOf s := by
  cases h with
  | item | element | character | name | entry | left | right =>
    simp only [arrayOf.sizeOf_spec, each.sizeOf_spec, record.sizeOf_spec, both.sizeOf_spec]
    omega
  | @position ps _ _ i _ h =>
    have hs := List.sizeOf_lt_of_mem (List.mem_of_getElem? h)
    simp only [tuple.sizeOf_spec]
    omega
  | @field ds _ _ name _ _ hs =>
    have hd := Table.mem_of_mem_lastDeclared ((Table.mem_lastDeclared ds name t).2 hs)
    have hlt := List.sizeOf_lt_of_mem hd
    simp only [fields.sizeOf_spec, Prod.mk.sizeOf_spec] at hlt ⊢
    omega

theorem child_induction {motive : Schema → Value → Prop}
    (step : ∀ s v, (∀ c ∈ s.children v, ∀ x, c.value? = some x → motive c.schema x) → motive s v)
    (s : Schema) (v : Value) : motive s v :=
  step s v fun c _ x _ => child_induction step c.schema x
termination_by sizeOf s
decreasing_by exact sizeOf_lt_of_step (step_of_mem_children ‹_›)

theorem accepts_iff_findings_nil (s : Schema) (v : Value) :
    s.accepts v = true ↔ s.findings v = [] := by
  induction s, v using child_induction with
  | step s v ih =>
    have hsite : ∀ c ∈ s.children v, (c.accepts = true ↔ c.findings = []) := by
      intro c hc
      unfold Site.accepts Site.findings
      cases hv : c.value? with
      | none => simp
      | some x => rw [Option.any_some, ih c hc x hv, List.map_eq_nil_iff]
    rw [accepts_eq_children, findings_eq_children, Bool.and_eq_true, List.all_eq_true,
      List.append_eq_nil_iff, List.flatMap_eq_nil_iff]
    refine and_congr ?_ (forall₂_congr hsite)
    cases s.defect? v <;> simp

theorem accepts_eq_isEmpty (s : Schema) (v : Value) : s.accepts v = (s.findings v).isEmpty := by
  rw [Bool.eq_iff_iff, accepts_iff_findings_nil, List.isEmpty_iff]

end Schema
end Conform
