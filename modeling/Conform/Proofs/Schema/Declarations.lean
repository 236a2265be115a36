import Conform.Proofs.Schema.Recursion

set_option autoImplicit false

namespace Conform

namespace Table

variable {α : Type}

theorem put_of_notMem {name : String} {a : α} {es : List (String × α)}
    (h : name ∉ es.map Prod.fst) : put name a es = es ++ [(name, a)] := by
  induction es with
  | nil => rfl
  | cons e rest ih =>
    obtain ⟨n, b⟩ := e
    obtain ⟨hn, hrest⟩ := not_or.1 (mt List.mem_cons.2 h)
    rw [put, if_neg (Ne.symm hn), ih hrest, List.cons_append]

theorem put_append_cons {name : String} {a b : α} {before after : List (String × α)}
    (h : name ∉ before.map Prod.fst) :
    put name a (before ++ (name, b) :: after) = before ++ (name, a) :: after := by
  induction before with
  | nil => exact if_pos rfl
  | cons e rest ih =>
    obtain ⟨n, c⟩ := e
    obtain ⟨hn, hrest⟩ := not_or.1 (mt List.mem_cons.2 h)
    rw [List.cons_append, put, if_neg (Ne.symm hn), ih hrest, List.cons_append]

theorem lastDeclared_eq_self {es : List (String × α)} (h : (es.map Prod.fst).Nodup) :
    lastDeclared es = es := by
  rw [← entries_ofList]
  induction es using List.reverseRecOn with
  | nil => rfl
  | append_singleton es e ih =>
    rw [List.map_append, List.map_singleton, List.nodup_append] at h
    obtain ⟨hes, -, hdisjoint⟩ := h
    have hnew : e.1 ∉ es.map Prod.fst := fun he => hdisjoint e.1 he e.1 (.head _) rfl
    rw [ofList_concat]
    change put e.1 e.2 (ofList es).entries = _
    rw [ih hes, put_of_notMem hnew]

theorem nodup_lastDeclared (ds : List (String × α)) : ((lastDeclared ds).map Prod.fst).Nodup := by
  rw [← entries_ofList]
  exact (ofList ds).distinct

theorem map_fst_lastDeclared (ds : List (String × α)) :
    (lastDeclared ds).map Prod.fst = (ds.map Prod.fst).eraseDups := by
  rw [← entries_ofList]
  exact names_ofList ds

/-- What a table has of the declarations: each name once, in the order of the first declarations,
and with the entry of the last one. -/
structure Records (ds es : List (String × α)) : Prop where
  distinct : (es.map Prod.fst).Nodup
  first : es.map Prod.fst = (ds.map Prod.fst).eraseDups
  last : ∀ name a, (name, a) ∈ es ↔
    ∃ before after, ds = before ++ (name, a) :: after ∧ name ∉ after.map Prod.fst

theorem records_lastDeclared (ds : List (String × α)) : Records ds (lastDeclared ds) where
  distinct := nodup_lastDeclared ds
  first := map_fst_lastDeclared ds
  last name a := (mem_lastDeclared ds name a).trans (lookup_reverse_eq_some_iff ds name a)

theorem isEmpty_lastDeclared (ds : List (String × α)) : (lastDeclared ds).isEmpty = ds.isEmpty := by
  have h := map_fst_lastDeclared ds
  cases ds with
  | nil => rfl
  | cons d ds =>
    rw [List.map_cons, List.eraseDups_cons] at h
    cases hl : lastDeclared (d :: ds) with
    | nil => simp [hl] at h
    | cons e es => rfl

end Table

namespace Schema

def declared : Schema → List (String × Schema)
  | fields ds _ => (Table.ofList ds).entries
  | _ => []

def declareAll (s : Schema) (ds : List (String × Schema)) : Schema :=
  ds.foldl (fun s d => s.declare d.1 d.2) s

theorem declareAll_fields (ds es : List (String × Schema)) (w : Wording) :
    (fields ds w).declareAll es = fields (ds ++ es) w := by
  induction es generalizing ds with
  | nil => rw [List.append_nil]; rfl
  | cons e es ih =>
    change (fields (ds ++ [e]) w).declareAll es = _
    rw [ih, List.append_assoc, List.singleton_append]

theorem declared_fields (ds : List (String × Schema)) (w : Wording) :
    (fields ds w).declared = Table.lastDeclared ds := Table.entries_ofList ds

theorem map_fst_declared (s : Schema) : s.declared.map Prod.fst = s.names := by
  cases s <;> rfl

theorem declared_declare (ds : List (String × Schema)) (w : Wording) (name : String)
    (field : Schema) : ((fields ds w).declare name field).declared =
      Table.put name field (fields ds w).declared := by
  change (Table.ofList (ds ++ [(name, field)])).entries = _
  rw [Table.ofList_concat]
  rfl

theorem declared_declare_of_notMem {ds : List (String × Schema)} {w : Wording} {name : String}
    {field : Schema} (h : name ∉ (fields ds w).names) :
    ((fields ds w).declare name field).declared = (fields ds w).declared ++ [(name, field)] := by
  rw [declared_declare]
  exact Table.put_of_notMem h

theorem declared_declare_of_eq {ds before after : List (String × Schema)} {w : Wording}
    {name : String} {old field : Schema}
    (h : (fields ds w).declared = before ++ (name, old) :: after) :
    ((fields ds w).declare name field).declared = before ++ (name, field) :: after := by
  have hdistinct : ((fields ds w).declared.map Prod.fst).Nodup := (Table.ofList ds).distinct
  rw [h, List.map_append, List.map_cons, List.nodup_append] at hdistinct
  obtain ⟨-, -, hdisjoint⟩ := hdistinct
  rw [declared_declare, h]
  exact Table.put_append_cons fun hname => hdisjoint name hname name (.head _) rfl

theorem description_fields (ds : List (String × Schema)) (w : Wording) :
    (fields ds w).description =
      if (Table.lastDeclared ds).isEmpty then "Partial<\x7b\x7d>"
      else "Partial<\x7b " ++ String.intercalate ", "
        ((Table.lastDeclared ds).map fun d => d.1 ++ ": " ++ d.2.description) ++ " \x7d>" := by
  simp [description, Table.isEmpty_lastDeclared, Function.comp_def]

/-- Schemas that show, accept and find the same. -/
structure Interchangeable (s t : Schema) : Prop where
  description : s.description = t.description
  accepts : ∀ v, s.accepts v = t.accepts v
  findings : ∀ v, s.findings v = t.findings v

theorem interchangeable_of_lastDeclared_eq {ds es : List (String × Schema)} (w : Wording)
    (h : Table.lastDeclared ds = Table.lastDeclared es) :
    (fields ds w).Interchangeable (fields es w) where
  description := by rw [description_fields, description_fields, h]
  accepts v := by
    cases v with
    | object entries => simp [h]
    | _ => simp only [Schema.accepts]
  findings v := by
    cases v with
    | object entries => simp [h]
    | _ => rfl

/-- However many fields have been declared one after the other, their table records the declarations:
the next one appends a new name or replaces an old one where it stands. The fields are what they are
if declared all at once, and interchangeable with those declared from the table alone. Each one that
an object has is checked once. -/
theorem declared_fields_are_last_declarations (ds : List (String × Schema)) (w : Wording) :
    let s := (fields [] w).declareAll ds
    s.names = s.declared.map Prod.fst ∧ Table.Records ds s.declared ∧
      (∀ name field, name ∉ s.names →
        (s.declare name field).declared = s.declared ++ [(name, field)]) ∧
      (∀ before name old after field, s.declared = before ++ (name, old) :: after →
        (s.declare name field).declared = before ++ (name, field) :: after) ∧
      s = fields ds w ∧ s.Interchangeable (fields s.declared w) ∧
      ∀ entries, s.findings (.object entries) = s.declared.flatMap (fieldFindingsAt entries) := by
  intro s
  have hs : s = fields ds w := declareAll_fields [] ds w
  rw [hs, declared_fields]
  refine ⟨?_, Table.records_lastDeclared ds, ?_, ?_, rfl, ?_, findings_fields_object ds w⟩
  · rw [← map_fst_declared, declared_fields]
  · intro name field h
    rw [declared_declare_of_notMem h, declared_fields]
  · intro before name old after field h
    exact declared_declare_of_eq ((declared_fields ds w).trans h)
  · have hself := Table.lastDeclared_eq_self (Table.nodup_lastDeclared ds)
    exact interchangeable_of_lastDeclared_eq w hself.symm

theorem declared_fields_are_last_declarations_of_two_names :
    let c (x : Category) : Schema := .category x .standard
    let s := (fields [] .standard).declareAll [("a", c .string), ("b", c .number), ("a", c .null)]
    (s.declared = [("a", c .null), ("b", c .number)] ∧ "c" ∉ s.names) ∧
      (s.declare "c" (c .array)).declared =
        [("a", c .null), ("b", c .number), ("c", c .array)] ∧
      (s.declare "a" (c .array)).declared = [("a", c .array), ("b", c .number)] ∧
      s.Interchangeable (fields [("a", c .null), ("b", c .number)] .standard) := by
  intro c s
  have hs : s.declared = [("a", c .null), ("b", c .number)] := by rfl
  have hc : "c" ∉ s.names := by decide
  obtain ⟨-, -, appended, replaced, -, same, -⟩ := declared_fields_are_last_declarations
    [("a", c .string), ("b", c .number), ("a", c .null)] .standard
  exact ⟨⟨hs, hc⟩, (appended "c" (c .array) hc).trans (by rw [hs]; rfl),
    replaced [] "a" (c .null) [("b", c .number)] (c .array) hs, hs ▸ same⟩

end Schema
end Conform
