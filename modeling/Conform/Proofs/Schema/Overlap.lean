import Conform.Proofs.Schema.Declarations
import Conform.Proofs.Schema.Site
import Conform.Proofs.Value.Equality

set_option autoImplicit false

namespace Conform.Schema

theorem findings_eq_of_children_eq {s t : Schema} {v u : Value} (hs : s.defect? v = none)
    (ht : t.defect? u = none) (h : s.children v = t.children u) : s.findings v = t.findings u := by
  rw [findings_eq_children, findings_eq_children, hs, ht, h]
  rfl

theorem children_tuple_replicate (s : Schema) (w u : Wording) (items : List Value) :
    (tuple (List.replicate items.length s) w).children (.array items) =
      (arrayOf s u).children (.array items) := by
  refine List.ext_getElem ?_ fun i hi hi' => ?_
  · simp [children]
  · have hlt : i < items.length := by simpa [children] using hi'
    simp [children, hlt]

theorem findings_each_array (s : Schema) (w u : Wording) (items : List Value) :
    (each s w).findings (.array items) = (arrayOf s u).findings (.array items) :=
  findings_eq_of_children_eq rfl rfl rfl

theorem findings_tuple_replicate (s : Schema) (w u : Wording) (items : List Value) :
    (tuple (List.replicate items.length s) w).findings (.array items) =
      (arrayOf s u).findings (.array items) :=
  findings_eq_of_children_eq rfl rfl (children_tuple_replicate s w u items)

theorem findings_record_eq_fields {k : Schema} (s : Schema) (w u : Wording)
    {entries : List (String × Value)} (names : (entries.map Prod.fst).Nodup)
    (hk : ∀ x ∈ entries, k.findings (.string x.1) = []) :
    (record k s w).findings (.object entries) =
      (fields (entries.map fun x => (x.1, s)) u).findings (.object entries) := by
  have hdeclared : Table.lastDeclared (entries.map fun x => (x.1, s)) =
      entries.map fun x => (x.1, s) := by
    refine Table.lastDeclared_eq_self ?_
    rw [List.map_map]
    exact names
  rw [findings_fields_object, hdeclared, List.flatMap_map, findings]
  apply List.flatMap_congr
  rintro ⟨name, x⟩ hx
  have hlookup : entries.lookup name = some x :=
    (Table.lookup_eq_some_iff_mem names name x).2 hx
  have hname : k.findings (.string name) = [] := hk (name, x) hx
  simp only [fieldFindingsAt, hlookup, hname, List.nil_append]

/-- On an array, one check of all items finds the same as an array check, as an iteration and as a
tuple of that many positions. On an object, one check of all entries finds the same in a record as in
fields that are declared for each of its names. -/
theorem containers_agree (s : Schema) :
    (∀ w u items, (each s w).findings (.array items) = (arrayOf s u).findings (.array items)) ∧
    (∀ w u items, (tuple (List.replicate items.length s) w).findings (.array items) =
      (arrayOf s u).findings (.array items)) ∧
    ∀ w u t (entries : List (String × Value)), (entries.map Prod.fst).Nodup →
      (record (category .string t) s w).findings (.object entries) =
        (fields (entries.map fun x => (x.1, s)) u).findings (.object entries) := by
  refine ⟨findings_each_array s, findings_tuple_replicate s, ?_⟩
  intro w u t entries names
  exact findings_record_eq_fields s w u names fun _ _ => rfl

theorem containers_agree_on_pairs :
    let m (text : String) : Wording := .custom (.fixed text)
    let s : Schema := .arrayOf (.category .null .standard) (m "nulls")
    let entries : List (String × Value) :=
      [("b", .array [.null, .bool true]), ("a", .array [.string "x", .null])]
    (entries.map Prod.fst).Nodup ∧
      ((record (category .string (m "text")) s (m "record")).findings (.object entries)).map
        (·.path) = [[.key "b", .index 1], [.key "a", .index 0]] ∧
      (record (category .string (m "text")) s (m "record")).findings (.object entries) =
        (fields [("b", s), ("a", s)] (m "fields")).findings (.object entries) := by
  intro m s entries
  have names : (entries.map Prod.fst).Nodup := by decide
  exact ⟨names, by decide, (containers_agree s).2.2 (m "record") (m "fields") (m "text") _ names⟩

end Conform.Schema
