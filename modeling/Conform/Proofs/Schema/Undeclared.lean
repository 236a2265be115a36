import Conform.Proofs.Schema.Overlap

set_option autoImplicit false

namespace Conform

namespace Table

variable {α : Type}

theorem put_filter_of_pos {p : String → Bool} {name : String} (h : p name = true) (a : α)
    (es : List (String × α)) :
    put name a (es.filter fun e => p e.1) = (put name a es).filter fun e => p e.1 := by
  induction es with
  | nil => simp [put, h]
  | cons e rest ih =>
    obtain ⟨n, b⟩ := e
    by_cases hn : n = name
    · subst hn
      simp [put, h]
    · cases hp : p n <;> simp [put, hn, hp, ih]

theorem put_filter_of_neg {p : String → Bool} {name : String} (h : p name = false) (a : α)
    (es : List (String × α)) :
    ((put name a es).filter fun e => p e.1) = es.filter fun e => p e.1 := by
  induction es with
  | nil => simp [put, h]
  | cons e rest ih =>
    obtain ⟨n, b⟩ := e
    by_cases hn : n = name
    · subst hn
      simp [put, h]
    · simp only [put, if_neg hn, List.filter_cons, ih]

theorem lastDeclared_filter (p : String → Bool) (ds : List (String × α)) :
    lastDeclared (ds.filter fun d => p d.1) = (lastDeclared ds).filter fun d => p d.1 := by
  rw [← entries_ofList, ← entries_ofList]
  induction ds using List.reverseRecOn with
  | nil => rfl
  | append_singleton ds d ih =>
    rw [List.filter_append, ofList_concat]
    change _ = (put d.1 d.2 (ofList ds).entries).filter _
    cases h : p d.1 with
    | false =>
      rw [List.filter_singleton, h, put_filter_of_neg h, ← ih]
      simp
    | true =>
      rw [List.filter_singleton, h, ← put_filter_of_pos h, ← ih]
      change (ofList (_ ++ [d])).entries = _
      rw [ofList_concat]
      rfl

theorem lookup_congr_of_mem_iff {es fs : List (String × α)} {name : String}
    (hes : (es.map Prod.fst).Nodup) (hfs : (fs.map Prod.fst).Nodup)
    (h : ∀ a, (name, a) ∈ es ↔ (name, a) ∈ fs) : es.lookup name = fs.lookup name := by
  refine Option.ext fun a => ?_
  rw [lookup_eq_some_iff_mem hes, lookup_eq_some_iff_mem hfs, h]

end Table

theorem flatMap_filter_of_nil {α β : Type} {p : α → Bool} {f : α → List β} (xs : List α)
    (h : ∀ x, p x = false → f x = []) : (xs.filter p).flatMap f = xs.flatMap f := by
  induction xs with
  | nil => rfl
  | cons x xs ih =>
    cases hx : p x with
    | true => rw [List.filter_cons_of_pos hx, List.flatMap_cons, List.flatMap_cons, ih]
    | false =>
      rw [List.filter_cons_of_neg (by simp [hx]), List.flatMap_cons, h x hx, List.nil_append, ih]

namespace Finding

def below (t : Segment) (fs : List Finding) : List Finding := fs.filter fun f => f.path.head? = some t

theorem below_map_under_self (t : Segment) (fs : List Finding) :
    below t (fs.map (under t)) = fs.map (under t) := by
  refine List.filter_eq_self.2 fun f hf => ?_
  obtain ⟨g, _, rfl⟩ := List.mem_map.1 hf
  exact decide_eq_true rfl

theorem below_map_under_of_ne {t u : Segment} (h : u ≠ t) (fs : List Finding) :
    below t (fs.map (under u)) = [] := by
  refine List.filter_eq_nil_iff.2 fun f hf => ?_
  obtain ⟨g, _, rfl⟩ := List.mem_map.1 hf
  simpa [under, Defect.under] using h

end Finding

namespace Schema

theorem below_fieldFindingsAt_self (es : List (String × Value)) (d : String × Schema) :
    Finding.below (.key d.1) (fieldFindingsAt es d) = fieldFindingsAt es d := by
  unfold fieldFindingsAt
  cases es.lookup d.1 with
  | none => rfl
  | some x => exact Finding.below_map_under_self _ _

theorem below_fieldFindingsAt_of_ne {name : String} (es : List (String × Value))
    {d : String × Schema} (h : d.1 ≠ name) :
    Finding.below (.key name) (fieldFindingsAt es d) = [] := by
  unfold fieldFindingsAt
  cases es.lookup d.1 with
  | none => rfl
  | some x =>
    refine Finding.below_map_under_of_ne (fun e => h ?_) _
    injection e

theorem below_flatMap_fieldFindingsAt (es : List (String × Value)) {ds : List (String × Schema)}
    (names : (ds.map Prod.fst).Nodup) {d : String × Schema} (hd : d ∈ ds) :
    Finding.below (.key d.1) (ds.flatMap (fieldFindingsAt es)) = fieldFindingsAt es d := by
  induction ds with
  | nil => cases hd
  | cons e rest ih =>
    obtain ⟨hnew, hrest⟩ := List.nodup_cons.1 names
    rw [List.flatMap_cons, Finding.below, List.filter_append]
    change Finding.below _ _ ++ Finding.below _ _ = _
    rcases List.mem_cons.1 hd with rfl | hd
    · have hothers : Finding.below (.key d.1) (rest.flatMap (fieldFindingsAt es)) = [] := by
        rw [Finding.below, List.filter_flatMap, List.flatMap_eq_nil_iff]
        intro e he
        exact below_fieldFindingsAt_of_ne es fun h => hnew (h ▸ List.mem_map_of_mem he)
      rw [below_fieldFindingsAt_self, hothers, List.append_nil]
    · have hne : e.1 ≠ d.1 := fun h => hnew (h ▸ List.mem_map_of_mem hd)
      rw [below_fieldFindingsAt_of_ne es hne, List.nil_append, ih hrest hd]

theorem findings_fields_eq_flatMap_names (ds : List (String × Schema)) (w : Wording)
    (es : List (String × Value)) :
    (fields ds w).findings (.object es) = (fields ds w).names.flatMap fun name =>
      Finding.below (.key name) ((fields ds w).findings (.object es)) := by
  rw [findings_fields_object, ← map_fst_declared, declared_fields, List.flatMap_map]
  refine (List.flatMap_congr fun d hd => ?_).symm
  exact below_flatMap_fieldFindingsAt es (Table.nodup_lastDeclared ds) hd

theorem fieldFindingsAt_of_absent {es : List (String × Value)} {d : String × Schema}
    (h : d.1 ∉ es.map Prod.fst) : fieldFindingsAt es d = [] := by
  have hlookup : es.lookup d.1 = none := by
    refine Option.eq_none_iff_forall_ne_some.2 fun x hx => h ?_
    exact List.mem_map_of_mem (Table.mem_of_lookup hx)
  rw [fieldFindingsAt, hlookup]

theorem findings_fields_present (ds : List (String × Schema)) (w : Wording)
    (es : List (String × Value)) :
    (fields (ds.filter fun d => d.1 ∈ es.map Prod.fst) w).findings (.object es) =
      (fields ds w).findings (.object es) := by
  rw [findings_fields_object, findings_fields_object,
    Table.lastDeclared_filter (fun name => name ∈ es.map Prod.fst) ds]
  refine flatMap_filter_of_nil _ fun d hd => ?_
  exact fieldFindingsAt_of_absent (of_decide_eq_false hd)

theorem children_fields_congr (ds : List (String × Schema)) (w : Wording)
    {es fs : List (String × Value)}
    (h : ∀ name ∈ (fields ds w).names, es.lookup name = fs.lookup name) :
    (fields ds w).children (.object es) = (fields ds w).children (.object fs) := by
  refine List.filterMap_congr fun d hd => ?_
  have hname : d.1 ∈ (fields ds w).names := by
    rw [← map_fst_declared, declared_fields]
    exact List.mem_map_of_mem hd
  rw [h d.1 hname]

theorem children_tuple_congr (ps : List Schema) (w : Wording) {xs ys : List Value}
    (h : ∀ i < ps.length, xs[i]? = ys[i]?) :
    (tuple ps w).children (.array xs) = (tuple ps w).children (.array ys) := by
  refine List.map_congr_left fun p hp => ?_
  have hi : p.2 < ps.length := List.snd_lt_of_mem_zipIdx hp
  rw [h p.2 hi]

theorem head?_path_of_mem_findings_tuple {ps : List Schema} {w : Wording} {xs : List Value}
    {f : Finding} (h : f ∈ (tuple ps w).findings (.array xs)) :
    ∃ i < ps.length, f.path.head? = some (.index i) := by
  rw [findings_tuple_array] at h
  obtain ⟨p, hp, hf⟩ := List.mem_flatMap.1 h
  refine ⟨p.2, List.snd_lt_of_mem_zipIdx hp, ?_⟩
  unfold positionFindingsAt at hf
  cases hx : xs[p.2]? with
  | none =>
    rw [hx] at hf
    rw [List.mem_singleton.1 hf]
    rfl
  | some x =>
    rw [hx] at hf
    obtain ⟨g, _, rfl⟩ := List.mem_map.1 hf
    rfl

theorem answers_eq_of_children_eq {s : Schema} {v u : Value} (hv : s.defect? v = none)
    (hu : s.defect? u = none) (h : s.children v = s.children u) :
    s.accepts v = s.accepts u ∧ s.findings v = s.findings u := by
  have hfindings : s.findings v = s.findings u := findings_eq_of_children_eq hv hu h
  exact ⟨by rw [accepts_eq_isEmpty, accepts_eq_isEmpty, hfindings], hfindings⟩

/-- Objects that have the same values under the declared names, wherever these stand among others,
get the same answers, and so do arrays that have the same items at the positions of a tuple. What is
found in an object stands in the order in which the names are declared, and the declaration of a name
that it does not have contributes nothing. What is found in an array stands at one of the
positions. -/
theorem undeclared_data_is_unseen (ds : List (String × Schema)) (ps : List Schema) (w : Wording) :
    let s := fields ds w
    let t := tuple ps w
    (s.names = (ds.map Prod.fst).eraseDups ∧
      ∀ es, s.findings (.object es) =
        s.names.flatMap fun name => Finding.below (.key name) (s.findings (.object es))) ∧
    (∀ es, (fields (ds.filter fun d => d.1 ∈ es.map Prod.fst) w).findings (.object es) =
      s.findings (.object es)) ∧
    (∀ es fs : List (String × Value), (es.map Prod.fst).Nodup → (fs.map Prod.fst).Nodup →
      (∀ name ∈ s.names, ∀ x, (name, x) ∈ es ↔ (name, x) ∈ fs) →
      s.accepts (.object es) = s.accepts (.object fs) ∧
        s.findings (.object es) = s.findings (.object fs)) ∧
    (∀ xs ys : List Value, (∀ i < ps.length, xs[i]? = ys[i]?) →
      t.accepts (.array xs) = t.accepts (.array ys) ∧
        t.findings (.array xs) = t.findings (.array ys)) ∧
    ∀ xs, ∀ f ∈ t.findings (.array xs), ∃ i < ps.length, f.path.head? = some (.index i) := by
  intro s t
  refine ⟨⟨Table.names_ofList ds, findings_fields_eq_flatMap_names ds w⟩,
    findings_fields_present ds w, ?_, ?_, fun _ _ => head?_path_of_mem_findings_tuple⟩
  · intro es fs hes hfs h
    refine answers_eq_of_children_eq rfl rfl (children_fields_congr ds w fun name hname => ?_)
    exact Table.lookup_congr_of_mem_iff hes hfs (h name hname)
  · intro xs ys h
    exact answers_eq_of_children_eq rfl rfl (children_tuple_congr ps w h)

/-- An object with one of two declared names, where an undeclared entry is added and the other entry
moves behind it, and pairs of which one has an item too many or both lack their second item. -/
theorem undeclared_data_is_unseen_around_name :
    let c (x : Category) : Schema := .category x .standard
    let s := fields [("a", c .null), ("b", .arrayOf (c .string) .standard)] .standard
    let t := tuple [c .string, c .number] .standard
    let es : List (String × Value) := [("b", .array [.null]), ("x", .null)]
    let fs : List (String × Value) := [("y", .bool true), ("x", .nat 1), ("b", .array [.null])]
    (((es.map Prod.fst).Nodup ∧ (fs.map Prod.fst).Nodup ∧
      ∀ name ∈ s.names, ∀ x, (name, x) ∈ es ↔ (name, x) ∈ fs) ∧
      (s.findings (.object es)).map (·.path) = [[.key "b", .index 0]] ∧
      s.findings (.object es) = s.findings (.object fs)) ∧
    ((∀ i < 2, [Value.null, .null][i]? = [Value.null, .null, .bool true][i]?) ∧
      t.findings (.array [.null, .null]) = t.findings (.array [.null, .null, .bool true])) ∧
    (t.findings (.array [.null])).map (·.path) = [[.index 0], [.index 1]] := by
  intro c s t es fs
  have hes : (es.map Prod.fst).Nodup := by decide
  have hfs : (fs.map Prod.fst).Nodup := by decide
  have hsame : ∀ name ∈ s.names, ∀ x, (name, x) ∈ es ↔ (name, x) ∈ fs := by
    intro name hname x
    have hnames : s.names = ["a", "b"] := by decide
    rw [hnames] at hname
    simp only [List.mem_cons, List.not_mem_nil, or_false] at hname
    rcases hname with rfl | rfl <;> simp [es, fs]
  have hitems : ∀ i < 2, [Value.null, .null][i]? = [Value.null, .null, .bool true][i]? := by
    intro i hi
    match i, hi with
    | 0, _ => rfl
    | 1, _ => rfl
  obtain ⟨-, -, hobjects, harrays, -⟩ := undeclared_data_is_unseen
    [("a", c .null), ("b", .arrayOf (c .string) .standard)] [c .string, c .number] .standard
  exact ⟨⟨⟨hes, hfs, hsame⟩, by decide, (hobjects es fs hes hfs hsame).2⟩,
    ⟨hitems, (harrays _ _ hitems).2⟩, by decide⟩

end Schema
end Conform
