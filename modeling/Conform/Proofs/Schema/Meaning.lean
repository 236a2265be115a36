import Conform.Proofs.Schema.Site

set_option autoImplicit false

namespace Conform

def Category.Contains : Category → Value → Prop
  | string, v => ∃ text, v = .string text
  | number, v => ∃ n, v = .number n
  | boolean, v => ∃ b, v = .bool b
  | null, v => v = .null
  | array, v => ∃ items, v = .array items
  | object, v => ∃ entries, v = .object entries

theorem category_eq_iff_contains (v : Value) (c : Category) : v.category = c ↔ c.Contains v := by
  cases c <;> cases v <;> simp [Value.category, Category.Contains]

namespace Schema

/-- Of declared fields, those that are present count, each by its last declaration. -/
def Admits : Schema → Value → Prop
  | category c _, v => c.Contains v
  | literal l _, v => v.agrees l = true
  | anyArray _, v => ∃ items, v = .array items
  | arrayOf e _, v => ∃ items, v = .array items ∧ ∀ x ∈ items, e.Admits x
  | tuple ps _, v =>
    ∃ items, v = .array items ∧ ps.length ≤ items.length ∧
      ∀ (i : Nat) (_ : i < ps.length) (x : Value), items[i]? = some x → ps[i].Admits x
  | record k e _, v =>
    ∃ entries, v = .object entries ∧ ∀ x ∈ entries, k.Admits (.string x.1) ∧ e.Admits x.2
  | fields ds _, v =>
    ∃ entries, v = .object entries ∧
      ∀ before d after, (_ : ds = before ++ d :: after) → d.1 ∉ after.map Prod.fst →
        ∀ x, entries.lookup d.1 = some x → d.2.Admits x
  | each e _, v =>
    (∃ items, v = .array items ∧ ∀ x ∈ items, e.Admits x) ∨
      ∃ text, v = .string text ∧ ∀ c ∈ text.toList, e.Admits (.string c.toString)
  | size .atLeast limit _, v => ∃ n, v.count? = some n ∧ limit ≤ n
  | size .atMost limit _, v => ∃ n, v.count? = some n ∧ n ≤ limit
  | anyOf bs _, v => ∃ b, ∃ _ : b ∈ bs, b.Admits v
  | both l r _, v => l.Admits v ∧ r.Admits v
termination_by s => sizeOf s
decreasing_by
  all_goals try simp_wf
  · omega
  · have h := List.sizeOf_lt_of_mem (List.getElem_mem ‹i < ps.length›)
    omega
  · omega
  · omega
  · have hd : d ∈ ds := by simp [‹ds = before ++ d :: after›]
    have h := List.sizeOf_lt_of_mem hd
    obtain ⟨name, s⟩ := d
    simp only [Prod.mk.sizeOf_spec] at h ⊢
    omega
  · omega
  · omega
  · have h := List.sizeOf_lt_of_mem ‹b ∈ bs›
    omega
  · omega
  · omega

theorem accepts_tuple_iff (ps : List Schema) (items : List Value) (w : Wording) :
    (tuple ps w).accepts (.array items) = true ↔
      ps.length ≤ items.length ∧
        ∀ (i : Nat) (_ : i < ps.length) (x : Value), items[i]? = some x → ps[i].accepts x = true := by
  rw [accepts_tuple_array, List.all_eq_true]
  constructor
  · intro h
    have hitem : ∀ (i : Nat) (hi : i < ps.length), (items[i]?).any ps[i].accepts = true :=
      fun i hi => h (ps[i], i) (List.mem_zipIdx_iff_getElem?.2 (List.getElem?_eq_getElem hi))
    refine ⟨?_, fun i hi x hx => ?_⟩
    · by_contra hlt
      have hi : items.length < ps.length := by omega
      have hnone := hitem items.length hi
      rw [List.getElem?_eq_none (Nat.le_refl _)] at hnone
      cases hnone
    · have hx' := hitem i hi
      rw [hx] at hx'
      exact hx'
  · rintro ⟨hlen, h⟩ ⟨p, i⟩ hp
    have hpi : ps[i]? = some p := List.mem_zipIdx_iff_getElem?.1 hp
    obtain ⟨hi, rfl⟩ := List.getElem?_eq_some_iff.1 hpi
    have hlt : i < items.length := by omega
    simp only [List.getElem?_eq_getElem hlt, Option.any_some]
    exact h i hi _ (List.getElem?_eq_getElem hlt)

theorem accepts_fields_iff_lookup (ds : List (String × Schema)) (entries : List (String × Value))
    (w : Wording) :
    (fields ds w).accepts (.object entries) = true ↔
      ∀ name s x, ds.reverse.lookup name = some s → entries.lookup name = some x →
        s.accepts x = true := by
  rw [accepts_fields_object, List.all_eq_true]
  constructor
  · intro h name s x hs hx
    have hd := h (name, s) ((Table.mem_lastDeclared ds name s).2 hs)
    rwa [hx] at hd
  · intro h d hd
    cases hx : entries.lookup d.1 with
    | none => rfl
    | some x => exact h d.1 d.2 x ((Table.mem_lastDeclared ds d.1 d.2).1 hd) hx

theorem accepts_fields_iff (ds : List (String × Schema)) (entries : List (String × Value))
    (w : Wording) :
    (fields ds w).accepts (.object entries) = true ↔
      ∀ before d after, ds = before ++ d :: after → d.1 ∉ after.map Prod.fst →
        ∀ x, entries.lookup d.1 = some x → d.2.accepts x = true := by
  rw [accepts_fields_iff_lookup]
  constructor
  · intro h before d after e hd x hx
    exact h d.1 d.2 x ((Table.lookup_reverse_eq_some_iff ds d.1 d.2).2 ⟨before, after, e, hd⟩) hx
  · intro h name s x hs hx
    obtain ⟨before, after, e, hn⟩ := (Table.lookup_reverse_eq_some_iff ds name s).1 hs
    exact h before (name, s) after e hn x hx

theorem accepts_size_iff (b : SizeBound) (limit : Nat) (w : Wording) (v : Value) :
    (size b limit w).accepts v = true ↔ (size b limit w).Admits v := by
  rw [accepts_size]
  cases b with
  | atLeast => simp [Admits, Option.any_eq_true, SizeBound.holds]
  | atMost => simp [Admits, Option.any_eq_true, SizeBound.holds]

theorem accepts_oneOf_iff (literals : List Value) (v : Value) :
    (oneOf literals).accepts v = true ↔ ∃ l ∈ literals, v.agrees l = true := by
  simp [oneOf, accepts]

theorem accepts_eq_true_iff (s : Schema) (v : Value) : s.accepts v = true ↔ s.Admits v := by
  induction s generalizing v with
  | category c w =>
    rw [accepts, Admits, beq_iff_eq]
    exact category_eq_iff_contains v c
  | literal l w => rw [accepts, Admits]
  | anyArray w =>
    rw [accepts, Admits, beq_iff_eq]
    exact category_eq_iff_contains v .array
  | arrayOf e w ih =>
    rw [Admits]
    cases v with
    | array items => simp [accepts, ih]
    | _ => simp [accepts]
  | tuple ps w ih =>
    rw [Admits]
    cases v with
    | array items =>
      have hp : ∀ (i : Nat) (hi : i < ps.length) (x : Value),
          ps[i].accepts x = true ↔ ps[i].Admits x :=
        fun i hi x => ih _ (List.getElem_mem hi) x
      rw [accepts_tuple_iff]
      simp only [hp, Value.array.injEq, exists_eq_left']
    | _ => simp [accepts]
  | record k e w ihk ihe =>
    rw [Admits]
    cases v with
    | object entries => simp [accepts, ihk, ihe]
    | _ => simp [accepts]
  | fields ds w ih =>
    rw [Admits]
    cases v with
    | object entries =>
      have hd : ∀ before d after, ds = before ++ d :: after → ∀ x,
          (d.2.accepts x = true ↔ d.2.Admits x) :=
        fun before d after e x => ih d (by simp [e]) x
      rw [accepts_fields_iff]
      simp only [Value.object.injEq, exists_eq_left']
      refine forall_congr' fun before => forall_congr' fun d => forall_congr' fun after => ?_
      refine forall_congr' fun e => ?_
      simp only [hd before d after e]
    | _ => simp [accepts]
  | each e w ih =>
    rw [Admits]
    cases v with
    | array items => simp [accepts, Value.elements?, ih]
    | string text => simp [accepts, Value.elements?, ih]
    | _ => simp [accepts, Value.elements?]
  | size b limit w => exact accepts_size_iff b limit w v
  | anyOf bs w ih =>
    rw [Admits]
    simpa using exists_congr fun b => and_congr_right fun hb => ih b hb v
  | both l r w ihl ihr => rw [accepts, Bool.and_eq_true, ihl, ihr, Admits]

/-- A schema accepts the documents that it stands for; a choice between literals, those that agree
with one of them. -/
theorem accepts_iff_admits :
    (∀ (s : Schema) (v : Value), s.accepts v = true ↔ s.Admits v) ∧
      ∀ (literals : List Value) (v : Value),
        (oneOf literals).accepts v = true ↔ ∃ l ∈ literals, v.agrees l = true := by
  constructor
  · exact accepts_eq_true_iff
  · exact accepts_oneOf_iff

end Schema
end Conform
