import Conform.Proofs.Table
import Conform.Schema.Findings

set_option autoImplicit false

namespace Conform.Schema

@[elab_as_elim, induction_eliminator]
theorem ind {motive : Schema → Prop}
    (category : ∀ c w, motive (.category c w))
    (literal : ∀ l w, motive (.literal l w))
    (anyArray : ∀ w, motive (.anyArray w))
    (arrayOf : ∀ e w, motive e → motive (.arrayOf e w))
    (tuple : ∀ ps w, (∀ p ∈ ps, motive p) → motive (.tuple ps w))
    (record : ∀ k e w, motive k → motive e → motive (.record k e w))
    (fields : ∀ ds w, (∀ d ∈ ds, motive d.2) → motive (.fields ds w))
    (each : ∀ e w, motive e → motive (.each e w))
    (size : ∀ b n w, motive (.size b n w))
    (anyOf : ∀ bs w, (∀ b ∈ bs, motive b) → motive (.anyOf bs w))
    (both : ∀ l r w, motive l → motive r → motive (.both l r w)) (s : Schema) : motive s :=
  @Schema.rec motive (fun ss => ∀ s ∈ ss, motive s) (fun ds => ∀ d ∈ ds, motive d.2)
    (fun d => motive d.2)
    category literal anyArray arrayOf tuple record fields each size anyOf both
    (fun _ h => nomatch h)
    (fun _ _ hs hss => List.forall_mem_cons.2 ⟨hs, hss⟩)
    (fun _ h => nomatch h)
    (fun _ _ hd hds => List.forall_mem_cons.2 ⟨hd, hds⟩)
    (fun _ _ h => h) s

@[simp]
theorem accepts_anyOf_iff (bs : List Schema) (w : Wording) (v : Value) :
    (anyOf bs w).accepts v = true ↔ ∃ b ∈ bs, b.accepts v = true := by
  simp [accepts]

theorem acceptsItems_drop (ps : List Schema) (items : List Value) (k : Nat) :
    acceptsItems ps (items.drop k) = (ps.zipIdx k).all fun p => items[p.2]?.any p.1.accepts := by
  -- The index of a position grows as the items are used up, so `k` cannot be fixed to `0`.
  induction ps generalizing k with
  | nil => rfl
  | cons p ps ih =>
    rw [List.zipIdx_cons, List.all_cons, ← ih (k + 1)]
    rcases Nat.lt_or_ge k items.length with h | h
    · rw [List.drop_eq_getElem_cons h, List.getElem?_eq_getElem h]
      rfl
    · rw [List.drop_eq_nil_of_le h, List.getElem?_eq_none h]
      rfl

@[simp]
theorem accepts_tuple_array (ps : List Schema) (w : Wording) (items : List Value) :
    (tuple ps w).accepts (.array items) =
      ps.zipIdx.all fun p => items[p.2]?.any p.1.accepts := by
  have h := acceptsItems_drop ps items 0
  rw [List.drop_zero] at h
  rw [← h, accepts]

def positionFindingsAt (items : List Value) (p : Schema × Nat) : List Finding :=
  match items[p.2]? with
  | some x => (p.1.findings x).map (Finding.under (.index p.2))
  | none => [p.1.missing.under (.index p.2)]

theorem positionFindings_drop (ps : List Schema) (items : List Value) (k : Nat) :
    positionFindings ps (items.drop k) k = (ps.zipIdx k).flatMap (positionFindingsAt items) := by
  induction ps generalizing k with
  | nil => simp [positionFindings]
  | cons p ps ih =>
    rw [List.zipIdx_cons, List.flatMap_cons, ← ih (k + 1)]
    rcases Nat.lt_or_ge k items.length with h | h
    · rw [List.drop_eq_getElem_cons h, positionFindings, positionFindingsAt,
        List.getElem?_eq_getElem h]
    · rw [List.drop_eq_nil_of_le h, List.drop_eq_nil_of_le (Nat.le_succ_of_le h),
        positionFindings, positionFindingsAt, List.getElem?_eq_none h]
      rfl

@[simp]
theorem findings_tuple_array (ps : List Schema) (w : Wording) (items : List Value) :
    (tuple ps w).findings (.array items) = ps.zipIdx.flatMap (positionFindingsAt items) := by
  have h := positionFindings_drop ps items 0
  rw [List.drop_zero] at h
  rw [← h, findings]

@[simp]
theorem accepts_fields_object (ds : List (String × Schema)) (w : Wording)
    (entries : List (String × Value)) :
    (fields ds w).accepts (.object entries) =
      (Table.lastDeclared ds).all fun d => (entries.lookup d.1).all d.2.accepts := by
  simp [accepts, Function.comp_def]

def fieldFindingsAt (entries : List (String × Value)) (d : String × Schema) : List Finding :=
  match entries.lookup d.1 with
  | some x => (d.2.findings x).map (Finding.under (.key d.1))
  | none => []

@[simp]
theorem findings_fields_object (ds : List (String × Schema)) (w : Wording)
    (entries : List (String × Value)) :
    (fields ds w).findings (.object entries) =
      (Table.lastDeclared ds).flatMap (fieldFindingsAt entries) := by
  simp only [findings, fieldFindings_eq_map, Table.entries_ofList, Table.lastDeclared_map,
    List.flatMap_map]
  rfl

end Conform.Schema
