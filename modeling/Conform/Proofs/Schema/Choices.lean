import Conform.Proofs.Schema.Recursion

set_option autoImplicit false

namespace Conform

namespace Listing

/-- The items stand in the text one after the other, with anything before, between and after. -/
inductive Holds : String → List String → Prop where
  | nil (text : String) : Holds text []
  | cons (gap : String) {item text : String} {items : List String} (h : Holds text items) :
      Holds (gap ++ item ++ text) (item :: items)

theorem Holds.append_left {text : String} {items : List String} (h : Holds text items)
    (gap : String) : Holds (gap ++ text) items := by
  cases h with
  | nil => exact .nil _
  | cons gap' h =>
    rw [← String.append_assoc, ← String.append_assoc]
    exact .cons (gap ++ gap') h

theorem Holds.cons_self {text : String} {items : List String} (h : Holds text items)
    (item : String) : Holds (item ++ text) (item :: items) := by
  have hcons : Holds ("" ++ item ++ text) (item :: items) := .cons "" h
  rwa [String.empty_append] at hcons

theorem holds_singleton (item : String) : Holds item [item] := by
  have hcons := (Holds.nil "").cons_self item
  rwa [String.append_empty] at hcons

theorem holds_pair (a gap b : String) : Holds (a ++ gap ++ b) [a, b] := by
  rw [String.append_assoc]
  exact ((holds_singleton b).append_left gap).cons_self a

theorem holds_series (items : List String) : Holds (series items) items := by
  induction items using series.induct with
  | case1 => exact .nil _
  | case2 a => exact holds_singleton a
  | case3 a b => exact holds_pair a ", or " b
  | case4 a rest hne hpair ih =>
    rw [series, String.append_assoc]
    · exact (ih.append_left ", ").cons_self a
    · exact hne
    · exact hpair

theorem holds_alternatives (items : List String) : Holds (alternatives items) items := by
  unfold alternatives
  split
  · exact holds_pair _ " or " _
  · exact holds_series items

end Listing

namespace Schema

theorem holds_alternatives (bs : List Schema) :
    Listing.Holds (alternatives bs) (bs.map description) := by
  cases bs with
  | nil => exact .nil _
  | cons b bs =>
    simpa [alternatives] using Listing.holds_alternatives ((b :: bs).map description)

theorem accepts_anyOf_congr {bs cs : List Schema} {v : Value}
    (h : (∃ b ∈ bs, b.accepts v = true) ↔ ∃ c ∈ cs, c.accepts v = true) (w u : Wording) :
    (anyOf bs w).accepts v = (anyOf cs u).accepts v := by
  rw [Bool.eq_iff_iff]
  simpa using h

theorem accepts_anyOf_flatten (before inner after : List Schema) (t w u : Wording) (v : Value) :
    (anyOf (before ++ anyOf inner t :: after) w).accepts v =
      (anyOf (before ++ inner ++ after) u).accepts v := by
  apply accepts_anyOf_congr
  simp only [List.mem_append, List.mem_cons, or_and_right, exists_or, exists_eq_left,
    accepts_anyOf_iff, or_assoc]

/-- A choice accepts what one of its branches accepts. So it does not matter in which order and how
often a branch is listed, nor if branches are listed in a choice of their own. A document that no
branch accepts is one finding, which names the document, has the wording of the choice and describes
the branches one after the other, whatever they would find themselves. -/
theorem choice_is_set_of_branches (bs : List Schema) (w : Wording) :
    (∀ v, (anyOf bs w).accepts v = true ↔ ∃ b ∈ bs, b.accepts v = true) ∧
    (∀ cs u v, (∀ b, b ∈ cs ↔ b ∈ bs) → (anyOf cs u).accepts v = (anyOf bs w).accepts v) ∧
    (∀ before inner after t u v, bs = before ++ anyOf inner t :: after →
      (anyOf (before ++ inner ++ after) u).accepts v = (anyOf bs w).accepts v) ∧
    (∀ v, (anyOf bs w).accepts v = false →
      (anyOf bs w).findings v = [⟨⟨[], .disjunctionMismatch, alternatives bs, v⟩, w⟩]) ∧
    Listing.Holds (alternatives bs) (bs.map description) ∧
    (bs = [] → alternatives bs = "never") := by
  refine ⟨accepts_anyOf_iff bs w, ?_, ?_, ?_, holds_alternatives bs, ?_⟩
  · intro cs u v h
    exact accepts_anyOf_congr (exists_congr fun b => and_congr_left fun _ => h b) u w
  · rintro before inner after t u v rfl
    exact (accepts_anyOf_flatten before inner after t w u v).symm
  · intro v h
    rw [accepts] at h
    rw [findings, h]
    rfl
  · rintro rfl
    rfl

theorem choice_is_set_of_branches_of_texts :
    let c (x : Category) : Schema := .category x .standard
    let w : Wording := .custom (.fixed "no")
    let pair : List Schema := [c .null, .arrayOf (c .string) .standard]
    let bs : List Schema := [c .string, .anyOf pair w, c .string]
    let cs : List Schema := [.anyOf pair w, c .string]
    let v : Value := .array [.null, .bool true]
    ((∀ b, b ∈ cs ↔ b ∈ bs) ∧ (anyOf bs w).accepts v = false) ∧
      (anyOf cs w).accepts v = (anyOf bs w).accepts v ∧
      (anyOf (c .string :: pair ++ [c .string]) w).accepts v = (anyOf bs w).accepts v ∧
      (anyOf bs w).findings v =
        [⟨⟨[], .disjunctionMismatch, "string, null | string[], or string", v⟩, w⟩] ∧
      Listing.Holds "string, null | string[], or string"
        ["string", "null | string[]", "string"] := by
  intro c w pair bs cs v
  have hmembers : ∀ b, b ∈ cs ↔ b ∈ bs := by
    intro b
    simp only [cs, bs, List.mem_cons, List.not_mem_nil, or_false]
    exact ⟨.inr, fun h => h.elim .inr id⟩
  have hrejects : (anyOf bs w).accepts v = false := by decide
  have htext : alternatives bs = "string, null | string[], or string" := by decide +kernel
  have hbranches : bs.map description = ["string", "null | string[]", "string"] := by
    decide +kernel
  obtain ⟨-, members, flat, finding, holds, -⟩ := choice_is_set_of_branches bs w
  rw [htext, hbranches] at holds
  have hfinding := finding v hrejects
  rw [htext] at hfinding
  exact ⟨⟨hmembers, hrejects⟩, members cs w v hmembers, flat [c .string] pair [c .string] w w v rfl,
    hfinding, holds⟩

end Schema
end Conform
