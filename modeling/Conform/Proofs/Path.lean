import Conform.Wording
import Mathlib.Data.List.Basic

set_option autoImplicit false

namespace Conform

theorem notMem_toList_toString {c : Char} (hc : c.isDigit = false) (n : Nat) :
    c ∉ (toString n).toList := by
  intro h
  have hmem : c ∈ Nat.toDigits 10 n := by
    rw [← Nat.toList_repr]
    exact h
  have hdigit : c.isDigit = true :=
    Nat.isDigit_of_mem_toDigits (Nat.zero_lt_succ 9) (Nat.le_refl 10) hmem
  rw [hc] at hdigit
  cases hdigit

theorem Segment.point_notMem_text_index (i : Nat) : '.' ∉ (index i).text.toList :=
  notMem_toList_toString rfl i

namespace Path

theorem text_append {p q : Path} (hp : p ≠ []) (hq : q ≠ []) :
    Path.text (p ++ q) = p.text ++ "." ++ q.text := by
  unfold text
  rw [List.map_append]
  exact String.intercalate_append_of_ne_nil (mt List.map_eq_nil_iff.1 hp)
    (mt List.map_eq_nil_iff.1 hq)

def pieces (text : String) : List String := (text.split '.').toList.map (·.copy)

theorem pieces_text {p : Path} (hp : p ≠ []) (h : ∀ s ∈ p, '.' ∉ s.text.toList) :
    pieces p.text = p.map Segment.text := by
  have hsplit := String.toList_split_intercalate (List.forall_mem_map.2 h)
  rw [if_neg (mt List.map_eq_nil_iff.1 hp)] at hsplit
  exact hsplit

end Path

namespace Finding

def underAll (ss : List Segment) (f : Finding) : Finding := ss.foldl (fun g s => g.under s) f

theorem underAll_eq (ss : List Segment) (f : Finding) :
    f.underAll ss = { f with path := ss.reverse ++ f.path } := by
  unfold underAll
  induction ss generalizing f with
  | nil => rfl
  | cons s ss ih =>
    rw [List.foldl_cons, ih, List.reverse_cons, List.append_assoc]
    rfl

@[simp]
theorem isRoot_iff (f : Finding) : f.isRoot = true ↔ f.path = [] := List.isEmpty_iff

end Finding

/-- A finding that is seen from further and further out gets the new segments in front of its path,
the last one first, and stays as it is otherwise; it stands at the root only if no segment has come
to it. The text of a path is that of its first part, a point and that of its second part, if neither
is empty. Divided at the points it gives the texts of its segments, so that paths with one text have
the same segments, as they are written. This holds without points in the names, the empty name
included; an index has none. -/
theorem path_texts_join_and_divide :
    (∀ (f : Finding) (ss : List Segment),
      f.underAll ss = { f with path := ss.reverse ++ f.path } ∧
        ((f.underAll ss).isRoot = true ↔ ss.reverse ++ f.path = [])) ∧
    (∀ p q : Path, p ≠ [] → q ≠ [] → Path.text (p ++ q) = p.text ++ "." ++ q.text) ∧
    (∀ p : Path, p ≠ [] → (∀ s ∈ p, '.' ∉ s.text.toList) →
      Path.pieces p.text = p.map Segment.text) ∧
    (∀ p q : Path, p ≠ [] → q ≠ [] → (∀ s ∈ p, '.' ∉ s.text.toList) →
      (∀ s ∈ q, '.' ∉ s.text.toList) → p.text = q.text →
      p.map Segment.text = q.map Segment.text) ∧
    ∀ i, '.' ∉ (Segment.index i).text.toList := by
  refine ⟨fun f ss => ?_, fun p q => Path.text_append, fun p => Path.pieces_text, ?_,
    Segment.point_notMem_text_index⟩
  · have hall := f.underAll_eq ss
    refine ⟨hall, (f.underAll ss).isRoot_iff.trans ?_⟩
    rw [hall]
  · intro p q hp hq hpoint hpoint' htext
    calc
      p.map Segment.text = Path.pieces p.text := (Path.pieces_text hp hpoint).symm
      _ = Path.pieces q.text := by rw [htext]
      _ = q.map Segment.text := Path.pieces_text hq hpoint'

theorem path_texts_join_and_divide_at_empty_name :
    let p : Path := [.key "", .index 0]
    let q : Path := [.key "", .key "0"]
    (p ≠ [] ∧ q ≠ [] ∧ (∀ s ∈ p, '.' ∉ s.text.toList) ∧ (∀ s ∈ q, '.' ∉ s.text.toList) ∧
      p.text = q.text) ∧
    Path.text (p ++ q) = p.text ++ "." ++ q.text ∧ Path.pieces p.text = ["", "0"] ∧
      p.map Segment.text = q.map Segment.text := by
  intro p q
  have hp : p ≠ [] := List.cons_ne_nil _ _
  have hq : q ≠ [] := List.cons_ne_nil _ _
  have hpoint : ∀ s ∈ p, '.' ∉ s.text.toList := by decide
  have hpoint' : ∀ s ∈ q, '.' ∉ s.text.toList := by decide
  have htext : p.text = q.text := by decide
  obtain ⟨-, join, divide, same, -⟩ := path_texts_join_and_divide
  exact ⟨⟨hp, hq, hpoint, hpoint', htext⟩, join p q hp hq, divide p hp hpoint,
    same p q hp hq hpoint hpoint' htext⟩

/-- Of a path that is a single empty name the text does not differ from that of no path. -/
example : Path.text [.key ""] = Path.text [] := by decide

example : Path.text [.key "a.b"] = Path.text [.key "a", .key "b"] := by decide

end Conform
