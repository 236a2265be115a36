import Conform.Proofs.Path
import Conform.Proofs.Schema.Messages
import Mathlib.Logic.Function.Iterate

set_option autoImplicit false

/-!
# Schemas told by their descriptions

A schema without literals, choices, intersections and declared fields is told by its description, up
to messages. The description of a node opens with a text that no other node opens with, even if more
follows, and what it holds is closed or divided by characters that no part goes on with. Only the
brackets of arrays come behind what they belong to, and so they are counted from the inside out.
-/
namespace Conform.Schema

/-- Built from categories, arrays, tuples, records, iterations and bounds on sizes alone. -/
inductive Structural : Schema → Prop where
  | category (c : Category) (w : Wording) : Structural (category c w)
  | anyArray (w : Wording) : Structural (anyArray w)
  | arrayOf {e : Schema} (w : Wording) (h : Structural e) : Structural (arrayOf e w)
  | tuple {ps : List Schema} (w : Wording) (h : ∀ p ∈ ps, Structural p) : Structural (tuple ps w)
  | record {k e : Schema} (w : Wording) (hk : Structural k) (he : Structural e) :
      Structural (record k e w)
  | each {e : Schema} (w : Wording) (h : Structural e) : Structural (each e w)
  | size (b : SizeBound) (limit : Nat) (w : Wording) : Structural (size b limit w)

inductive Head where
  | category (c : Category)
  | anyArray
  | tuple
  | record
  | each
  | size (b : SizeBound)
deriving DecidableEq

namespace Head

def opening : Head → String
  | category c => c.name
  | anyArray => "unknown[]"
  | tuple => "["
  | record => "Record<"
  | each => "Iterable<"
  | size b => b.label ++ "("

def all : List Head :=
  Category.all.map category ++ [anyArray, tuple, record, each, size .atLeast, size .atMost]

theorem mem_all (g : Head) : g ∈ all := by
  cases g with
  | category c => cases c <;> decide
  | size b => cases b <;> decide
  | _ => decide

theorem eq_of_isPrefix : ∀ g ∈ all, ∀ h ∈ all, g.opening.toList <+: h.opening.toList → g = h := by
  decide +kernel

theorem opening_append_inj {g h : Head} {x y : List Char}
    (e : g.opening.toList ++ x = h.opening.toList ++ y) : g = h ∧ x = y := by
  have hgh : g = h := by
    rcases List.prefix_or_prefix_of_prefix (List.prefix_append _ x)
      (e ▸ List.prefix_append h.opening.toList y) with hprefix | hprefix
    · exact eq_of_isPrefix g g.mem_all h h.mem_all hprefix
    · exact (eq_of_isPrefix h h.mem_all g g.mem_all hprefix).symm
  subst hgh
  exact ⟨rfl, List.append_cancel_left e⟩

theorem head?_opening : ∀ g ∈ all,
    g.opening.toList.head? ≠ none ∧ g.opening.toList.head? ≠ some ']' := by
  decide +kernel

theorem head?_opening_append (g : Head) (x : List Char) :
    (g.opening.toList ++ x).head? ≠ some ']' := by
  obtain ⟨hne, hbracket⟩ := head?_opening g g.mem_all
  obtain ⟨c, hc⟩ := Option.ne_none_iff_exists'.1 hne
  rw [hc] at hbracket
  rw [List.head?_append, hc]
  exact hbracket

end Head

def head? : Schema → Option Head
  | category c _ => some (.category c)
  | anyArray _ => some .anyArray
  | tuple _ _ => some .tuple
  | record _ _ _ => some .record
  | each _ _ => some .each
  | size b _ _ => some (.size b)
  | _ => none

def letters (s : Schema) : List Char := s.description.toList

def further (ps : List Schema) : List Char := ps.flatMap fun p => ',' :: ' ' :: p.letters

def positions : List Schema → List Char
  | [] => []
  | p :: ps => p.letters ++ further ps

def rest : Schema → List Char
  | tuple ps _ => positions ps ++ [']']
  | record k e _ => k.letters ++ ',' :: ' ' :: e.letters ++ ['>']
  | each e _ => e.letters ++ ['>']
  | size _ limit _ => (toString limit).toList ++ [')']
  | _ => []

theorem intercalate_cons {α : Type} (sep x : List α) (xs : List (List α)) :
    sep.intercalate (x :: xs) = x ++ xs.flatMap fun y => sep ++ y := by
  induction xs generalizing x with
  | nil => rw [List.intercalate_singleton, List.flatMap_nil, List.append_nil]
  | cons y ys ih =>
    rw [List.intercalate_cons_cons, ih, List.flatMap_cons, List.append_assoc, List.append_assoc]

theorem toList_intercalate_descriptions (ps : List Schema) :
    (String.intercalate ", " (descriptions ps)).toList = positions ps := by
  cases ps with
  | nil => rfl
  | cons p ps =>
    simp [intercalate_cons, positions, further, letters, List.flatMap_map]

theorem letters_eq {s : Schema} {g : Head} (h : s.head? = some g) :
    s.letters = g.opening.toList ++ s.rest := by
  cases s with
  | literal | arrayOf | fields | anyOf | both => cases h
  | category | anyArray =>
    cases h
    exact (List.append_nil _).symm
  | tuple ps w =>
    cases h
    simp only [letters, description, String.toList_append, toList_intercalate_descriptions, rest,
      List.append_assoc]
    rfl
  | record k e w =>
    cases h
    simp only [letters, description, String.toList_append, rest, List.append_assoc]
    rfl
  | each e w =>
    cases h
    simp only [letters, description, String.toList_append, rest, List.append_assoc]
    rfl
  | size b limit w =>
    cases h
    simp only [letters, description, SizeBound.description, String.toList_append, rest,
      List.append_assoc, Head.opening]
    rfl

theorem letters_arrayOf (e : Schema) (w : Wording) (x : List Char) :
    (arrayOf e w).letters ++ x = e.letters ++ '[' :: ']' :: x := by
  simp only [letters, description, String.toList_append, List.append_assoc]
  rfl

def bracketed (x : List Char) : List Char := '[' :: ']' :: x

/-- A text to which no further brackets belong. -/
def Closes (x : List Char) : Prop := x.head? ≠ some '['

theorem closes_nil : Closes [] := fun h => nomatch h

theorem closes_cons {c : Char} (hc : c ≠ '[') (x : List Char) : Closes (c :: x) :=
  fun h => hc (Option.some.inj h)

theorem bracketed_iterate_inj {i j : Nat} {x y : List Char} (hx : Closes x) (hy : Closes y)
    (h : bracketed^[i] x = bracketed^[j] y) : i = j ∧ x = y := by
  induction i generalizing j with
  | zero =>
    cases j with
    | zero => exact ⟨rfl, h⟩
    | succ j =>
      rw [Function.iterate_zero_apply, Function.iterate_succ_apply'] at h
      exact absurd (congrArg List.head? h) hx
  | succ i ih =>
    cases j with
    | zero =>
      rw [Function.iterate_zero_apply, Function.iterate_succ_apply'] at h
      exact absurd (congrArg List.head? h.symm) hy
    | succ j =>
      rw [Function.iterate_succ_apply', Function.iterate_succ_apply'] at h
      obtain ⟨rfl, hxy⟩ := ih (List.cons.inj (List.cons.inj h).2).2
      exact ⟨rfl, hxy⟩

def inArray (s : Schema) : Schema := arrayOf s .standard

/-- The schema is a node `u` with the head `g` in `k` arrays. -/
structure Wraps (t u : Schema) (g : Head) (k : Nat) : Prop where
  structural : u.Structural
  head : u.head? = some g
  plain : t.withoutMessages = inArray^[k] u.withoutMessages
  letters : ∀ x, t.letters ++ x = u.letters ++ bracketed^[k] x

theorem Structural.wraps_self {s : Schema} {g : Head} (hs : s.Structural) (hg : s.head? = some g) :
    ∃ u g k, s.Wraps u g k :=
  ⟨s, g, 0, hs, hg, rfl, fun _ => rfl⟩

theorem Structural.exists_wraps {t : Schema} (ht : t.Structural) : ∃ u g k, t.Wraps u g k := by
  induction ht with
  | category c w => exact (Structural.category c w).wraps_self rfl
  | anyArray w => exact (Structural.anyArray w).wraps_self rfl
  | tuple w hps => exact (Structural.tuple w hps).wraps_self rfl
  | record w hk he => exact (Structural.record w hk he).wraps_self rfl
  | each w he => exact (Structural.each w he).wraps_self rfl
  | size b limit w => exact (Structural.size b limit w).wraps_self rfl
  | @arrayOf e w _ ih =>
    obtain ⟨u, g, k, hu, hg, hplain, hletters⟩ := ih
    refine ⟨u, g, k + 1, hu, hg, ?_, fun x => ?_⟩
    · rw [withoutMessages, hplain, Function.iterate_succ_apply']
      rfl
    · rw [letters_arrayOf, hletters, Function.iterate_succ_apply]
      rfl

/-- Where the description stands at the front of a text, with any number of brackets behind it, no
other structural schema is described there. -/
def IsTold (s : Schema) : Prop :=
  ∀ t : Schema, t.Structural → ∀ i j x y, Closes x → Closes y →
    s.letters ++ bracketed^[i] x = t.letters ++ bracketed^[j] y →
      inArray^[i] s.withoutMessages = inArray^[j] t.withoutMessages ∧ x = y

theorem IsTold.letters_append_inj {s t : Schema} (hs : s.IsTold) (ht : t.Structural)
    {x y : List Char} (hx : Closes x) (hy : Closes y) (h : s.letters ++ x = t.letters ++ y) :
    s.withoutMessages = t.withoutMessages ∧ x = y :=
  hs t ht 0 0 x y hx hy h

theorem IsTold.letters_cons_inj {s t : Schema} (hs : s.IsTold) (ht : t.Structural) {c : Char}
    (hc : c ≠ '[') {x y : List Char} (h : s.letters ++ c :: x = t.letters ++ c :: y) :
    s.withoutMessages = t.withoutMessages ∧ x = y := by
  obtain ⟨hst, hxy⟩ := hs.letters_append_inj ht (closes_cons hc x) (closes_cons hc y) h
  exact ⟨hst, (List.cons.inj hxy).2⟩

theorem IsTold.arrayOf {e : Schema} (he : e.IsTold) (w : Wording) : (arrayOf e w).IsTold := by
  intro t ht i j x y hx hy h
  have hbrackets : e.letters ++ bracketed^[i + 1] x = t.letters ++ bracketed^[j] y := by
    rw [Function.iterate_succ_apply', ← h, letters_arrayOf]
    rfl
  rw [withoutMessages]
  exact he t ht (i + 1) j x y hx hy hbrackets

theorem isTold_of_head {s : Schema} {g : Head} (hg : s.head? = some g)
    (h : ∀ t : Schema, t.Structural → t.head? = some g → ∀ x y, s.rest ++ x = t.rest ++ y →
      s.withoutMessages = t.withoutMessages ∧ x = y) : s.IsTold := by
  intro t ht i j x y hx hy heq
  obtain ⟨u, g', k, hu, hg', hplain, hletters⟩ := ht.exists_wraps
  -- the `k` brackets of `t` itself are counted together with the `j` behind it
  rw [hletters, letters_eq hg, letters_eq hg', List.append_assoc, List.append_assoc,
    ← Function.iterate_add_apply] at heq
  obtain ⟨rfl, hrest⟩ := Head.opening_append_inj heq
  obtain ⟨hsame, hbrackets⟩ := h u hu hg' _ _ hrest
  obtain ⟨rfl, hxy⟩ := bracketed_iterate_inj hx hy hbrackets
  refine ⟨?_, hxy⟩
  rw [hplain, hsame, ← Function.iterate_add_apply, Nat.add_comm]

theorem Structural.head?_letters_append {p : Schema} (hp : p.Structural) (x : List Char) :
    (p.letters ++ x).head? ≠ some ']' := by
  obtain ⟨u, g, k, -, hg, -, hletters⟩ := hp.exists_wraps
  rw [hletters, letters_eq hg, List.append_assoc]
  exact g.head?_opening_append _

theorem closes_further (ps : List Schema) (x : List Char) : Closes (further ps ++ ']' :: x) := by
  cases ps with
  | nil => exact closes_cons (by decide) _
  | cons p ps => exact closes_cons (by decide) _

theorem further_append_inj {ps qs : List Schema} (hps : ∀ p ∈ ps, p.IsTold)
    (hqs : ∀ q ∈ qs, q.Structural) {x y : List Char}
    (h : further ps ++ ']' :: x = further qs ++ ']' :: y) :
    ps.map withoutMessages = qs.map withoutMessages ∧ x = y := by
  induction ps generalizing qs with
  | nil =>
    cases qs with
    | nil => exact ⟨rfl, (List.cons.inj h).2⟩
    | cons q qs => cases h
  | cons p ps ih =>
    cases qs with
    | nil => cases h
    | cons q qs =>
      rw [List.forall_mem_cons] at hps hqs
      have hletters : positions (p :: ps) ++ ']' :: x = positions (q :: qs) ++ ']' :: y :=
        (List.cons.inj (List.cons.inj h).2).2
      rw [positions, positions, List.append_assoc, List.append_assoc] at hletters
      obtain ⟨hpq, hfurther⟩ := hps.1.letters_append_inj hqs.1 (closes_further ps x)
        (closes_further qs y) hletters
      obtain ⟨hpqs, hxy⟩ := ih hps.2 hqs.2 hfurther
      exact ⟨congrArg₂ List.cons hpq hpqs, hxy⟩

theorem positions_append_inj {ps qs : List Schema} (hps : ∀ p ∈ ps, p.IsTold)
    (hp : ∀ p ∈ ps, p.Structural) (hqs : ∀ q ∈ qs, q.Structural) {x y : List Char}
    (h : positions ps ++ ']' :: x = positions qs ++ ']' :: y) :
    ps.map withoutMessages = qs.map withoutMessages ∧ x = y := by
  cases ps with
  | nil =>
    cases qs with
    | nil => exact ⟨rfl, (List.cons.inj h).2⟩
    | cons q qs =>
      -- an empty tuple is closed at once, where a position does not begin
      rw [positions, positions, List.append_assoc] at h
      exact absurd (congrArg List.head? h).symm ((hqs q (.head _)).head?_letters_append _)
  | cons p ps =>
    cases qs with
    | nil =>
      rw [positions, positions, List.append_assoc] at h
      exact absurd (congrArg List.head? h) ((hp p (.head _)).head?_letters_append _)
    | cons q qs => exact further_append_inj hps hqs (congrArg (fun text => ',' :: ' ' :: text) h)

theorem eq_of_toList_toString_eq {m n : Nat} (h : (toString m).toList = (toString n).toList) :
    m = n := by
  have hdigits : Nat.toDigits 10 m = Nat.toDigits 10 n := by
    rw [← Nat.toList_repr, ← Nat.toList_repr]
    exact h
  calc
    m = Nat.ofDigitChars 10 (Nat.toDigits 10 m) 0 := Nat.ofDigitChars_ten_toDigits.symm
    _ = Nat.ofDigitChars 10 (Nat.toDigits 10 n) 0 := by rw [hdigits]
    _ = n := Nat.ofDigitChars_ten_toDigits

/-- The first `c` divides a list in one way only, whatever stands behind it. -/
theorem division_at_first_inj {α : Type} {c : α} {l m x y : List α} (hl : c ∉ l)
    (hm : c ∉ m) (h : l ++ c :: x = m ++ c :: y) : l = m ∧ x = y := by
  induction l generalizing m with
  | nil =>
    cases m with
    | nil => exact ⟨rfl, (List.cons.inj h).2⟩
    | cons b m => exact absurd ((List.cons.inj h).1 ▸ List.mem_cons_self) hm
  | cons a l ih =>
    cases m with
    | nil => exact absurd ((List.cons.inj h).1 ▸ List.mem_cons_self) hl
    | cons b m =>
      obtain ⟨rfl, htail⟩ := List.cons.inj h
      obtain ⟨rfl, hxy⟩ :=
        ih (mt (List.mem_cons_of_mem a) hl) (mt (List.mem_cons_of_mem a) hm) htail
      exact ⟨rfl, hxy⟩

theorem Structural.isTold {s : Schema} (hs : s.Structural) : s.IsTold := by
  induction hs with
  | arrayOf w _ ih => exact ih.arrayOf w
  | category c w =>
    refine isTold_of_head rfl fun t ht hg x y h => ?_
    cases ht with
    | category d u =>
      cases hg
      exact ⟨rfl, h⟩
    | _ => cases hg
  | anyArray w =>
    refine isTold_of_head rfl fun t ht hg x y h => ?_
    cases ht with
    | anyArray u => exact ⟨rfl, h⟩
    | _ => cases hg
  | @tuple ps w hps ih =>
    refine isTold_of_head rfl fun t ht hg x y h => ?_
    cases ht with
    | @tuple qs u hqs =>
      rw [rest, rest, List.append_assoc, List.append_assoc] at h
      obtain ⟨hpositions, hxy⟩ := positions_append_inj ih hps hqs h
      exact ⟨by simp [withoutMessages, hpositions], hxy⟩
    | _ => cases hg
  | @record k e w _ _ ihk ihe =>
    refine isTold_of_head rfl fun t ht hg x y h => ?_
    cases ht with
    | @record k' e' u hk' he' =>
      simp only [rest, List.append_assoc, List.cons_append] at h
      obtain ⟨hkey, h⟩ := ihk.letters_cons_inj hk' (by decide) h
      obtain ⟨hvalue, hxy⟩ := ihe.letters_cons_inj he' (by decide) (List.cons.inj h).2
      rw [withoutMessages, withoutMessages, hkey, hvalue]
      exact ⟨rfl, hxy⟩
    | _ => cases hg
  | @each e w _ ih =>
    refine isTold_of_head rfl fun t ht hg x y h => ?_
    cases ht with
    | @each e' u he' =>
      rw [rest, rest, List.append_assoc, List.append_assoc] at h
      obtain ⟨helement, hxy⟩ := ih.letters_cons_inj he' (by decide) h
      rw [withoutMessages, withoutMessages, helement]
      exact ⟨rfl, hxy⟩
    | _ => cases hg
  | size b m w =>
    refine isTold_of_head rfl fun t ht hg x y h => ?_
    cases ht with
    | size b' n u =>
      cases hg
      rw [rest, rest, List.append_assoc, List.append_assoc] at h
      obtain ⟨hlimit, hxy⟩ := division_at_first_inj (notMem_toList_toString rfl m)
        (notMem_toList_toString rfl n) h
      rw [eq_of_toList_toString_eq hlimit]
      exact ⟨rfl, hxy⟩
    | _ => cases hg

theorem Structural.withoutMessages_eq {s t : Schema} (hs : s.Structural) (ht : t.Structural)
    (h : s.description = t.description) : s.withoutMessages = t.withoutMessages := by
  have hletters : s.letters ++ [] = t.letters ++ [] := by
    unfold letters
    rw [h]
  exact (hs.isTold.letters_append_inj ht closes_nil closes_nil hletters).1

/-- Structural schemas have one description just if they are the same but for their messages. They
accept the same documents then, and find the same defects in them, in the same order. -/
theorem structural_schemas_told_by_descriptions {s t : Schema} (hs : s.Structural)
    (ht : t.Structural) :
    (s.description = t.description ↔ s.withoutMessages = t.withoutMessages) ∧
      (s.description = t.description → ∀ v, s.accepts v = t.accepts v ∧
        (s.findings v).map Finding.toDefect = (t.findings v).map Finding.toDefect) := by
  refine ⟨⟨hs.withoutMessages_eq ht, fun h => ?_⟩, fun h v => ?_⟩
  · rw [← s.description_withoutMessages, h, description_withoutMessages]
  · have hplain := hs.withoutMessages_eq ht h
    constructor
    · rw [← s.accepts_withoutMessages, hplain, accepts_withoutMessages]
    · rw [← s.toDefect_findings_withoutMessages, hplain, toDefect_findings_withoutMessages]

/-- An array of empty tuples in a record, with a message and without one. Such an array is not told
like a tuple of an empty tuple, for which the same brackets stand in another order. -/
theorem structural_schemas_told_by_descriptions_of_arrays :
    let tuples (w : Wording) : Schema := .arrayOf (.tuple [] .standard) w
    let s (w : Wording) : Schema := .record (.size .atMost 10 .standard) (tuples w) .standard
    let m : Wording := .custom (.fixed "tuples")
    let nested : Schema := .tuple [.tuple [] .standard] .standard
    ((s .standard).Structural ∧ (s m).Structural ∧ nested.Structural) ∧
      (s .standard).description = (s m).description ∧
      (s .standard).withoutMessages = (s m).withoutMessages ∧
      (s .standard).accepts (.object [("a", .null)]) = (s m).accepts (.object [("a", .null)]) ∧
      (tuples m).description ≠ nested.description := by
  intro tuples s m nested
  have htuples : ∀ w, (tuples w).Structural := fun w => .arrayOf w (.tuple _ fun _ h => nomatch h)
  have hs : ∀ w, (s w).Structural := fun w => .record _ (.size _ _ _) (htuples w)
  have hnested : nested.Structural :=
    .tuple _ (List.forall_mem_singleton.2 (.tuple _ fun _ h => nomatch h))
  have hsame : (s .standard).description = (s m).description := by decide +kernel
  obtain ⟨hplain, hfindings⟩ := structural_schemas_told_by_descriptions (hs .standard) (hs m)
  refine ⟨⟨hs _, hs _, hnested⟩, hsame, hplain.1 hsame, (hfindings hsame _).1, fun h => ?_⟩
  have hbrackets := (structural_schemas_told_by_descriptions (htuples m) hnested).1.1 h
  simp [tuples, nested, withoutMessages] at hbrackets

example :
    (tuple [anyArray .standard, arrayOf (tuple [] .standard) .standard] .standard).description =
      "[unknown[], [][]]" := by decide +kernel

end Conform.Schema
