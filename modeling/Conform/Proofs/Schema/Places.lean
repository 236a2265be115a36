import Conform.Proofs.Schema.Visits

set_option autoImplicit false

namespace Conform

namespace Value

/-- What a segment may lead to. A key stands for its entry and also for its own text, to which the
check of a name applies. -/
inductive Part : Value → Segment → Value → Prop where
  | entry {entries : List (String × Value)} {x : String × Value} (h : x ∈ entries) :
      Part (object entries) (.key x.1) x.2
  | name {entries : List (String × Value)} {x : String × Value} (h : x ∈ entries) :
      Part (object entries) (.key x.1) (string x.1)
  | item {items : List Value} {i : Nat} {x : Value} (h : items[i]? = some x) :
      Part (array items) (.index i) x
  | character {text : String} {i : Nat} {c : Char} (h : text.toList[i]? = some c) :
      Part (string text) (.index i) (string c.toString)

inductive Leads (v : Value) : Path → Value → Prop where
  | root : Leads v [] v
  | next {u w : Value} {p : Path} {s : Segment} (h : Leads v p u) (hs : Part u s w) :
      Leads v (p ++ [s]) w

theorem category_of_count? {v : Value} (h : v.count? = none) :
    v.category ≠ .array ∧ v.category ≠ .string := by
  cases v with
  | array | string => cases h
  | _ => exact ⟨nofun, nofun⟩

end Value

theorem Category.name_injective {c d : Category} (h : c.name = d.name) : c = d := by
  have hc := Category.ofName?_name c
  rw [h, Category.ofName?_name] at hc
  exact (Option.some.inj hc).symm

def Defect.Describes (d : Defect) (w : Value) : Prop :=
  match d.kind with
  | .typeMismatch => d.actual = .string w.category.name ∧ w.category.name ≠ d.expected
  | .shapeMismatch =>
    d.actual = .string w.category.name ∧
      (d.expected = "array" ∧ w.category ≠ .array ∨ d.expected = "object" ∧ w.category ≠ .object ∨
        d.expected = "iterable" ∧ w.category ≠ .array ∧ w.category ≠ .string)
  | .equalityMismatch => d.actual = w ∧ ∃ l, d.expected = l.shown ∧ w.agrees l = false
  | .disjunctionMismatch =>
    d.actual = w ∧ ∃ bs, d.expected = Schema.alternatives bs ∧ ∀ b ∈ bs, b.accepts w = false
  | .belowMinimum =>
    ∃ n limit, w.count? = some n ∧ d.actual = .nat n ∧ d.expected = toString limit ∧ n < limit
  | .aboveMaximum =>
    ∃ n limit, w.count? = some n ∧ d.actual = .nat n ∧ d.expected = toString limit ∧ limit < n

namespace Schema

theorem describes_of_defect? {s : Schema} {v : Value} {d : Defect} (h : s.defect? v = some d) :
    d.path = [] ∧ d.Describes v := by
  cases s with
  | category c w =>
    simp only [defect?, Option.ite_none_left_eq_some, Option.some.injEq] at h
    obtain ⟨hc, rfl⟩ := h
    exact ⟨rfl, rfl, fun e => hc (Category.name_injective e)⟩
  | literal l w =>
    simp only [defect?, Option.ite_none_left_eq_some, Option.some.injEq] at h
    obtain ⟨hl, rfl⟩ := h
    exact ⟨rfl, rfl, l, rfl, Bool.eq_false_iff.2 hl⟩
  | anyArray w | arrayOf e w | tuple ps w =>
    simp only [defect?, Option.ite_none_left_eq_some, Option.some.injEq] at h
    obtain ⟨hv, rfl⟩ := h
    exact ⟨rfl, rfl, .inl ⟨rfl, hv⟩⟩
  | record k e w | fields ds w =>
    simp only [defect?, Option.ite_none_left_eq_some, Option.some.injEq] at h
    obtain ⟨hv, rfl⟩ := h
    exact ⟨rfl, rfl, .inr (.inl ⟨rfl, hv⟩)⟩
  | each e w =>
    simp only [defect?, Option.ite_none_left_eq_some, Option.some.injEq, not_or] at h
    obtain ⟨hv, rfl⟩ := h
    exact ⟨rfl, rfl, .inr (.inr ⟨rfl, hv⟩)⟩
  | size b limit w =>
    cases hc : v.count? with
    | none =>
      simp only [defect?, hc, Option.some.injEq] at h
      subst h
      exact ⟨rfl, rfl, .inr (.inr ⟨rfl, Value.category_of_count? hc⟩)⟩
    | some n =>
      simp only [defect?, hc, Option.ite_none_left_eq_some, Option.some.injEq] at h
      obtain ⟨hb, rfl⟩ := h
      cases b with
      | atLeast =>
        refine ⟨rfl, n, limit, hc, rfl, rfl, ?_⟩
        simpa [SizeBound.holds] using hb
      | atMost =>
        refine ⟨rfl, n, limit, hc, rfl, rfl, ?_⟩
        simpa [SizeBound.holds] using hb
  | anyOf bs w =>
    simp only [defect?, Option.ite_none_left_eq_some, Option.some.injEq] at h
    obtain ⟨hb, rfl⟩ := h
    exact ⟨rfl, rfl, bs, rfl, fun b hm => Bool.eq_false_iff.2 fun ha => hb ⟨b, hm, ha⟩⟩
  | both l r w => cases h

theorem step_some {t u : Schema} {x y : Value} {q : Path} {y? : Option Value}
    (h : Step t x q u y?) (hy : y? = some y) :
    q = [] ∧ y = x ∨ ∃ s, q = [s] ∧ Value.Part x s y := by
  cases h with
  | item h | element h => cases hy; exact .inr ⟨_, rfl, .item h⟩
  | character h => cases hy; exact .inr ⟨_, rfl, .character h⟩
  | position h => exact .inr ⟨_, rfl, .item hy⟩
  | name h => cases hy; exact .inr ⟨_, rfl, .name h⟩
  | entry h => cases hy; exact .inr ⟨_, rfl, .entry h⟩
  | field hs hx =>
    cases hy
    obtain ⟨before, after, rfl, _⟩ := List.lookup_eq_some_iff.1 hx
    exact .inr ⟨_, rfl, .entry (x := (_, _)) (by simp)⟩
  | left | right => cases hy; exact .inl ⟨rfl, rfl⟩

theorem step_none {t u : Schema} {x : Value} {q : Path} {y? : Option Value}
    (h : Step t x q u y?) (hy : y? = none) :
    ∃ ps w items i, t = tuple ps w ∧ x = .array items ∧ q = [.index i] ∧ ps[i]? = some u ∧
      items.length ≤ i := by
  cases h with
  | @position ps w items i _ h =>
    exact ⟨ps, w, items, i, rfl, rfl, rfl, h, List.getElem?_eq_none_iff.1 hy⟩
  | _ => cases hy

theorem leads_of_checks {s t : Schema} {v x : Value} {p : Path} {x? : Option Value}
    (h : Checks s v t p x?) (hx : x? = some x) : v.Leads p x := by
  induction h generalizing x with
  | root => cases hx; exact .root
  | step _ hs ih =>
    rcases step_some hs hx with ⟨rfl, rfl⟩ | ⟨seg, rfl, hp⟩
    · rw [List.append_nil]
      exact ih rfl
    · exact (ih rfl).next hp

theorem tuple_of_checks {s t : Schema} {v : Value} {p : Path} {x? : Option Value}
    (h : Checks s v t p x?) (hx : x? = none) :
    ∃ ps w q items i, Checks s v (tuple ps w) q (some (.array items)) ∧ ps[i]? = some t ∧
      items.length ≤ i ∧ p = q ++ [.index i] := by
  cases h with
  | root => cases hx
  | @step _ _ q _ _ _ h hs =>
    obtain ⟨ps, w, items, i, rfl, rfl, rfl, hp, hi⟩ := step_none hs hx
    exact ⟨ps, w, q, items, i, h, hp, hi, rfl⟩

/-- A defect that the check of `v` by `s` may find: it stands at a position that a tuple asks for
beyond the end of an array, or its path leads to a value that it describes. -/
def Locates (s : Schema) (v : Value) (d : Defect) : Prop :=
  (∃ ps w p items i t, Checks s v (tuple ps w) p (some (.array items)) ∧ ps[i]? = some t ∧
    v.Leads p (.array items) ∧ items.length ≤ i ∧
    d = ⟨p ++ [.index i], .shapeMismatch, t.description, .string "undefined"⟩) ∨
  ∃ w, v.Leads d.path w ∧ d.Describes w

theorem locates_of_mem_findings (s : Schema) (v : Value) (f : Finding) (h : f ∈ s.findings v) :
    s.Locates v f.toDefect := by
  rw [findings_eq_filterMap_visits] at h
  obtain ⟨x, hx, hf⟩ := List.mem_filterMap.1 h
  have hd : x.defect? = some f.toDefect := by rw [← toDefect_finding?, hf]; rfl
  have hc : Checks s v x.schema x.path x.value? := (checks_iff s _ v _ _).2 ⟨x, hx, rfl, rfl, rfl⟩
  unfold Site.defect? at hd
  cases hv : x.value? with
  | none =>
    obtain ⟨ps, w, p, items, i, ht, hp, hi, e⟩ := tuple_of_checks hc hv
    simp only [hv, Option.some.injEq] at hd
    rw [e] at hd
    exact .inl ⟨ps, w, p, items, i, x.schema, ht, hp, leads_of_checks ht rfl, hi, hd.symm⟩
  | some y =>
    simp only [hv, Option.map_eq_some_iff] at hd
    obtain ⟨d, hd, e⟩ := hd
    obtain ⟨hp, hdesc⟩ := describes_of_defect? hd
    have hpath : f.path = x.path := by
      rw [← e]
      change x.path ++ d.path = x.path
      rw [hp, List.append_nil]
    refine .inr ⟨y, ?_, ?_⟩
    · rw [hpath]
      exact leads_of_checks hc hv
    · rw [← e]
      exact hdesc

theorem locates_short_name :
    (⟨⟨[.key "a"], .belowMinimum, "2", .nat 1⟩, .standard⟩ : Finding) ∈
      (record (size .atLeast 2 .standard)
        (tuple [category .null .standard, anyArray .standard] .standard) .standard).findings
        (.object [("a", .array [.null])]) ∧
    (record (size .atLeast 2 .standard)
      (tuple [category .null .standard, anyArray .standard] .standard) .standard).Locates
      (.object [("a", .array [.null])]) ⟨[.key "a"], .belowMinimum, "2", .nat 1⟩ := by
  have h : (⟨⟨[.key "a"], .belowMinimum, "2", .nat 1⟩, .standard⟩ : Finding) ∈
      (record (size .atLeast 2 .standard)
        (tuple [category .null .standard, anyArray .standard] .standard) .standard).findings
        (.object [("a", .array [.null])]) := .head _
  exact ⟨h, locates_of_mem_findings _ _ _ h⟩

end Schema
end Conform
