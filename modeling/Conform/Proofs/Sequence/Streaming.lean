import Conform.Proofs.Agreement
import Conform.Proofs.Sequence.Rejection

set_option autoImplicit false

/-!
# Elements are checked as they are drawn

What is found in the elements of a source is a concatenation of blocks, one for each element that is
drawn, and the blocks are handed over in turn. So the first findings in a source, which need not
end, are those in its first elements, and they are there once the last of these has been drawn.
-/
namespace Conform

namespace Source

variable {α : Type}

def take (s : Source α) (k : Nat) : Source α where
  get? n := if n < k then s.get? n else none
  closed n h := by
    by_cases hn : n + 1 < k
    · rw [if_pos (by omega)] at h
      rw [if_pos hn]
      exact s.closed n h
    · exact if_neg hn

def Agrees (k : Nat) (s t : Source α) : Prop := ∀ i, i < k → s.get? i = t.get? i

theorem agrees_take (s : Source α) (k : Nat) : Agrees k s (s.take k) :=
  fun _ hi => (if_pos hi).symm

theorem Agrees.items_draw {s t : Source α} {k n : Nat} (h : Agrees k s t) (hn : n ≤ k) :
    (s.draw n).items = (t.draw n).items :=
  List.filterMap_congr fun i hi => h i (Nat.lt_of_lt_of_le (List.mem_range.1 hi) hn)

theorem take_yields (s : Source α) (k : Nat) : (s.take k).Yields (s.draw k).items := by
  have hnone : (s.take k).get? k = none := if_neg (Nat.lt_irrefl k)
  obtain ⟨xs, hxs⟩ := (s.take k).exists_yields k hnone
  have hlen : xs.length ≤ k := List.getElem?_eq_none_iff.1 ((hxs k).symm.trans hnone)
  rw [(s.agrees_take k).items_draw (Nat.le_refl k), hxs.items_draw, List.take_of_length_le hlen]
  exact hxs

theorem length_items_draw {s : Source α} {n : Nat} (h : s.get? n ≠ none) :
    (s.draw n).items.length = n := by
  induction n with
  | zero => rfl
  | succ n ih =>
    have hn : s.get? n ≠ none := fun hnone => h (s.closed n hnone)
    obtain ⟨x, hx⟩ := Option.ne_none_iff_exists'.1 hn
    rw [items_draw_succ, List.length_append, ih hn, hx]
    rfl

def findingsAt (g : α → List Finding) (s : Source α) (i : Nat) : List Finding :=
  (s.get? i).toList.flatMap fun x => (g x).map (Finding.under (.index i))

def findingsUpTo (g : α → List Finding) (s : Source α) (n : Nat) : List Finding :=
  (List.range n).flatMap (s.findingsAt g)

variable (g : α → List Finding) (s : Source α)

theorem findingsUpTo_succ (n : Nat) :
    s.findingsUpTo g (n + 1) = s.findingsUpTo g n ++ s.findingsAt g n := by
  unfold findingsUpTo
  rw [List.range_succ, List.flatMap_append, List.flatMap_singleton]

theorem findingsUpTo_prefix {m n : Nat} (h : m ≤ n) :
    s.findingsUpTo g m <+: s.findingsUpTo g n := by
  induction h with
  | refl => exact List.prefix_rfl
  | step _ ih => exact ih.trans (s.findingsUpTo_succ g _ ▸ List.prefix_append _ _)

theorem elementFindings_draw (n : Nat) :
    Checker.elementFindings g (s.draw n).items = s.findingsUpTo g n := by
  induction n with
  | zero => rfl
  | succ n ih =>
    rw [findingsUpTo_succ, ← ih, items_draw_succ]
    unfold Checker.elementFindings
    rw [List.zipIdx_append, List.flatMap_append]
    refine congrArg _ ?_
    cases hx : s.get? n with
    | none => simp [findingsAt, hx]
    | some x =>
      -- The index of an element is the number of those drawn before it.
      have hlen : (s.draw n).items.length = n := length_items_draw (hx ▸ Option.some_ne_none x)
      simp [findingsAt, hx, hlen]

variable {g s}

theorem Agrees.findingsUpTo {t : Source α} {k n : Nat} (h : Agrees k s t) (hn : n ≤ k) :
    s.findingsUpTo g n = t.findingsUpTo g n := by
  rw [← elementFindings_draw, ← elementFindings_draw, h.items_draw hn]

/-- Where a finding comes from: the findings before it do not fill the blocks up to its own. -/
theorem exists_block {k n : Nat} {f : Finding} (h : (s.findingsUpTo g k)[n]? = some f) :
    ∃ j < k, f ∈ s.findingsAt g j ∧ (s.findingsUpTo g j).length ≤ n ∧
      n < (s.findingsUpTo g (j + 1)).length := by
  induction k with
  | zero => cases h
  | succ k ih =>
    have hn : n < (s.findingsUpTo g (k + 1)).length := (List.getElem?_eq_some_iff.1 h).1
    rw [findingsUpTo_succ] at h
    by_cases hlt : n < (s.findingsUpTo g k).length
    · rw [List.getElem?_append_left hlt] at h
      obtain ⟨j, hj, hblock⟩ := ih h
      exact ⟨j, Nat.lt_succ_of_lt hj, hblock⟩
    · rw [List.getElem?_append_right (Nat.le_of_not_lt hlt)] at h
      exact ⟨k, Nat.lt_succ_self k, List.mem_of_getElem? h, Nat.le_of_not_lt hlt, hn⟩

theorem Agrees.begins_iff {t : Source α} {k : Nat} (h : Agrees k s t) {fs : List Finding}
    (hlen : fs.length ≤ (s.findingsUpTo g k).length) :
    (∃ m, fs <+: t.findingsUpTo g m) ↔ fs = (s.findingsUpTo g k).take fs.length := by
  have hsame := h.findingsUpTo (g := g) (Nat.le_refl k)
  constructor
  · rintro ⟨m, hm⟩
    have hleft := hm.trans (t.findingsUpTo_prefix g (Nat.le_max_left m k))
    have hright := t.findingsUpTo_prefix g (Nat.le_max_right m k)
    rw [← hsame] at hright
    exact List.prefix_iff_eq_take.1 (List.prefix_of_prefix_length_le hleft hright hlen)
  · intro hfs
    refine ⟨k, ?_⟩
    rw [hfs, ← hsame]
    exact List.take_prefix _ _

theorem Agrees.take_prefix_iff {t : Source α} {j k n : Nat} (h : Agrees (j + 1) s t) (hj : j < k)
    (hbefore : (s.findingsUpTo g j).length ≤ n) (hafter : n < (s.findingsUpTo g (j + 1)).length)
    (m : Nat) : (s.findingsUpTo g k).take (n + 1) <+: t.findingsUpTo g m ↔ j < m := by
  have hblocks := s.findingsUpTo_prefix g (show j + 1 ≤ k from hj)
  have hlen : ((s.findingsUpTo g k).take (n + 1)).length = n + 1 := by
    have hle := hblocks.length_le
    rw [List.length_take]
    omega
  constructor
  · -- Without the block of `j` there are no more than `n` findings.
    intro hfirst
    apply Nat.lt_of_not_le
    intro hm
    have hle := (hfirst.trans (t.findingsUpTo_prefix g hm)).length_le
    rw [← h.findingsUpTo (Nat.le_succ j)] at hle
    omega
  · -- With it there are more than `n`, and further blocks only add to them.
    intro hm
    have hfs := List.take_prefix (n + 1) (s.findingsUpTo g k)
    have hfirst := List.prefix_of_prefix_length_le hfs hblocks (by omega)
    rw [h.findingsUpTo (Nat.le_refl (j + 1))] at hfirst
    exact hfirst.trans (t.findingsUpTo_prefix g hm)

theorem exists_mem_of_mem_findingsAt {i : Nat} {f : Finding} (h : f ∈ s.findingsAt g i) :
    ∃ x, s.get? i = some x ∧ ∃ p ∈ g x, f = p.under (.index i) := by
  obtain ⟨x, hx, hf⟩ := List.mem_flatMap.1 h
  obtain ⟨p, hp, rfl⟩ := List.mem_map.1 hf
  exact ⟨x, Option.mem_toList.1 hx, p, hp, rfl⟩

theorem findingsUpTo_ne_nil {j n : Nat} {x : α} (hx : s.get? j = some x) (hg : g x ≠ [])
    (hn : j < n) : s.findingsUpTo g n ≠ [] := by
  have hblock : s.findingsAt g j ≠ [] := by
    simp only [findingsAt, hx, Option.toList_some, List.flatMap_singleton]
    exact fun hnil => hg (List.map_eq_nil_iff.1 hnil)
  have hsucc : s.findingsUpTo g (j + 1) ≠ [] := by
    rw [findingsUpTo_succ]
    exact List.append_ne_nil_of_right_ne_nil _ hblock
  exact fun hnil => hsucc (List.prefix_nil.1 (hnil ▸ s.findingsUpTo_prefix g hn))

end Source

/-- After `n` draws at least these findings have been handed over, in this order. -/
def Checker.Shows {α : Type} (c : Checker α) (x : α) (n : Nat) (fs : List Finding) : Prop :=
  ∃ d, c.examine x n = some d ∧ fs <+: d.items

theorem Checker.Steady.shows {α : Type} {c : Checker α} (h : c.Steady) {x : α} {m n : Nat}
    (hmn : m ≤ n) {fs : List Finding} (hfs : c.Shows x m fs) : c.Shows x n fs := by
  obtain ⟨d, hd, hfs⟩ := hfs
  obtain ⟨e, he, hde⟩ := h.examine hmn hd
  exact ⟨e, he, hfs.trans hde.isPrefix⟩

theorem Schema.examine_drawn (e : Schema) (s : Source Value) (n : Nat) :
    e.checker.eachDrawn.examine s n = some ⟨s.findingsUpTo e.findings n, (s.draw n).ended⟩ := by
  have hstreams : Delivery.concat ((s.draw n).items.zipIdx.map fun x =>
      (e.checker.examineAt n x).filter Delivery.ended) =
        .complete (Checker.elementFindings e.findings (s.draw n).items) :=
    -- A document has all of its findings there as soon as it is drawn.
    Delivery.concat_complete _ _ _ fun _ _ => rfl
  simp [Checker.eachDrawn, Checker.ofFindings, hstreams, Source.elementFindings_draw,
    Delivery.complete]

theorem Schema.shows_drawn_iff (e : Schema) (s : Source Value) (n : Nat) (fs : List Finding) :
    e.checker.eachDrawn.Shows s n fs ↔ fs <+: s.findingsUpTo e.findings n := by
  constructor
  · rintro ⟨d, hd, h⟩
    rw [e.examine_drawn s n] at hd
    cases hd
    exact h
  · intro h
    exact ⟨_, e.examine_drawn s n, h⟩

theorem Schema.drawn_settles (e : Schema) {s : Source Value} (k : Nat) :
    e.checker.eachDrawn.Settles (s.take k) (s.findingsUpTo e.findings k) := by
  rw [← Source.elementFindings_draw]
  exact Checker.eachDrawn_settles (s.take_yields k) fun x _ => e.settles x

theorem Schema.accepts_drawn_eq_false {e : Schema} {s : Source Value} {j n : Nat} {x : Value}
    (hx : s.get? j = some x) (hrejected : e.accepts x = false) (hn : j < n) :
    e.checker.eachDrawn.accepts s n = some false := by
  have hfound : e.findings x ≠ [] := by
    intro hnil
    rw [(e.accepts_iff_findings_nil x).2 hnil] at hrejected
    cases hrejected
  change (e.checker.eachDrawn.examine s n).bind Delivery.isEmpty? = some false
  rw [e.examine_drawn s n]
  exact (Delivery.isEmpty?_eq_false_iff _).2 (Source.findingsUpTo_ne_nil hx hfound hn)

/-- What is found in the first `k` elements is found first in every source that has the same first
`k` elements. Each of these findings stands under the position of its own element, and it is there
as soon as that element has been drawn, whatever comes after. One element that is rejected is enough
for the source to be rejected. -/
theorem first_findings_of_source (e : Schema) (w : Wording) (s : Source Value) :
    let c := (SequenceSchema.each e w).onSource Schema.checker
    (∀ k, ∃ b fs, c.Answers (s.take k) b fs ∧
      (∀ t, Source.Agrees k s t → ∀ n ≤ fs.length, ∀ gs : List Finding, gs.length = n →
        ((∃ m, c.Shows t m gs) ↔ gs = fs.take n)) ∧
      ∀ n f, fs[n]? = some f → ∃ j < k, ∃ x, s.get? j = some x ∧
        (∃ p ∈ e.findings x, f = p.under (.index j)) ∧
        ∀ t, Source.Agrees (j + 1) s t → ∀ m, c.Shows t m (fs.take (n + 1)) ↔ j < m) ∧
    ∀ j x, s.get? j = some x → e.accepts x = false →
      (∀ n, j < n → c.accepts s n = some false) ∧ ∀ n b, c.accepts s n = some b → b = false := by
  intro c
  have hshows : ∀ t m gs, c.Shows t m gs ↔ gs <+: t.findingsUpTo e.findings m := e.shows_drawn_iff
  refine ⟨fun k => ⟨_, _, (e.drawn_settles k).answers, ?_, ?_⟩, ?_⟩
  · intro t ht n hn gs hlen
    simp only [hshows]
    rw [← hlen] at hn ⊢
    exact ht.begins_iff hn
  · intro n f hf
    obtain ⟨j, hj, hmem, hbefore, hafter⟩ := Source.exists_block hf
    obtain ⟨x, hx, hfound⟩ := Source.exists_mem_of_mem_findingsAt hmem
    refine ⟨j, hj, x, hx, hfound, fun t ht m => ?_⟩
    rw [hshows]
    exact ht.take_prefix_iff hj hbefore hafter m
  · intro j x hx hrejected
    have hfalse : ∀ n, j < n → c.accepts s n = some false :=
      fun n hn => Schema.accepts_drawn_eq_false hx hrejected hn
    refine ⟨hfalse, fun n b hb => ?_⟩
    have hlater := e.checker_steady.eachDrawn.accepts (Nat.le_max_left n (j + 1)) hb
    have hrejects := hfalse _ (Nat.le_max_right n (j + 1))
    exact Option.some.inj (hlater.symm.trans hrejects)

theorem first_findings_of_source_of_nulls :
    let e : Schema := .category .string .standard
    let c := (SequenceSchema.each e .standard).onSource Schema.checker
    let s : Source Value := .cycle [.string "ok"] [.null]
    let t : Source Value := .cycle [.string "ok", .null] []
    let f : Finding := ⟨⟨[.index 1], .typeMismatch, "string", .string "null"⟩, .standard⟩
    Source.Agrees 2 s t ∧ s.get? 1 = some .null ∧ e.accepts .null = false ∧
    (∀ gs : List Finding, gs.length = 1 → ((∃ m, c.Shows t m gs) ↔ gs = [f])) ∧
    (∀ m, c.Shows t m [f] ↔ 1 < m) ∧ c.accepts s 2 = some false := by
  intro e c s t f
  have hagrees : Source.Agrees 2 s t := by
    intro i hi
    match i, hi with
    | 0, _ => rfl
    | 1, _ => rfl
  obtain ⟨hlocal, hrejects⟩ := first_findings_of_source e .standard s
  obtain ⟨b, fs, hanswers, hfirst, hplace⟩ := hlocal 2
  have hfs : [f] = fs := (hanswers.findings [f]).1 ⟨3, rfl⟩
  subst hfs
  obtain ⟨j, _, _, _, ⟨p, _, hp⟩, hdrawn⟩ := hplace 0 f rfl
  have hj : 1 = j := by
    injection (List.cons.inj (congrArg (·.path) hp)).1
  subst hj
  exact ⟨hagrees, rfl, rfl, hfirst t hagrees 1 (Nat.le_refl 1), hdrawn t hagrees,
    (hrejects 1 .null rfl rfl).1 2 (Nat.lt_succ_self 1)⟩

end Conform
