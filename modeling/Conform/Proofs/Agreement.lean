import Conform.Proofs.Sequence.Settling

set_option autoImplicit false

namespace Conform

/-- The answers of a checker about an input are the verdict `b` and the findings `fs`: it comes to
give both and gives no others, and all that it hands over on the way is the beginning of `fs`. -/
structure Checker.Answers {α : Type} (c : Checker α) (x : α) (b : Bool) (fs : List Finding) :
    Prop where
  verdict : ∀ b', (∃ n, c.accepts x n = some b') ↔ b' = b
  findings : ∀ fs', (∃ n, c.examine x n = some (.complete fs')) ↔ fs' = fs
  early : ∀ n d, c.examine x n = some d → d.items <+: fs

theorem Checker.Settles.answers {α : Type} {c : Checker α} {x : α} {fs : List Finding}
    (h : c.Settles x fs) : c.Answers x fs.isEmpty fs where
  verdict b := by
    obtain ⟨N, hN⟩ := h.eventually
    constructor
    · rintro ⟨n, hn⟩
      exact h.decides n b hn
    · intro e
      exact ⟨N, e ▸ (hN N (Nat.le_refl N)).2⟩
  findings gs := by
    obtain ⟨N, hN⟩ := h.eventually
    constructor
    · rintro ⟨n, hn⟩
      exact (h.reads n _ hn).eq_of_ended rfl
    · intro e
      exact ⟨N, e ▸ (hN N (Nat.le_refl N)).1⟩
  early n d hd := (h.reads n d hd).isPrefix

theorem Checker.Settles.exists_answers {α : Type} {c : Checker α} {x : α} {fs : List Finding}
    (h : c.Settles x fs) : ∃ b fs, c.Answers x b fs ∧ (b = true ↔ fs = []) :=
  ⟨fs.isEmpty, fs, h.answers, List.isEmpty_iff⟩

/-- Nothing is found in exactly what is accepted, for a schema and a document, and for a schema of
sequences of documents and a list or a source that ends. -/
theorem accepted_iff_nothing_found :
    (∀ (s : Schema) (v : Value), s.accepts v = true ↔ s.findings v = []) ∧
    (∀ (o : SequenceSchema Schema) (xs : List Value), ∃ b fs,
      (o.onList Schema.checker).Answers xs b fs ∧ (b = true ↔ fs = [])) ∧
    ∀ (o : SequenceSchema Schema) (s : Source Value), (∃ n, s.get? n = none) → ∃ b fs,
      (o.onSource Schema.checker).Answers s b fs ∧ (b = true ↔ fs = []) := by
  refine ⟨Schema.accepts_iff_findings_nil, fun o xs => ?_, fun o s hs => ?_⟩
  · have h := o.onList_settles Schema.checker Schema.findings xs fun e x _ => e.settles x
    exact h.exists_answers
  · obtain ⟨n, hn⟩ := hs
    obtain ⟨xs, hxs⟩ := s.exists_yields n hn
    have h := o.onSource_settles Schema.checker Schema.findings hxs fun e x _ => e.settles x
    exact h.exists_answers

theorem accepted_iff_nothing_found_in_pair :
    (∃ n, (Source.cycle [Value.string "a", .null] []).get? n = none) ∧ ∃ b fs,
      ((SequenceSchema.both (.each (Schema.category .string .standard) .standard)
        (.size .atMost 1 .standard) .standard).onSource Schema.checker).Answers
        (Source.cycle [.string "a", .null] []) b fs ∧ (b = true ↔ fs = []) :=
  ⟨⟨2, rfl⟩, accepted_iff_nothing_found.2.2 _ _ ⟨2, rfl⟩⟩

end Conform
