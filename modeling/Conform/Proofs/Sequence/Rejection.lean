import Conform.Proofs.Sequence.Growth
import Conform.Report

set_option autoImplicit false

/-!
# Rejections of sources without an end

A source is refused with its first finding as soon as that is handed over. If the source ends, this
comes to pass whenever the source is rejected. If it does not, rejection is not enough: an
intersection hands over nothing before both of its streams are there, and a size check, wherever it
stands, withholds its stream for ever.
-/
namespace Conform

namespace Delivery

variable {α : Type}

@[simp]
theorem isEmpty?_eq_false_iff (d : Delivery α) : d.isEmpty? = some false ↔ d.items ≠ [] := by
  unfold isEmpty?
  cases d.items with
  | nil => cases d.ended <;> simp
  | cons => simp

@[simp]
theorem isEmpty?_map {β : Type} (f : α → β) (d : Delivery α) :
    (d.map f).isEmpty? = d.isEmpty? := by
  obtain ⟨items, ended⟩ := d
  cases items <;> rfl

theorem isEmpty?_append (d e : Delivery α) :
    (d.append e).isEmpty? = d.isEmpty?.bind fun b => if b then e.isEmpty? else some false := by
  obtain ⟨items, ended⟩ := d
  cases ended with
  | true => cases items <;> simp [append, isEmpty?]
  | false => cases items <;> simp [append, isEmpty?]

end Delivery

namespace Source

variable {α : Type}

def Ends (s : Source α) : Prop := ∃ n, s.get? n = none

theorem exists_ended_draw_iff (s : Source α) : (∃ n, (s.draw n).ended = true) ↔ s.Ends := by
  constructor
  · rintro ⟨n, hn⟩
    obtain ⟨i, _, hi⟩ := (s.ended_draw_iff n).1 hn
    exact ⟨i, hi⟩
  · rintro ⟨i, hi⟩
    exact ⟨i + 1, (s.ended_draw_iff (i + 1)).2 ⟨i, Nat.lt_succ_self i, hi⟩⟩

end Source

namespace Checker

variable {α : Type}

def Rejects (c : Checker α) (x : α) : Prop := ∃ n, c.accepts x n = some false

def Opens (c : Checker α) (x : α) : Prop := ∃ n d, c.examine x n = some d

/-- A first finding is handed over after finitely many draws. -/
def Finds (c : Checker α) (x : α) : Prop := ∃ n d, c.examine x n = some d ∧ d.items ≠ []

def Refuses (c : Checker α) (x : α) : Prop := ∃ n r es, c.ensure x n = some ⟨.error r, es⟩

theorem refuses_iff_finds (c : Checker α) (x : α) : c.Refuses x ↔ c.Finds x := by
  constructor
  · rintro ⟨n, r, es, h⟩
    obtain ⟨d, hd, h⟩ := Option.bind_eq_some_iff.1 h
    refine ⟨n, d, hd, fun hi => ?_⟩
    rw [hi] at h
    cases he : d.ended <;> simp [he] at h
  · rintro ⟨n, d, hd, hi⟩
    obtain ⟨f, rest, hf⟩ := List.exists_cons_of_ne_nil hi
    refine ⟨n, f.refusal, [.refused f.path f.kind c.description], ?_⟩
    exact Option.bind_eq_some_iff.2 ⟨d, hd, by rw [hf]⟩

/-- Once the stream of findings is there, the verdict is whether it is empty. -/
def Tells (c : Checker α) : Prop := ∀ x n d, c.examine x n = some d → c.accepts x n = d.isEmpty?

theorem ofFindings_tells (description : String) (examine : α → Nat → Option (Delivery Finding)) :
    (ofFindings description examine).Tells := by
  intro x n d hd
  change (examine x n).bind Delivery.isEmpty? = d.isEmpty?
  rw [show examine x n = some d from hd]
  rfl

theorem Tells.both {l r : Checker α} (hl : l.Tells) (hr : r.Tells) (w : Wording) :
    (l.both r w).Tells := by
  intro x n d hd
  obtain ⟨dl, hdl, hd⟩ := Option.bind_eq_some_iff.1 hd
  obtain ⟨dr, hdr, hd⟩ := Option.bind_eq_some_iff.1 hd
  cases hd
  rw [Delivery.isEmpty?_map, Delivery.isEmpty?_append, ← hl x n dl hdl, ← hr x n dr hdr]
  rfl

theorem finds_iff {c : Checker α} (hs : c.Steady) (ht : c.Tells) (x : α) :
    c.Finds x ↔ c.Rejects x ∧ c.Opens x := by
  constructor
  · rintro ⟨n, d, hd, hi⟩
    exact ⟨⟨n, (ht x n d hd).trans ((d.isEmpty?_eq_false_iff).2 hi)⟩, n, d, hd⟩
  · rintro ⟨⟨m, hm⟩, n, d, hd⟩
    obtain ⟨e, he, _⟩ := hs.examine (Nat.le_max_right m n) hd
    have hfalse := hs.accepts (Nat.le_max_left m n) hm
    rw [ht x _ e he] at hfalse
    exact ⟨_, e, he, e.isEmpty?_eq_false_iff.1 hfalse⟩

theorem opens_both_iff {l r : Checker α} (hl : l.Steady) (hr : r.Steady) (w : Wording) (x : α) :
    (l.both r w).Opens x ↔ l.Opens x ∧ r.Opens x := by
  constructor
  · rintro ⟨n, d, hd⟩
    obtain ⟨dl, hdl, hd⟩ := Option.bind_eq_some_iff.1 hd
    obtain ⟨dr, hdr, _⟩ := Option.bind_eq_some_iff.1 hd
    exact ⟨⟨n, dl, hdl⟩, n, dr, hdr⟩
  · rintro ⟨⟨m, dl, hdl⟩, n, dr, hdr⟩
    obtain ⟨el, hel, _⟩ := hl.examine (Nat.le_max_left m n) hdl
    obtain ⟨er, her, _⟩ := hr.examine (Nat.le_max_right m n) hdr
    refine ⟨max m n, (el.append er).map (Finding.reworded w), ?_⟩
    simp only [Checker.both, hel, her]
    rfl

end Checker

namespace SequenceSchema

variable {ε α : Type}

/-- Nothing is counted. -/
def Streams : SequenceSchema ε → Prop
  | each _ _ => True
  | size _ _ _ => False
  | both l r _ => l.Streams ∧ r.Streams

theorem onSource_tells (element : ε → Checker α) (o : SequenceSchema ε) :
    (o.onSource element).Tells := by
  induction o with
  | each e w => exact Checker.ofFindings_tells _ _
  | size b limit w => exact Checker.ofFindings_tells _ _
  | both l r w ihl ihr => exact ihl.both ihr w

theorem onSource_opens_iff {element : ε → Checker α} (h : ∀ e, (element e).Steady)
    (o : SequenceSchema ε) (s : Source α) :
    (o.onSource element).Opens s ↔ s.Ends ∨ o.Streams := by
  induction o with
  | each e w => exact ⟨fun _ => .inr trivial, fun _ => ⟨0, _, rfl⟩⟩
  | size b limit w =>
    have hopens : ((size b limit w).onSource element).Opens s ↔ ∃ n, (s.draw n).ended = true := by
      simp [Checker.Opens, onSource, Checker.countDrawn, Checker.ofFindings]
    rw [hopens, s.exists_ended_draw_iff]
    exact (or_iff_left id).symm
  | both l r w ihl ihr =>
    have hboth := Checker.opens_both_iff (l.onSource_steady h) (r.onSource_steady h) w s
    exact hboth.trans ((and_congr ihl ihr).trans or_and_left.symm)

theorem onSource_finds_iff {element : ε → Checker α} (h : ∀ e, (element e).Steady)
    (o : SequenceSchema ε) (s : Source α) :
    (o.onSource element).Finds s ↔ (o.onSource element).Rejects s ∧ (s.Ends ∨ o.Streams) := by
  rw [Checker.finds_iff (o.onSource_steady h) (o.onSource_tells element),
    o.onSource_opens_iff h s]

end SequenceSchema

/-- When a source is refused with its first finding: when it is rejected, and besides either ends or
has nothing counted. This goes for a source of documents and for a source of sources. -/
theorem refused_iff_rejected (o : SequenceSchema Schema) (s : Source Value)
    (p : SequenceSchema (SequenceSchema Schema)) (t : Source (Source Value)) :
    (((o.onSource Schema.checker).Refuses s ↔ (o.onSource Schema.checker).Finds s) ∧
      ((o.onSource Schema.checker).Finds s ↔
        (o.onSource Schema.checker).Rejects s ∧ (s.Ends ∨ o.Streams))) ∧
    ((p.onSource (·.onSource Schema.checker)).Refuses t ↔
      (p.onSource (·.onSource Schema.checker)).Finds t) ∧
    ((p.onSource (·.onSource Schema.checker)).Finds t ↔
      (p.onSource (·.onSource Schema.checker)).Rejects t ∧ (t.Ends ∨ p.Streams)) := by
  refine ⟨⟨Checker.refuses_iff_finds _ s, ?_⟩, Checker.refuses_iff_finds _ t, ?_⟩
  · exact o.onSource_finds_iff Schema.checker_steady s
  · exact p.onSource_finds_iff (fun o => o.onSource_steady Schema.checker_steady) t

/-- Of nulls without end the first is not a string, and so they are rejected. But the finding is not
handed over, as there may be only one of them. -/
theorem rejected_and_not_refused :
    let o : SequenceSchema Schema :=
      .both (.each (.category .string .standard) .standard) (.size .atMost 1 .standard) .standard
    let s : Source Value := .cycle [] [.null]
    (o.onSource Schema.checker).Rejects s ∧ ¬ (o.onSource Schema.checker).Finds s ∧
      ¬ (o.onSource Schema.checker).Refuses s := by
  intro o s
  have hfinds : ¬ (o.onSource Schema.checker).Finds s := by
    rw [SequenceSchema.onSource_finds_iff Schema.checker_steady]
    rintro ⟨_, ⟨n, hn⟩ | ⟨_, hsize⟩⟩
    · simp [s, Source.cycle, Nat.mod_one] at hn
    · exact hsize
  exact ⟨⟨1, rfl⟩, hfinds, fun h => hfinds ((Checker.refuses_iff_finds _ _).1 h)⟩

end Conform
