import Conform.Proofs.Agreement

set_option autoImplicit false

namespace Conform

namespace Source

variable {α : Type}

theorem Yields.unique {s : Source α} {xs ys : List α} (hx : s.Yields xs) (hy : s.Yields ys) :
    xs = ys :=
  List.ext_getElem? fun n => (hx n).symm.trans (hy n)

open Classical in
noncomputable def contents (s : Source α) : List α :=
  if h : ∃ xs, s.Yields xs then h.choose else []

theorem Yields.contents_eq {s : Source α} {xs : List α} (h : s.Yields xs) : s.contents = xs := by
  have hex : ∃ xs, s.Yields xs := ⟨xs, h⟩
  rw [contents, dif_pos hex]
  exact hex.choose_spec.unique h

theorem map_contents {ss : List (Source α)} {xss : List (List α)}
    (h : List.Forall₂ Yields ss xss) : ss.map contents = xss := by
  induction h with
  | nil => rfl
  | cons hs _ ih => rw [List.map_cons, ih, hs.contents_eq]

theorem yields_contents {ss : List (Source α)} {xss : List (List α)}
    (h : List.Forall₂ Yields ss xss) : ∀ s ∈ ss, s.Yields s.contents := by
  induction h with
  | nil => exact fun _ hs => nomatch hs
  | cons hs _ ih =>
    refine List.forall_mem_cons.2 ⟨?_, ih⟩
    rw [hs.contents_eq]
    exact hs

end Source

theorem Checker.elementFindings_eq_map {α : Type} (g : α → List Finding) (xs : List α) :
    elementFindings g xs =
      (xs.map g).zipIdx.flatMap fun fs => fs.1.map (Finding.under (.index fs.2)) := by
  rw [List.zipIdx_map, List.flatMap_map]
  rfl

namespace SequenceSchema

variable {ε α β : Type}

theorem findings_congr {g : ε → α → List Finding} {g' : ε → β → List Finding} {xs : List α}
    {ys : List β} (hlen : xs.length = ys.length) (h : ∀ e, xs.map (g e) = ys.map (g' e))
    (o : SequenceSchema ε) : o.findings g xs = o.findings g' ys := by
  induction o with
  | each e w =>
    simp only [findings]
    rw [Checker.elementFindings_eq_map, Checker.elementFindings_eq_map, h e]
  | size b limit w => simp only [findings, hlen]
  | both l r w ihl ihr => simp only [findings, ihl, ihr]

theorem findings_map (f : α → β) (g : ε → β → List Finding) (o : SequenceSchema ε) (xs : List α) :
    o.findings g (xs.map f) = o.findings (fun e x => g e (f x)) xs :=
  findings_congr (List.length_map f) (fun _ => List.map_map) o

theorem findings_toSchema (element : ε → Schema) (o : SequenceSchema ε) {v : Value}
    {xs : List Value} (h : v.elements? = some xs) :
    (o.toSchema element).findings v = o.findings (fun e => (element e).findings) xs := by
  induction o with
  | each e w =>
    simp only [toSchema, Schema.findings, h, findings]
    rfl
  | size b limit w => simp only [toSchema, Schema.findings, h, findings]
  | both l r w ihl ihr => simp only [toSchema, Schema.findings, ihl, ihr, findings]

theorem findings_toSchema_array (o : SequenceSchema Schema) (xs : List Value) :
    (o.toSchema id).findings (.array xs) = o.findings Schema.findings xs :=
  o.findings_toSchema id rfl

theorem findings_toSchema_arrays (p : SequenceSchema (SequenceSchema Schema))
    (xss : List (List Value)) :
    (p.toSchema (·.toSchema id)).findings (.array (xss.map .array)) =
      p.findings (fun o => o.findings Schema.findings) xss := by
  rw [p.findings_toSchema (·.toSchema id) rfl, findings_map]
  exact findings_congr rfl (fun o => List.map_congr_left fun xs _ => o.findings_toSchema_array xs) p

theorem findings_contents {ss : List (Source Value)} {xss : List (List Value)}
    (h : List.Forall₂ Source.Yields ss xss) (p : SequenceSchema (SequenceSchema Schema)) :
    p.findings (fun o s => o.findings Schema.findings s.contents) ss =
      p.findings (fun o => o.findings Schema.findings) xss := by
  rw [← Source.map_contents h, findings_map]

theorem settles_contents {ss : List (Source Value)} {xss : List (List Value)}
    (h : List.Forall₂ Source.Yields ss xss) (o : SequenceSchema Schema) :
    ∀ s ∈ ss, (o.onSource Schema.checker).Settles s (o.findings Schema.findings s.contents) :=
  fun s hs => o.onSource_settles Schema.checker Schema.findings (Source.yields_contents h s hs)
    fun e x _ => e.settles x

end SequenceSchema

theorem Checker.Settles.answers_as {α : Type} {c : Checker α} {x : α} {fs : List Finding}
    (h : c.Settles x fs) {s : Schema} {v : Value} (e : s.findings v = fs) :
    c.Answers x (s.accepts v) (s.findings v) := by
  rw [Schema.accepts_eq_isEmpty, e]
  exact h.answers

/-- The verdict and all findings are the same for an array, a list and a source with the same
elements, for a string and the array of its characters, and for an array of arrays, a list of
sources and a source of sources with the same contents. -/
theorem same_answers_from_every_carrier :
    (∀ (o : SequenceSchema Schema) (xs : List Value),
      (o.onList Schema.checker).Answers xs ((o.toSchema id).accepts (.array xs))
        ((o.toSchema id).findings (.array xs)) ∧
      ∀ s : Source Value, s.Yields xs →
        (o.onSource Schema.checker).Answers s ((o.toSchema id).accepts (.array xs))
          ((o.toSchema id).findings (.array xs))) ∧
    (∀ (o : SequenceSchema Schema) (text : String),
      (o.toSchema id).accepts (.string text) =
        (o.toSchema id).accepts (.array (text.toList.map fun c => .string c.toString)) ∧
      (o.toSchema id).findings (.string text) =
        (o.toSchema id).findings (.array (text.toList.map fun c => .string c.toString))) ∧
    ∀ (p : SequenceSchema (SequenceSchema Schema)) (xss : List (List Value))
      (ss : List (Source Value)), List.Forall₂ Source.Yields ss xss →
      (p.onList (·.onSource Schema.checker)).Answers ss
        ((p.toSchema (·.toSchema id)).accepts (.array (xss.map .array)))
        ((p.toSchema (·.toSchema id)).findings (.array (xss.map .array))) ∧
      ∀ s : Source (Source Value), s.Yields ss →
        (p.onSource (·.onSource Schema.checker)).Answers s
          ((p.toSchema (·.toSchema id)).accepts (.array (xss.map .array)))
          ((p.toSchema (·.toSchema id)).findings (.array (xss.map .array))) := by
  refine ⟨fun o xs => ⟨?_, fun s hs => ?_⟩, fun o text => ?_,
    fun p xss ss h => ⟨?_, fun s hs => ?_⟩⟩
  · have hsettles := o.onList_settles Schema.checker Schema.findings xs fun e x _ => e.settles x
    exact hsettles.answers_as (o.findings_toSchema_array xs)
  · have hsettles := o.onSource_settles Schema.checker Schema.findings hs fun e x _ => e.settles x
    exact hsettles.answers_as (o.findings_toSchema_array xs)
  · have hfindings : (o.toSchema id).findings (.string text) =
        (o.toSchema id).findings (.array (text.toList.map fun c => .string c.toString)) :=
      (o.findings_toSchema id rfl).trans (o.findings_toSchema id rfl).symm
    refine ⟨?_, hfindings⟩
    rw [Schema.accepts_eq_isEmpty, Schema.accepts_eq_isEmpty, hfindings]
  · have hsettles := p.onList_settles _ _ ss fun o => SequenceSchema.settles_contents h o
    refine hsettles.answers_as ?_
    rw [p.findings_toSchema_arrays, SequenceSchema.findings_contents h]
  · have hsettles := p.onSource_settles _ _ hs fun o => SequenceSchema.settles_contents h o
    refine hsettles.answers_as ?_
    rw [p.findings_toSchema_arrays, SequenceSchema.findings_contents h]

theorem same_answers_from_source_of_texts :
    let p : SequenceSchema (SequenceSchema Schema) :=
      .each (.both (.each (.category .string .standard) .standard)
        (.size .atLeast 3 (.custom (.fixed "short"))) .standard) .standard
    let xss : List (List Value) := [[.string "a", .null], []]
    let ss : List (Source Value) := xss.map .ofList
    List.Forall₂ Source.Yields ss xss ∧ (Source.ofList ss).Yields ss ∧
    (p.onSource (·.onSource Schema.checker)).Answers (Source.ofList ss)
      ((p.toSchema (·.toSchema id)).accepts (.array (xss.map .array)))
      ((p.toSchema (·.toSchema id)).findings (.array (xss.map .array))) := by
  intro p xss ss
  have hss : List.Forall₂ Source.Yields ss xss :=
    .cons (Source.ofList_yields _) (.cons (Source.ofList_yields _) .nil)
  have hs : (Source.ofList ss).Yields ss := Source.ofList_yields ss
  exact ⟨hss, hs, (same_answers_from_every_carrier.2.2 p xss ss hss).2 _ hs⟩

end Conform
