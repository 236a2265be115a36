import Conform.Proofs.Schema.Contexts
import Conform.Proofs.Schema.Declarations

set_option autoImplicit false

/-!
# Exchanging parts of a schema without a trace

Two schemas are indistinguishable if they show, accept and find the same and word their findings
alike. Then they are so as parts of any schema, even where a part is not applied but only described
or asked for its wording. Intersections of three parts are an example: how these are grouped does not
matter as long as the message stands on the outer one.
-/
namespace Conform.Schema

structure Indistinguishable (s t : Schema) : Prop extends s.Interchangeable t where
  wording : s.wording = t.wording

theorem indistinguishable_refl (s : Schema) : s.Indistinguishable s where
  description := rfl
  accepts _ := rfl
  findings _ := rfl
  wording := rfl

section

variable {s t : Schema} (w : Wording)

theorem Indistinguishable.accepts_eq (h : s.Indistinguishable t) : s.accepts = t.accepts :=
  funext h.accepts

theorem Indistinguishable.findings_eq (h : s.Indistinguishable t) : s.findings = t.findings :=
  funext h.findings

theorem Indistinguishable.missing (h : s.Indistinguishable t) : s.missing = t.missing := by
  rw [Schema.missing, h.description, h.wording, Schema.missing]

theorem Indistinguishable.arrayOf (h : s.Indistinguishable t) :
    (arrayOf s w).Indistinguishable (arrayOf t w) where
  description := by rw [Schema.description, Schema.description, h.description]
  accepts v := by cases v <;> simp only [Schema.accepts, h.accepts_eq]
  findings v := by cases v <;> simp only [Schema.findings, h.findings_eq]
  wording := rfl

theorem Indistinguishable.each (h : s.Indistinguishable t) :
    (each s w).Indistinguishable (each t w) where
  description := by rw [Schema.description, Schema.description, h.description]
  accepts v := by simp only [Schema.accepts, h.accepts_eq]
  findings v := by simp only [Schema.findings, h.findings_eq]
  wording := rfl

theorem Indistinguishable.record {e f : Schema} (hst : s.Indistinguishable t)
    (hef : e.Indistinguishable f) : (record s e w).Indistinguishable (record t f w) where
  description := by rw [Schema.description, Schema.description, hst.description, hef.description]
  accepts v := by cases v <;> simp only [Schema.accepts, hst.accepts_eq, hef.accepts_eq]
  findings v := by cases v <;> simp only [Schema.findings, hst.findings_eq, hef.findings_eq]
  wording := rfl

theorem Indistinguishable.both {l r : Schema} (hst : s.Indistinguishable t)
    (hlr : l.Indistinguishable r) : (both s l w).Indistinguishable (both t r w) where
  description := by rw [Schema.description, Schema.description, hst.description, hlr.description]
  accepts v := by rw [Schema.accepts, Schema.accepts, hst.accepts, hlr.accepts]
  findings v := by rw [Schema.findings, Schema.findings, hst.findings, hlr.findings]
  wording := by rw [Schema.wording, Schema.wording, hst.wording]

end

section

variable {ss ts : List Schema} (h : List.Forall₂ Indistinguishable ss ts) (w : Wording)

include h

theorem descriptions_congr : descriptions ss = descriptions ts := by
  simpa using map_eq_of_forall₂ h fun _ _ hst => hst.description

theorem alternatives_congr : alternatives ss = alternatives ts := by
  rw [alternatives, alternatives, isEmpty_eq_of_forall₂ h, descriptions_congr h]

theorem acceptsItems_congr (items : List Value) : acceptsItems ss items = acceptsItems ts items := by
  induction h generalizing items with
  | nil => rfl
  | cons hst _ ih =>
    cases items with
    | nil => rfl
    | cons x xs => rw [acceptsItems, acceptsItems, hst.accepts, ih]

theorem positionFindings_congr (items : List Value) (i : Nat) :
    positionFindings ss items i = positionFindings ts items i := by
  induction h generalizing items i with
  | nil => rfl
  | cons hst _ ih =>
    cases items with
    | nil => rw [positionFindings, positionFindings, hst.missing, ih]
    | cons x xs => rw [positionFindings, positionFindings, hst.findings, ih]

theorem acceptsAny_congr (v : Value) : acceptsAny ss v = acceptsAny ts v := by
  induction h with
  | nil => rfl
  | cons hst _ ih => rw [acceptsAny, acceptsAny, hst.accepts, ih]

theorem indistinguishable_tuple : (tuple ss w).Indistinguishable (tuple ts w) where
  description := by rw [description, description, descriptions_congr h]
  accepts v := by cases v <;> simp only [accepts, acceptsItems_congr h]
  findings v := by cases v <;> simp only [findings, positionFindings_congr h]
  wording := rfl

theorem indistinguishable_anyOf : (anyOf ss w).Indistinguishable (anyOf ts w) where
  description := by rw [description, description, isEmpty_eq_of_forall₂ h, descriptions_congr h]
  accepts v := by rw [accepts, accepts, acceptsAny_congr h]
  findings v := by rw [findings, findings, acceptsAny_congr h, alternatives_congr h]
  wording := rfl

end

-- Each reading of a schema takes the declarations to a list of names with what it needs of them.
theorem map_declarations_congr {α : Type} {f : Schema → α} {ds es : List (String × Schema)}
    (h : List.Forall₂ (fun d e => d.1 = e.1 ∧ d.2.Indistinguishable e.2) ds es)
    (hf : ∀ s t : Schema, s.Indistinguishable t → f s = f t) :
    ds.map (Prod.map id f) = es.map (Prod.map id f) :=
  map_eq_of_forall₂ h fun d e hde => Prod.ext hde.1 (hf d.2 e.2 hde.2)

theorem indistinguishable_fields {ds es : List (String × Schema)} (w : Wording)
    (h : List.Forall₂ (fun d e => d.1 = e.1 ∧ d.2.Indistinguishable e.2) ds es) :
    (fields ds w).Indistinguishable (fields es w) := by
  have hdescriptions : fieldDescriptions ds = fieldDescriptions es := by
    simpa using map_declarations_congr h fun _ _ hst => hst.description
  have htests : fieldTests ds = fieldTests es := by
    simpa using map_declarations_congr h fun _ _ hst => hst.accepts_eq
  have hfindings : fieldFindings ds = fieldFindings es := by
    simpa using map_declarations_congr h fun _ _ hst => hst.findings_eq
  exact
    { description := by rw [description, description, isEmpty_eq_of_forall₂ h, hdescriptions]
      accepts := fun v => by cases v <;> simp only [accepts, htests]
      findings := fun v => by cases v <;> simp only [findings, hfindings]
      wording := rfl }

theorem Indistinguishable.fill {s t : Schema} (h : s.Indistinguishable t) (c : Context) :
    (c.fill s).Indistinguishable (c.fill t) := by
  induction c with
  | hole => exact h
  | item c w ih => exact ih.arrayOf w
  | position before c after w ih =>
    exact indistinguishable_tuple (forall₂_exchange indistinguishable_refl before after ih) w
  | name c e w ih => exact ih.record w (indistinguishable_refl e)
  | entry k c w ih => exact (indistinguishable_refl k).record w ih
  | field before n c after w ih =>
    refine indistinguishable_fields w (forall₂_exchange ?_ before after ⟨rfl, ih⟩)
    exact fun d => ⟨rfl, indistinguishable_refl d.2⟩
  | element c w ih => exact ih.each w
  | branch before c after w ih =>
    exact indistinguishable_anyOf (forall₂_exchange indistinguishable_refl before after ih) w
  | left c r w ih => exact ih.both w (indistinguishable_refl r)
  | right l c w ih => exact (indistinguishable_refl l).both w ih

@[simp]
theorem map_reworded_standard (fs : List Finding) : fs.map (Finding.reworded .standard) = fs :=
  List.map_id fs

theorem indistinguishable_both_assoc (x y z : Schema) (w : Wording) :
    (both (both x y .standard) z w).Indistinguishable (both x (both y z .standard) w) where
  description := by simp only [description, String.append_assoc]
  accepts v := by simp only [accepts, Bool.and_assoc]
  findings v := by simp [Schema.findings, List.append_assoc]
  wording := rfl

/-- Of three parts that are asked for together, under one message or none, it cannot be seen how they
are grouped, wherever in a schema they stand. -/
theorem regrouped_parts_are_indistinguishable (c : Context) (x y z : Schema) (w : Wording) :
    (c.fill (both (both x y .standard) z w)).Indistinguishable
      (c.fill (both x (both y z .standard) w)) :=
  (indistinguishable_both_assoc x y z w).fill c

end Conform.Schema
