import Conform.Proofs.Schema.EqualDocuments
import Conform.Proofs.Schema.Meaning

set_option autoImplicit false

namespace Conform

/-- A schema in which one place is left open. -/
inductive Context where
  | hole
  | item (c : Context) (w : Wording)
  | position (before : List Schema) (c : Context) (after : List Schema) (w : Wording)
  | name (c : Context) (value : Schema) (w : Wording)
  | entry (key : Schema) (c : Context) (w : Wording)
  | field (before : List (String × Schema)) (name : String) (c : Context)
      (after : List (String × Schema)) (w : Wording)
  | element (c : Context) (w : Wording)
  | branch (before : List Schema) (c : Context) (after : List Schema) (w : Wording)
  | left (c : Context) (right : Schema) (w : Wording)
  | right (left : Schema) (c : Context) (w : Wording)

def Context.fill : Context → Schema → Schema
  | hole, s => s
  | item c w, s => .arrayOf (c.fill s) w
  | position before c after w, s => .tuple (before ++ c.fill s :: after) w
  | name c e w, s => .record (c.fill s) e w
  | entry k c w, s => .record k (c.fill s) w
  | field before n c after w, s => .fields (before ++ (n, c.fill s) :: after) w
  | element c w, s => .each (c.fill s) w
  | branch before c after w, s => .anyOf (before ++ c.fill s :: after) w
  | left c r w, s => .both (c.fill s) r w
  | right l c w, s => .both l (c.fill s) w

/-- With a document the class also has its members and the texts of its names. -/
def Value.Closed (D : Value → Prop) : Prop := ∀ v a w, D v → v.Part a w → D w

namespace Value

variable {D : Value → Prop}

theorem closed_distinct : Closed Distinct := fun _ _ _ hv hpart => hv.part hpart

theorem Closed.elements (hD : Closed D) {v : Value} (hv : D v) {items : List Value}
    (h : v.elements? = some items) : ∀ x ∈ items, D x := by
  intro x hx
  obtain ⟨i, hi⟩ := List.mem_iff_getElem?.1 hx
  cases v with
  | array =>
    cases h
    exact hD _ _ _ hv (.item hi)
  | string text =>
    cases h
    rw [List.getElem?_map] at hi
    obtain ⟨c, hc, rfl⟩ := Option.map_eq_some_iff.1 hi
    exact hD _ _ _ hv (.character hc)
  | _ => cases h

end Value

theorem forall₂_exchange {α : Type} {R : α → α → Prop} (hR : ∀ a, R a a) (before after : List α)
    {a b : α} (h : R a b) : List.Forall₂ R (before ++ a :: after) (before ++ b :: after) := by
  have hsame : ∀ xs : List α, List.Forall₂ R xs xs := fun xs => List.forall₂_same.2 fun x _ => hR x
  exact List.rel_append (hsame before) (.cons h (hsame after))

namespace Schema

def Entails (D : Value → Prop) (s t : Schema) : Prop :=
  ∀ v, D v → s.accepts v = true → t.accepts v = true

section

variable {D : Value → Prop} {s t : Schema} (hD : Value.Closed D) (w : Wording)

theorem entails_refl (D : Value → Prop) (s : Schema) : s.Entails D s := fun _ _ h => h

theorem Entails.all (h : s.Entails D t) {items : List Value} (hitems : ∀ x ∈ items, D x)
    (hs : items.all s.accepts = true) : items.all t.accepts = true := by
  rw [List.all_eq_true] at hs ⊢
  exact fun x hx => h x (hitems x hx) (hs x hx)

include hD in
theorem Entails.arrayOf (h : s.Entails D t) : (arrayOf s w).Entails D (arrayOf t w) := by
  intro v hv hs
  cases v with
  | array items =>
    rw [accepts] at hs ⊢
    exact h.all (hD.elements hv rfl) hs
  | _ => simp [accepts] at hs

include hD in
theorem Entails.each (h : s.Entails D t) : (each s w).Entails D (each t w) := by
  intro v hv hs
  rw [accepts, Option.any_eq_true] at hs ⊢
  obtain ⟨items, hitems, hs⟩ := hs
  exact ⟨items, hitems, h.all (hD.elements hv hitems) hs⟩

theorem acceptsItems_of_entails {ps qs : List Schema} (h : List.Forall₂ (Entails D) ps qs)
    {items : List Value} (hitems : ∀ x ∈ items, D x) (hs : acceptsItems ps items = true) :
    acceptsItems qs items = true := by
  induction h generalizing items with
  | nil => rfl
  | cons h _ ih =>
    cases items with
    | nil => cases hs
    | cons x xs =>
      rw [acceptsItems, Bool.and_eq_true] at hs ⊢
      exact ⟨h x (hitems x (.head _)) hs.1, ih (fun y hy => hitems y (.tail x hy)) hs.2⟩

include hD in
theorem entails_tuple {ps qs : List Schema} (h : List.Forall₂ (Entails D) ps qs) :
    (tuple ps w).Entails D (tuple qs w) := by
  intro v hv hs
  cases v with
  | array items =>
    rw [accepts] at hs ⊢
    exact acceptsItems_of_entails h (hD.elements hv rfl) hs
  | _ => simp [accepts] at hs

include hD in
theorem Entails.record {e f : Schema} (hst : s.Entails D t) (hef : e.Entails D f) :
    (record s e w).Entails D (record t f w) := by
  intro v hv hs
  cases v with
  | object entries =>
    rw [accepts, List.all_eq_true] at hs ⊢
    intro x hx
    have hx' := hs x hx
    rw [Bool.and_eq_true] at hx' ⊢
    exact ⟨hst _ (hD _ _ _ hv (.name hx)) hx'.1, hef _ (hD _ _ _ hv (.entry hx)) hx'.2⟩
  | _ => simp [accepts] at hs

include hD in
theorem entails_fields {ds es : List (String × Schema)}
    (h : List.Forall₂ (fun d e => d.1 = e.1 ∧ Entails D d.2 e.2) ds es) :
    (fields ds w).Entails D (fields es w) := by
  intro v hv hs
  cases v with
  | object entries =>
    -- A name may be declared more than once, and only its last declaration counts. So what is
    -- compared is what is looked up, and not the lists of declarations.
    rw [accepts_fields_iff_lookup] at hs ⊢
    intro name u x hu hx
    have hlast := rel_lookup (R := fun _ => Entails D) (List.rel_reverse h) name
    rw [hu] at hlast
    cases hd : ds.reverse.lookup name with
    | none =>
      rw [hd] at hlast
      cases hlast
    | some d =>
      rw [hd] at hlast
      have hx' : D x := hD _ _ _ hv (.entry (x := (name, x)) (Table.mem_of_lookup hx))
      cases hlast with
      | some hdu => exact hdu x hx' (hs name d x hd hx)
  | _ => simp [accepts] at hs

theorem entails_anyOf {bs cs : List Schema} (h : List.Forall₂ (Entails D) bs cs) :
    (anyOf bs w).Entails D (anyOf cs w) := by
  intro v hv hs
  rw [accepts] at hs ⊢
  induction h with
  | nil => exact hs
  | cons h _ ih =>
    rw [acceptsAny, Bool.or_eq_true] at hs ⊢
    exact hs.imp (h v hv) ih

theorem Entails.both {l r : Schema} (hst : s.Entails D t) (hlr : l.Entails D r) :
    (both s l w).Entails D (both t r w) := by
  intro v hv hs
  rw [accepts, Bool.and_eq_true] at hs ⊢
  exact ⟨hst v hv hs.1, hlr v hv hs.2⟩

include hD in
theorem Entails.fill (h : s.Entails D t) (c : Context) : (c.fill s).Entails D (c.fill t) := by
  induction c with
  | hole => exact h
  | item c w ih => exact ih.arrayOf hD w
  | position before c after w ih =>
    exact entails_tuple hD w (forall₂_exchange (entails_refl D) before after ih)
  | name c e w ih => exact ih.record hD w (entails_refl D e)
  | entry k c w ih => exact (entails_refl D k).record hD w ih
  | field before n c after w ih =>
    exact entails_fields hD w
      (forall₂_exchange (fun d => ⟨rfl, entails_refl D d.2⟩) before after ⟨rfl, ih⟩)
  | element c w ih => exact ih.each hD w
  | branch before c after w ih =>
    exact entails_anyOf w (forall₂_exchange (entails_refl D) before after ih)
  | left c r w ih => exact ih.both w (entails_refl D r)
  | right l c w ih => exact (entails_refl D l).both w ih

end

/-- If one part of a schema is exchanged for another that accepts more, the schema accepts more, and
if it is exchanged for one that accepts the same, the schema accepts the same. Only documents of a
class that has the parts of its members need to be looked at, such as those that repeat no name. -/
theorem accepts_fill_mono {D : Value → Prop} (hD : Value.Closed D) (c : Context) (s t : Schema) :
    ((∀ v, D v → s.accepts v = true → t.accepts v = true) →
      ∀ v, D v → (c.fill s).accepts v = true → (c.fill t).accepts v = true) ∧
    ((∀ v, D v → s.accepts v = t.accepts v) →
      ∀ v, D v → (c.fill s).accepts v = (c.fill t).accepts v) := by
  constructor
  · intro h
    exact Entails.fill hD h c
  · intro h v hv
    have hst : s.Entails D t := fun u hu hs => (h u hu).symm.trans hs
    have hts : t.Entails D s := fun u hu ht => (h u hu).trans ht
    rw [Bool.eq_iff_iff]
    exact ⟨hst.fill hD c v hv, hts.fill hD c v hv⟩

/-- A short text in place of a text, and a choice between two texts, for the items of arrays in a
record below a name that is declared twice. -/
theorem accepts_fill_mono_in_field :
    let k (x : Category) : Schema := .category x .standard
    let short : Schema := .both (k .string) (.size .atMost 3 .standard) .standard
    let twice : Schema := .anyOf [k .string, k .string] .standard
    let c : Context := .field [("a", k .null)] "a" (.entry (k .string) (.element
      (.branch [k .null] .hole [] .standard) .standard) .standard) [] .standard
    let v : Value := .object [("a", .object [("b", .array [.null, .string "xyz"])])]
    (v.Distinct ∧ (c.fill short).accepts v = true ∧ (c.fill (k .string)).accepts v = true) ∧
      (∀ u, Value.Distinct u → short.accepts u = true → (k .string).accepts u = true) ∧
      (∀ u, Value.Distinct u → (k .string).accepts u = twice.accepts u) ∧
      ∀ u, Value.Distinct u → (c.fill (k .string)).accepts u = (c.fill twice).accepts u := by
  intro k short twice c v
  have hv : v.Distinct := by
    refine .object (by decide) (List.forall_mem_singleton.2 (.object (by decide) ?_))
    refine List.forall_mem_singleton.2 (.array (List.forall_mem_cons.2 ⟨.null, ?_⟩))
    exact List.forall_mem_singleton.2 (.string _)
  have hshort : ∀ u, Value.Distinct u → short.accepts u = true → (k .string).accepts u = true := by
    intro u _ hu
    rw [accepts, Bool.and_eq_true] at hu
    exact hu.1
  have htwice : ∀ u, Value.Distinct u → (k .string).accepts u = twice.accepts u := by
    intro u _
    simp [twice, accepts, acceptsAny]
  have haccepts : (c.fill short).accepts v = true := by decide +kernel
  obtain ⟨more, -⟩ := accepts_fill_mono Value.closed_distinct c short (k .string)
  obtain ⟨-, same⟩ := accepts_fill_mono Value.closed_distinct c (k .string) twice
  exact ⟨⟨hv, haccepts, more hshort v hv haccepts⟩, hshort, htwice, same htwice⟩

end Schema
end Conform
