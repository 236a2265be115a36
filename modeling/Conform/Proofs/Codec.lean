import Conform.Codec
import Conform.Proofs.Value.Equality

set_option autoImplicit false

/-!
# What is read from a written report

A violation or a report is read from exactly those documents that are one of its written forms: an
object that has its fields in any order among others, or an array of just the fields, with the kind
of a defect as a name or as an object of that name. The form in which it is written is one of these,
so nothing is lost on the way.
-/
namespace Conform

theorem mapM_eq_some_iff {α β : Type} {f : α → Option β} (xs : List α) (ys : List β) :
    xs.mapM f = some ys ↔ List.Forall₂ (fun x y => f x = some y) xs ys := by
  induction xs generalizing ys with
  | nil => cases ys <;> simp
  | cons x xs ih =>
    have hcons : (x :: xs).mapM f =
        (f x).bind fun y => (xs.mapM f).bind fun ys => some (y :: ys) := List.mapM_cons
    cases ys with
    | nil => simp [hcons, Option.bind_eq_some_iff]
    | cons y ys => simp [hcons, Option.bind_eq_some_iff, ih]

namespace Value

/-- A document that gives these values to the named fields. -/
inductive Assigns (names : List String) (parts : List Value) : Value → Prop where
  | object {entries : List (String × Value)}
      (h : List.Forall₂ (fun name v => entries.lookup name = some v) names parts) :
      Assigns names parts (object entries)
  | array (h : parts.length = names.length) : Assigns names parts (array parts)

theorem assigns_object {entries : List (String × Value)} (h : (entries.map Prod.fst).Nodup) :
    (object entries).Assigns (entries.map Prod.fst) (entries.map Prod.snd) := by
  refine .object ?_
  rw [List.forall₂_map_left_iff, List.forall₂_map_right_iff]
  exact List.forall₂_same.2 fun e he => (Table.lookup_eq_some_iff_mem h e.1 e.2).2 he

inductive Chooses (name : String) : Value → Prop where
  | text : Chooses name (string name)
  | tag : Chooses name (object [(name, null)])

theorem components?_eq_some_iff (names : List String) (parts : List Value) (v : Value) :
    v.components? names = some parts ↔ v.Assigns names parts := by
  constructor
  · intro h
    cases v with
    | object entries => exact .object ((mapM_eq_some_iff _ _).1 h)
    | array items =>
      simp only [components?, Option.ite_none_right_eq_some, Option.some.injEq] at h
      obtain ⟨hlength, rfl⟩ := h
      exact .array hlength
    | _ => cases h
  · intro h
    cases h with
    | object h => exact (mapM_eq_some_iff _ _).2 h
    | array h => exact if_pos h

theorem choice?_eq_some_iff (name : String) (v : Value) :
    v.choice? = some name ↔ v.Chooses name := by
  constructor
  · intro h
    unfold choice? at h
    split at h
    · cases h
      exact .text
    · cases h
      exact .tag
    · cases h
  · rintro (_ | _) <;> rfl

theorem string?_eq_some_iff (v : Value) (s : String) : v.string? = some s ↔ v = string s := by
  cases v <;> simp [string?]

theorem bool?_eq_some_iff (v : Value) (b : Bool) : v.bool? = some b ↔ v = bool b := by
  cases v <;> simp [bool?]

theorem array?_eq_some_iff (v : Value) (items : List Value) :
    v.array? = some items ↔ v = array items := by
  cases v <;> simp [array?]

end Value

theorem DefectKind.ofName?_eq_some_iff (name : String) (k : DefectKind) :
    ofName? name = some k ↔ name = k.name := by
  constructor
  · intro h
    have hfound : all.find? (fun k => k.name = name) = some k := h
    have hname := List.find?_some hfound
    exact (of_decide_eq_true hname).symm
  · rintro rfl
    exact k.ofName?_name

theorem DefectKind.ofValue?_eq_some_iff (v : Value) (k : DefectKind) :
    ofValue? v = some k ↔ v.Chooses k.name := by
  rw [ofValue?, Option.bind_eq_some_iff]
  simp only [ofName?_eq_some_iff, Value.choice?_eq_some_iff, exists_eq_right]

theorem Segment.ofValue?_eq_some_iff (v : Value) (t : Segment) :
    ofValue? v = some t ↔ v = t.toValue := by
  constructor
  · intro h
    unfold ofValue? at h
    split at h
    · cases h
      rfl
    · cases h
      rfl
    · cases h
  · rintro rfl
    cases t <;> rfl

theorem Path.ofValue?_eq_some_iff (v : Value) (p : Path) : ofValue? v = some p ↔ v = toValue p := by
  have hsegments : ∀ items : List Value, items.mapM Segment.ofValue? = some p ↔
      items = p.map Segment.toValue := by
    intro items
    simp only [mapM_eq_some_iff, Segment.ofValue?_eq_some_iff]
    rw [← List.forall₂_map_right_iff, List.forall₂_eq_eq_eq]
  change (v.array?).bind _ = some p ↔ _
  simp only [Option.bind_eq_some_iff, Value.array?_eq_some_iff, hsegments, exists_eq_right, toValue]

namespace Violation

def Written (x : Violation) (v : Value) : Prop :=
  ∃ kind : Value, kind.Chooses x.kind.name ∧
    v.Assigns ["instancePath", "kind", "expected", "actual", "message"]
      [Path.toValue x.path, kind, .string x.expected, x.actual, .string x.message]

theorem ofValue?_eq_some_iff (v : Value) (x : Violation) : ofValue? v = some x ↔ x.Written v := by
  constructor
  · intro h
    obtain ⟨parts, hparts, h⟩ := Option.bind_eq_some_iff.1 h
    split at h
    · next path kind expected actual message =>
      obtain ⟨p, hp, h⟩ := Option.bind_eq_some_iff.1 h
      obtain ⟨k, hk, h⟩ := Option.bind_eq_some_iff.1 h
      obtain ⟨e, he, h⟩ := Option.bind_eq_some_iff.1 h
      obtain ⟨m, hm, h⟩ := Option.bind_eq_some_iff.1 h
      cases h
      rw [Path.ofValue?_eq_some_iff] at hp
      rw [Value.string?_eq_some_iff] at he hm
      subst hp he hm
      exact ⟨kind, (DefectKind.ofValue?_eq_some_iff _ _).1 hk,
        (Value.components?_eq_some_iff _ _ _).1 hparts⟩
    · cases h
  · rintro ⟨kind, hkind, h⟩
    have hparts := (Value.components?_eq_some_iff _ _ _).2 h
    have hpath := (Path.ofValue?_eq_some_iff _ _).2 (Eq.refl (Path.toValue x.path))
    have hkind := (DefectKind.ofValue?_eq_some_iff _ _).2 hkind
    refine Option.bind_eq_some_iff.2 ⟨_, hparts, ?_⟩
    simp only [hpath, hkind, Value.string?, Option.bind_eq_bind, Option.bind_some]

theorem written_toValue (x : Violation) : x.Written x.toValue := by
  let entries : List (String × Value) := x.fields ++ [("message", .string x.message)]
  have hfields : (entries.map Prod.fst).Nodup := by
    change ["instancePath", "kind", "expected", "actual", "message"].Nodup
    decide
  exact ⟨x.kind.toValue, .text, Value.assigns_object hfields⟩

end Violation

namespace Report

def Written (r : Report) (v : Value) : Prop :=
  ∃ items, List.Forall₂ (fun item x => x.Written item) items r.violations ∧
    v.Assigns ["valid", "violations"] [.bool r.valid, .array items]

theorem ofValue?_eq_some_iff (v : Value) (r : Report) : ofValue? v = some r ↔ r.Written v := by
  have hviolations : ∀ (items : List Value) (xs : List Violation),
      items.mapM Violation.ofValue? = some xs ↔
        List.Forall₂ (fun item x => x.Written item) items xs := by
    intro items xs
    simp only [mapM_eq_some_iff, Violation.ofValue?_eq_some_iff]
  constructor
  · intro h
    obtain ⟨parts, hparts, h⟩ := Option.bind_eq_some_iff.1 h
    split at h
    · next valid violations =>
      obtain ⟨b, hb, h⟩ := Option.bind_eq_some_iff.1 h
      obtain ⟨items, hitems, h⟩ := Option.bind_eq_some_iff.1 h
      obtain ⟨xs, hxs, h⟩ := Option.bind_eq_some_iff.1 h
      cases h
      rw [Value.bool?_eq_some_iff] at hb
      rw [Value.array?_eq_some_iff] at hitems
      subst hb hitems
      exact ⟨items, (hviolations _ _).1 hxs, (Value.components?_eq_some_iff _ _ _).1 hparts⟩
    · cases h
  · rintro ⟨items, hitems, h⟩
    have hparts := (Value.components?_eq_some_iff _ _ _).2 h
    have hitems := (hviolations _ _).2 hitems
    refine Option.bind_eq_some_iff.2 ⟨_, hparts, ?_⟩
    simp only [Value.bool?, Value.array?, hitems, Option.bind_eq_bind, Option.bind_some]

theorem written_toValue (r : Report) : r.Written r.toValue := by
  refine ⟨r.violations.map Violation.toValue, ?_, ?_⟩
  · rw [List.forall₂_map_left_iff]
    exact List.forall₂_same.2 fun x _ => x.written_toValue
  · let entries : List (String × Value) :=
      [("valid", .bool r.valid), ("violations", .array (r.violations.map Violation.toValue))]
    have hfields : (entries.map Prod.fst).Nodup := by
      change ["valid", "violations"].Nodup
      decide
    exact Value.assigns_object hfields

end Report

/-- Reading takes the written forms and no others. What has been written is read back, and to write
again what was read from it changes nothing. -/
structure Restores {α : Type} (write : α → Value) (read? : Value → Option α)
    (written : α → Value → Prop) : Prop where
  reads : ∀ v x, read? v = some x ↔ written x v
  back : ∀ x, read? (write x) = some x
  settled : ∀ v, ((read? v).map write).bind (fun u => (read? u).map write) = (read? v).map write

theorem restores_of_written {α : Type} {write : α → Value} {read? : Value → Option α}
    {written : α → Value → Prop} (reads : ∀ v x, read? v = some x ↔ written x v)
    (h : ∀ x, written x (write x)) : Restores write read? written where
  reads := reads
  back x := (reads _ _).2 (h x)
  settled v := by
    cases hv : read? v with
    | none => rfl
    | some x =>
      have hback : read? (write x) = some x := (reads _ _).2 (h x)
      rw [Option.map_some, Option.bind_some, hback, Option.map_some]

theorem Segment.toValue_inj {t u : Segment} : t.toValue = u.toValue ↔ t = u := by
  constructor
  · intro h
    have ht : ofValue? t.toValue = some t := (ofValue?_eq_some_iff _ _).2 rfl
    rw [h, (ofValue?_eq_some_iff u.toValue u).2 rfl] at ht
    exact (Option.some.inj ht).symm
  · exact congrArg toValue

/-- Violations and reports of any content survive being written and read. A key and an index are told
apart even where they look alike. A finding that is made a violation keeps what the defect has been
written with, in the same order, and its message comes after that. -/
theorem reports_survive_writing :
    Restores Violation.toValue Violation.ofValue? Violation.Written ∧
    Restores Report.toValue Report.ofValue? Report.Written ∧
    (∀ t u : Segment, t.toValue = u.toValue ↔ t = u) ∧
    ∀ f : Finding, ∃ fields : List (String × Value),
      fields.map Prod.fst = ["instancePath", "kind", "expected", "actual"] ∧
      f.toDefect.toValue = .object fields ∧
      f.violation.toValue =
        .object (fields ++ [("message", .string (f.wording.message f.toDefect))]) := by
  refine ⟨?_, ?_, fun _ _ => Segment.toValue_inj, fun f => ⟨f.fields, rfl, rfl, rfl⟩⟩
  · exact restores_of_written Violation.ofValue?_eq_some_iff Violation.written_toValue
  · exact restores_of_written Report.ofValue?_eq_some_iff Report.written_toValue

example (actual : Value) :
    Violation.ofValue? (.array [.array [.nat 0, .string "0"], .object [("type_mismatch", .null)],
      .string "null", actual, .string "no"]) =
    some ⟨⟨[.index 0, .key "0"], .typeMismatch, "null", actual⟩, "no"⟩ := by
  rfl

end Conform
