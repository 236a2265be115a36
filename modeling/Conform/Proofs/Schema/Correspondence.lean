import Conform.Proofs.Schema.Attribution
import Mathlib.Data.List.Forall2
import Mathlib.Data.Option.Basic

set_option autoImplicit false

namespace Conform

/-- Two documents of one outline, where `R` relates the members at each path of one segment. -/
inductive Value.Corresponds (R : Path → Value → Value → Prop) : Value → Value → Prop where
  | same (v : Value) : Corresponds R v v
  | number (m n : Number) : Corresponds R (number m) (number n)
  | array {xs ys : List Value} (h : ∀ i : Nat, Option.Rel (R [.index i]) xs[i]? ys[i]?) :
      Corresponds R (array xs) (array ys)
  | object {xs ys : List (String × Value)}
      (h : List.Forall₂ (fun x y => x.1 = y.1 ∧ R [.key x.1] x.2 y.2) xs ys) :
      Corresponds R (object xs) (object ys)

inductive Site.Corresponds (R : Path → Value → Value → Prop) : Site → Site → Prop where
  | same (c : Site) : Corresponds R c c
  | related (t : Schema) {p : Path} (a : Wording) {x y : Value} (h : R p x y) :
      Corresponds R ⟨t, p, some x, a⟩ ⟨t, p, some y, a⟩

section Lists

variable {α β : Type}

theorem forall₂_flatMap {γ : Type} {P : β → γ → Prop} {R : α → α → Prop} {xs ys : List α}
    {f : α → List β} {g : α → List γ} (h : List.Forall₂ R xs ys)
    (hfg : ∀ x ∈ xs, ∀ y, R x y → List.Forall₂ P (f x) (g y)) :
    List.Forall₂ P (xs.flatMap f) (ys.flatMap g) := by
  induction h with
  | nil => exact .nil
  | @cons x y xs ys hxy _ ih =>
    have htail := ih fun z hz => hfg z (List.mem_cons_of_mem x hz)
    rw [List.flatMap_cons, List.flatMap_cons]
    exact List.rel_append (hfg x (.head xs) y hxy) htail

theorem flatMap_eq_of_forall₂ {R : α → α → Prop} {xs ys : List α} {f g : α → List β}
    (h : List.Forall₂ R xs ys) (hfg : ∀ x ∈ xs, ∀ y, R x y → f x = g y) :
    xs.flatMap f = ys.flatMap g := by
  have heq : List.Forall₂ (· = ·) (xs.flatMap f) (ys.flatMap g) :=
    forall₂_flatMap h fun x hx y hxy => by
      rw [List.forall₂_eq_eq_eq]
      exact hfg x hx y hxy
  rwa [List.forall₂_eq_eq_eq] at heq

theorem map_eq_of_forall₂ {R : α → α → Prop} {xs ys : List α} {f : α → β}
    (h : List.Forall₂ R xs ys) (hf : ∀ x y, R x y → f x = f y) : xs.map f = ys.map f := by
  induction h with
  | nil => rfl
  | cons hxy _ ih => rw [List.map_cons, List.map_cons, hf _ _ hxy, ih]

theorem isEmpty_eq_of_forall₂ {R : α → α → Prop} {xs ys : List α} (h : List.Forall₂ R xs ys) :
    xs.isEmpty = ys.isEmpty := by
  cases h <;> rfl

theorem forall₂_zipIdx {R : Nat → α → α → Prop} {xs ys : List α}
    (h : ∀ i, Option.Rel (R i) xs[i]? ys[i]?) :
    List.Forall₂ (fun x y => x.2 = y.2 ∧ R x.2 x.1 y.1) xs.zipIdx ys.zipIdx := by
  have hlen : ∀ i, xs.length ≤ i ↔ ys.length ≤ i := by
    intro i
    have hi := h i
    rw [← List.getElem?_eq_none_iff, ← List.getElem?_eq_none_iff]
    generalize xs[i]? = x?, ys[i]? = y? at hi
    cases hi <;> simp
  have hlength : xs.length = ys.length :=
    Nat.le_antisymm ((hlen _).2 (Nat.le_refl _)) ((hlen _).1 (Nat.le_refl _))
  refine List.forall₂_iff_get.2 ⟨by simp [hlength], fun i hx hy => ?_⟩
  have hi := h i
  rw [List.length_zipIdx] at hx hy
  rw [List.getElem?_eq_getElem hx, List.getElem?_eq_getElem hy] at hi
  cases hi with
  | some hi => simpa using hi

theorem rel_lookup {R : String → α → α → Prop} {xs ys : List (String × α)}
    (h : List.Forall₂ (fun x y => x.1 = y.1 ∧ R x.1 x.2 y.2) xs ys) (name : String) :
    Option.Rel (R name) (xs.lookup name) (ys.lookup name) := by
  induction h with
  | nil => exact .none
  | @cons x y xs ys hxy _ ih =>
    obtain ⟨m, a⟩ := x
    obtain ⟨n, b⟩ := y
    obtain ⟨hmn, hab⟩ := hxy
    cases hmn
    rw [Table.lookup_cons_eq_ite, Table.lookup_cons_eq_ite]
    by_cases hname : name = m
    · rw [if_pos hname, if_pos hname, hname]
      exact .some hab
    · rw [if_neg hname, if_neg hname]
      exact ih

end Lists

namespace Schema

variable {R : Path → Value → Value → Prop} {v w : Value}

theorem forall₂_children_same (R : Path → Value → Value → Prop) (cs : List Site) :
    List.Forall₂ (Site.Corresponds R) cs cs :=
  List.forall₂_same.2 fun c _ => .same c

theorem children_corresponds (s : Schema) (h : v.Corresponds R w)
    (hwhole : s.isIntersection = true → R [] v w) :
    List.Forall₂ (Site.Corresponds R) (s.children v) (s.children w) := by
  cases s with
  | category | literal | anyArray | size | anyOf => exact .nil
  | both l r a => exact .cons (.related l a (hwhole rfl)) (.cons (.related r a (hwhole rfl)) .nil)
  | arrayOf e a | each e a =>
    cases h with
    | same => exact forall₂_children_same R _
    | number | object => exact .nil
    | array h =>
      simp only [children]
      rw [List.forall₂_map_left_iff, List.forall₂_map_right_iff]
      refine (forall₂_zipIdx (R := fun i => R [.index i]) h).imp ?_
      rintro ⟨x, i⟩ ⟨y, j⟩ ⟨hij, hxy⟩
      cases hij
      exact .related e .standard hxy
  | tuple ps a =>
    cases h with
    | same => exact forall₂_children_same R _
    | number | object => exact .nil
    | @array xs ys h =>
      simp only [children]
      rw [List.forall₂_map_left_iff, List.forall₂_map_right_iff]
      refine List.forall₂_same.2 fun p _ => ?_
      have hp := h p.2
      generalize xs[p.2]? = x?, ys[p.2]? = y? at hp
      cases hp with
      | none => exact .same _
      | some hxy => exact .related p.1 .standard hxy
  | record k e a =>
    cases h with
    | same => exact forall₂_children_same R _
    | number | array => exact .nil
    | object h =>
      refine forall₂_flatMap h fun x _ y hxy => ?_
      obtain ⟨m, x⟩ := x
      obtain ⟨n, y⟩ := y
      obtain ⟨hmn, hxy⟩ := hxy
      cases hmn
      exact .cons (.same _) (.cons (.related e .standard hxy) .nil)
  | fields ds a =>
    cases h with
    | same => exact forall₂_children_same R _
    | number | array => exact .nil
    | @object xs ys h =>
      simp only [children]
      rw [List.filterMap_eq_flatMap_toList, List.filterMap_eq_flatMap_toList]
      refine forall₂_flatMap (R := Eq) (List.forall₂_same.2 fun _ _ => rfl) fun d _ d' hd => ?_
      subst hd
      have hname := rel_lookup (R := fun name => R [.key name]) h d.1
      generalize xs.lookup d.1 = x?, ys.lookup d.1 = y? at hname
      cases hname with
      | none => exact .nil
      | some hxy => exact .cons (.related d.2 .standard hxy) .nil

end Schema
end Conform
