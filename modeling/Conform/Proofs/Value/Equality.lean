import Conform.Proofs.Table
import Conform.Value.Equality
import Mathlib.Data.List.Forall2
import Mathlib.Data.List.Nodup
import Mathlib.Data.List.Perm.Subperm

set_option autoImplicit false

namespace Conform

namespace Table

variable {α : Type}

theorem mem_of_lookup {es : List (String × α)} {name : String} {a : α}
    (h : es.lookup name = some a) : (name, a) ∈ es := by
  obtain ⟨before, after, rfl, _⟩ := List.lookup_eq_some_iff.1 h
  simp

theorem lookup_eq_some_iff_mem {es : List (String × α)} (h : (es.map Prod.fst).Nodup)
    (name : String) (a : α) : es.lookup name = some a ↔ (name, a) ∈ es := by
  refine ⟨mem_of_lookup, fun hmem => ?_⟩
  induction es with
  | nil => cases hmem
  | cons e rest ih =>
    obtain ⟨m, b⟩ := e
    obtain ⟨hm, hrest⟩ := List.nodup_cons.1 h
    rw [lookup_cons_eq_ite]
    rcases List.mem_cons.1 hmem with heq | hmem
    · cases heq
      exact if_pos rfl
    · have hne : name ≠ m := fun e =>
        hm (List.mem_map.2 ⟨(name, a), hmem, e⟩)
      rw [if_neg hne]
      exact ih hrest hmem

theorem lookup_eq_of_perm {es fs : List (String × α)} (h : es.Perm fs)
    (hn : (es.map Prod.fst).Nodup) (name : String) : es.lookup name = fs.lookup name := by
  have hn' : (fs.map Prod.fst).Nodup := (h.map Prod.fst).nodup_iff.1 hn
  refine Option.ext fun a => ?_
  rw [lookup_eq_some_iff_mem hn, lookup_eq_some_iff_mem hn']
  exact h.mem_iff

end Table

namespace Number

theorem equal_refl (n : Number) : n.equal n = true := by
  cases n <;> simp [equal, Binary64.equal]

theorem equal_symm {m n : Number} (h : m.equal n = true) : n.equal m = true := by
  cases m <;> cases n <;> simp_all [equal, Binary64.equal]

theorem equal_trans {l m n : Number} (h : l.equal m = true) (h' : m.equal n = true) :
    l.equal n = true := by
  cases l <;> cases m <;> cases n <;> simp_all [equal, Binary64.equal]

theorem agrees_congr {m n : Number} (h : m.equal n = true) (l : Number) :
    m.agrees l = n.agrees l := by
  cases m with
  | int i =>
    cases n with
    | int j => rw [show i = j from beq_iff_eq.1 h]
    | float y => cases h
  | float x =>
    cases n with
    | int j => cases h
    | float y =>
      -- Both comparisons, with an integer and with a float, are of the units alone.
      have hunits : x.units = y.units := beq_iff_eq.1 h
      cases l with
      | int k =>
        change (x.units == Binary64.nearestInt k * _) = (y.units == Binary64.nearestInt k * _)
        rw [hunits]
      | float z =>
        change (x.units == z.units) = (y.units == z.units)
        rw [hunits]

end Number

namespace Value

section Lists

variable {α : Type} {R : α → α → Prop} {xs ys zs : List α}

theorem forall₂_trans (h : List.Forall₂ R xs ys) (h' : List.Forall₂ R ys zs)
    (ht : ∀ x ∈ xs, ∀ y z, R x y → R y z → R x z) : List.Forall₂ R xs zs := by
  induction h generalizing zs with
  | nil => exact h'
  | @cons x y xs ys hxy _ ih =>
    cases h' with
    | cons hyz h' =>
      have htail := ih h' fun u hu => ht u (List.mem_cons_of_mem x hu)
      exact .cons (ht x (.head xs) _ _ hxy hyz) htail

theorem forall₂_symm (h : List.Forall₂ R xs ys) (hs : ∀ x ∈ xs, ∀ y, R x y → R y x) :
    List.Forall₂ R ys xs := by
  induction h with
  | nil => exact .nil
  | @cons x y xs ys hxy _ ih =>
    have htail := ih fun u hu => hs u (List.mem_cons_of_mem x hu)
    exact .cons (hs x (.head xs) y hxy) htail

end Lists

@[elab_as_elim]
theorem ind {motive : Value → Prop}
    (null : motive .null) (bool : ∀ b, motive (.bool b)) (number : ∀ n, motive (.number n))
    (string : ∀ s, motive (.string s))
    (array : ∀ items, (∀ x ∈ items, motive x) → motive (.array items))
    (object : ∀ entries, (∀ e ∈ entries, motive e.2) → motive (.object entries)) (v : Value) :
    motive v :=
  @Value.rec motive (fun xs => ∀ x ∈ xs, motive x) (fun es => ∀ e ∈ es, motive e.2)
    (fun e => motive e.2) null bool number string array object
    (fun _ h => nomatch h) (fun _ _ hx hxs => List.forall_mem_cons.2 ⟨hx, hxs⟩)
    (fun _ h => nomatch h) (fun _ _ he hes => List.forall_mem_cons.2 ⟨he, hes⟩)
    (fun _ _ h => h) v

/-- No object within the document repeats a name. -/
inductive Distinct : Value → Prop where
  | null : Distinct .null
  | bool (b : Bool) : Distinct (.bool b)
  | number (n : Number) : Distinct (.number n)
  | string (s : String) : Distinct (.string s)
  | array {items : List Value} (h : ∀ x ∈ items, Distinct x) : Distinct (.array items)
  | object {entries : List (String × Value)} (names : (entries.map Prod.fst).Nodup)
      (h : ∀ e ∈ entries, Distinct e.2) : Distinct (.object entries)

theorem equal_array_iff (xs ys : List Value) :
    (array xs).equal (array ys) = true ↔ List.Forall₂ (fun x y => x.equal y = true) xs ys := by
  rw [equal]
  induction xs generalizing ys with
  | nil => cases ys <;> simp [equalItems]
  | cons x xs ih => cases ys <;> simp [equalItems, ih]

theorem equal_object_iff (xs ys : List (String × Value)) :
    (object xs).equal (object ys) = true ↔
      xs.length = ys.length ∧
        ∀ e ∈ xs, ∃ y, ys.lookup e.1 = some y ∧ e.2.equal y = true := by
  have hentries : equalEntries xs ys = true ↔
      ∀ e ∈ xs, ∃ y, ys.lookup e.1 = some y ∧ e.2.equal y = true := by
    induction xs with
    | nil => simp [equalEntries]
    | cons e xs ih =>
      obtain ⟨name, x⟩ := e
      rw [equalEntries, Bool.and_eq_true, ih, List.forall_mem_cons]
      refine and_congr_left fun _ => ?_
      cases ys.lookup name <;> simp
  rw [equal, Bool.and_eq_true, beq_iff_eq, hentries]

theorem equal_refl {v : Value} (h : v.Distinct) : v.equal v = true := by
  induction v using ind with
  | null => rfl
  | bool b => simp [equal]
  | number n => exact n.equal_refl
  | string s => simp [equal]
  | array items ih =>
    cases h with
    | array h =>
      rw [equal_array_iff, List.forall₂_same]
      exact fun x hx => ih x hx (h x hx)
  | object entries ih =>
    cases h with
    | object names h =>
      rw [equal_object_iff]
      refine ⟨rfl, fun e he => ⟨e.2, ?_, ih e he (h e he)⟩⟩
      exact (Table.lookup_eq_some_iff_mem names e.1 e.2).2 he

def inOrderOf (xs ys : List (String × Value)) : List (String × Value) :=
  xs.map fun x => (x.1, (ys.lookup x.1).getD x.2)

theorem lookup_eq_inOrderOf {xs ys : List (String × Value)}
    (h : (object xs).equal (object ys) = true) {x : String × Value} (hx : x ∈ xs) :
    ys.lookup x.1 = some ((ys.lookup x.1).getD x.2) ∧
      x.2.equal ((ys.lookup x.1).getD x.2) = true := by
  obtain ⟨y, hy, hxy⟩ := ((equal_object_iff xs ys).1 h).2 x hx
  rw [hy]
  exact ⟨rfl, hxy⟩

theorem forall₂_inOrderOf {xs ys : List (String × Value)}
    (h : (object xs).equal (object ys) = true) :
    List.Forall₂ (fun x y => x.1 = y.1 ∧ x.2.equal y.2 = true) xs (inOrderOf xs ys) := by
  rw [inOrderOf, List.forall₂_map_right_iff, List.forall₂_same]
  exact fun x hx => ⟨rfl, (lookup_eq_inOrderOf h hx).2⟩

theorem inOrderOf_perm {xs ys : List (String × Value)} (hn : (xs.map Prod.fst).Nodup)
    (h : (object xs).equal (object ys) = true) : (inOrderOf xs ys).Perm ys := by
  have hnames : (inOrderOf xs ys).map Prod.fst = xs.map Prod.fst := List.map_map
  have hnodup : (inOrderOf xs ys).Nodup := .of_map Prod.fst (hnames ▸ hn)
  have hsubset : inOrderOf xs ys ⊆ ys := by
    intro z hz
    obtain ⟨x, hx, rfl⟩ := List.mem_map.1 hz
    exact Table.mem_of_lookup (lookup_eq_inOrderOf h hx).1
  have hlength : ys.length ≤ (inOrderOf xs ys).length := by
    have hlen := ((equal_object_iff xs ys).1 h).1
    rw [inOrderOf, List.length_map]
    exact Nat.le_of_eq hlen.symm
  exact (List.subperm_of_subset hnodup hsubset).perm_of_length_le hlength

theorem equal_trans {u v w : Value} (h : u.equal v = true) (h' : v.equal w = true) :
    u.equal w = true := by
  induction u using ind generalizing v w with
  | null | bool | string => cases v <;> cases w <;> simp_all [equal]
  | number n =>
    cases v with
    | number => cases w with
      | number => exact Number.equal_trans h h'
      | _ => simp [equal] at h'
    | _ => simp [equal] at h
  | array xs ih =>
    cases v with
    | array ys => cases w with
      | array zs =>
        rw [equal_array_iff] at h h' ⊢
        exact forall₂_trans h h' fun x hx y z hxy hyz => ih x hx hxy hyz
      | _ => simp [equal] at h'
    | _ => simp [equal] at h
  | object xs ih =>
    cases v with
    | object ys => cases w with
      | object zs =>
        rw [equal_object_iff] at h h' ⊢
        refine ⟨h.1.trans h'.1, fun x hx => ?_⟩
        obtain ⟨y, hy, hxy⟩ := h.2 x hx
        obtain ⟨z, hz, hyz⟩ := h'.2 (x.1, y) (Table.mem_of_lookup hy)
        exact ⟨z, hz, ih x hx hxy hyz⟩
      | _ => simp [equal] at h'
    | _ => simp [equal] at h

theorem equal_symm {v w : Value} (hv : v.Distinct) (h : v.equal w = true) : w.equal v = true := by
  induction v using ind generalizing w with
  | null | bool | string => cases w <;> simp_all [equal]
  | number n =>
    cases w with
    | number => exact Number.equal_symm h
    | _ => simp [equal] at h
  | array xs ih =>
    cases w with
    | array ys =>
      cases hv with
      | array hv =>
        rw [equal_array_iff] at h ⊢
        exact forall₂_symm h fun x hx y hxy => ih x hx (hv x hx) hxy
    | _ => simp [equal] at h
  | object xs ih =>
    cases w with
    | object ys =>
      cases hv with
      | object names hv =>
        have hperm := inOrderOf_perm names h
        have hlen := ((equal_object_iff xs ys).1 h).1
        rw [equal_object_iff]
        refine ⟨hlen.symm, fun y hy => ?_⟩
        obtain ⟨x, hx, rfl⟩ := List.mem_map.1 (hperm.mem_iff.2 hy)
        have hxy := (lookup_eq_inOrderOf h hx).2
        exact ⟨x.2, (Table.lookup_eq_some_iff_mem names x.1 x.2).2 hx, ih x hx (hv x hx) hxy⟩
    | _ => simp [equal] at h

theorem category_eq_of_equal {v w : Value} (h : v.equal w = true) : v.category = w.category := by
  cases v <;> cases w <;> simp_all [equal, category]

theorem agrees_congr {v w : Value} (hv : v.Distinct) (h : v.equal w = true) (l : Value) :
    v.agrees l = w.agrees l := by
  have hequal : v.equal l = w.equal l := by
    rw [Bool.eq_iff_iff]
    exact ⟨equal_trans (equal_symm hv h), equal_trans h⟩
  cases v with
  | number m =>
    cases w with
    | number n =>
      cases l with
      | number k => exact Number.agrees_congr h k
      | _ => exact hequal
    | _ => simp [equal] at h
  | _ =>
    cases w with
    | number n => simp [equal] at h
    | _ => exact hequal

end Value
end Conform
