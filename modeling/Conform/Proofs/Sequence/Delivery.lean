import Conform.Sequence.Source
import Mathlib.Data.List.Basic

set_option autoImplicit false

namespace Conform

namespace Delivery

variable {α β : Type}

structure Reads (d : Delivery α) (xs : List α) : Prop where
  isPrefix : d.items <+: xs
  eq_of_ended : d.ended = true → d.items = xs

theorem reads_complete (xs : List α) : (complete xs).Reads xs := ⟨List.prefix_rfl, fun _ => rfl⟩

theorem reads_pending {items xs : List α} (h : items <+: xs) : (pending items).Reads xs :=
  ⟨h, fun h => nomatch h⟩

theorem Reads.map {d : Delivery α} {xs : List α} (h : d.Reads xs) (f : α → β) :
    (d.map f).Reads (xs.map f) :=
  ⟨h.isPrefix.map f, fun he => congrArg (List.map f) (h.eq_of_ended he)⟩

theorem Reads.append {d e : Delivery α} {xs ys : List α} (hd : d.Reads xs) (he : e.Reads ys) :
    (d.append e).Reads (xs ++ ys) := by
  unfold Delivery.append
  split
  · next h =>
    have hx := hd.eq_of_ended h
    refine ⟨?_, fun hy => ?_⟩
    · rw [hx]
      exact List.prefix_append_right_inj xs |>.2 he.isPrefix
    · change d.items ++ e.items = xs ++ ys
      rw [hx, he.eq_of_ended hy]
  · next h => exact ⟨hd.isPrefix.trans (List.prefix_append xs ys), fun he => absurd he h⟩

theorem reads_concat (f : α → Option (Delivery β)) (g : α → List β) (xs : List α)
    (h : ∀ x ∈ xs, ∀ d, f x = some d → d.Reads (g x)) :
    (concat (xs.map f)).Reads (xs.flatMap g) := by
  induction xs with
  | nil => exact reads_complete []
  | cons x xs ih =>
    have hxs := ih fun y hy => h y (List.mem_cons_of_mem x hy)
    rw [List.map_cons, List.flatMap_cons]
    cases hx : f x with
    | none => exact reads_pending (List.nil_prefix)
    | some d => exact (h x (.head xs) d hx).append hxs

theorem concat_complete (f : α → Option (Delivery β)) (g : α → List β) (xs : List α)
    (h : ∀ x ∈ xs, f x = some (complete (g x))) :
    concat (xs.map f) = complete (xs.flatMap g) := by
  induction xs with
  | nil => rfl
  | cons x xs ih =>
    rw [List.map_cons, List.flatMap_cons, h x (.head xs), concat,
      ih fun y hy => h y (List.mem_cons_of_mem x hy)]
    rfl

theorem Reads.eq_of_isEmpty? {d : Delivery α} {xs : List α} (h : d.Reads xs) {b : Bool}
    (hb : d.isEmpty? = some b) : b = xs.isEmpty := by
  unfold isEmpty? at hb
  cases hi : d.items with
  | cons x rest =>
    obtain ⟨more, e⟩ := h.isPrefix
    rw [hi] at e
    simp only [hi, List.isEmpty_cons, Bool.not_false, if_true, Option.some.injEq] at hb
    rw [← hb, ← e]
    rfl
  | nil =>
    simp only [hi, List.isEmpty_nil, Bool.not_true] at hb
    by_cases he : d.ended = true
    · simp only [he, if_true, Bool.false_eq_true, if_false, Option.some.injEq] at hb
      rw [← hb, ← h.eq_of_ended he, hi]
      rfl
    · simp [he] at hb

@[simp]
theorem isEmpty?_complete (xs : List α) : (complete xs).isEmpty? = some xs.isEmpty := by
  cases xs <;> rfl

end Delivery

namespace Source

variable {α : Type}

/-- The source yields these elements and ends. -/
def Yields (s : Source α) (xs : List α) : Prop := ∀ n, s.get? n = xs[n]?

theorem ofList_yields (xs : List α) : (ofList xs).Yields xs := fun _ => rfl

theorem get?_eq_none_of_le (s : Source α) {m n : Nat} (h : m ≤ n) (hm : s.get? m = none) :
    s.get? n = none := by
  obtain ⟨k, rfl⟩ := Nat.exists_eq_add_of_le h
  clear h
  induction k with
  | zero => exact hm
  | succ k ih => exact s.closed (m + k) ih

def tail (s : Source α) : Source α := ⟨fun n => s.get? (n + 1), fun n => s.closed (n + 1)⟩

theorem exists_yields (s : Source α) (n : Nat) (h : s.get? n = none) : ∃ xs, s.Yields xs := by
  induction n generalizing s with
  | zero => exact ⟨[], fun m => s.get?_eq_none_of_le (Nat.zero_le m) h⟩
  | succ n ih =>
    cases h0 : s.get? 0 with
    | none => exact ⟨[], fun m => s.get?_eq_none_of_le (Nat.zero_le m) h0⟩
    | some x =>
      obtain ⟨xs, hxs⟩ := ih s.tail h
      refine ⟨x :: xs, fun m => ?_⟩
      cases m with
      | zero => exact h0
      | succ m => exact hxs m

theorem Yields.items_draw {s : Source α} {xs : List α} (h : s.Yields xs) (n : Nat) :
    (s.draw n).items = xs.take n := by
  have hget : s.get? = fun i => xs[i]? := funext h
  change (List.range n).filterMap s.get? = xs.take n
  rw [hget]
  induction n with
  | zero => rfl
  | succ n ih =>
    rw [List.range_succ, List.filterMap_append, ih, List.take_add_one]
    cases hx : xs[n]? <;> simp [hx]

theorem Yields.ended_draw {s : Source α} {xs : List α} (h : s.Yields xs) (n : Nat) :
    (s.draw n).ended = true ↔ xs.length < n := by
  have hget : ∀ i, (s.get? i).isNone = true ↔ xs.length ≤ i := by
    intro i
    rw [h i, Option.isNone_iff_eq_none, List.getElem?_eq_none_iff]
  change ((List.range n).any fun i => (s.get? i).isNone) = true ↔ _
  simp only [List.any_eq_true, List.mem_range, hget]
  constructor
  · rintro ⟨i, hi, hx⟩
    omega
  · intro hx
    exact ⟨xs.length, hx, Nat.le_refl _⟩

theorem Yields.draw_eq_complete {s : Source α} {xs : List α} (h : s.Yields xs) {n : Nat}
    (hn : xs.length < n) : s.draw n = .complete xs := by
  have hi := h.items_draw n
  have he := (h.ended_draw n).2 hn
  rw [List.take_of_length_le (by omega)] at hi
  generalize s.draw n = d at hi he
  obtain ⟨items, ended⟩ := d
  subst hi he
  rfl

end Source
end Conform
