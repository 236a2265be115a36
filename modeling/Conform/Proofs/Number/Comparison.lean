import Conform.Proofs.Number.Rounding
import Conform.Proofs.Value.Equality

set_option autoImplicit false

namespace Conform.Number

/-- An integer of a document has 64 bits, with or without a sign. -/
def Fits : Number → Prop
  | int n => -2 ^ 63 ≤ n ∧ n < 2 ^ 64
  | float _ => True

instance (a : Number) : Decidable a.Fits :=
  match a with
  | int _ => inferInstanceAs (Decidable (_ ∧ _))
  | float _ => inferInstanceAs (Decidable True)

def Exact (a : Number) : Prop := ∃ x : Binary64, x.units = a.units

/-- The first is an integer that binary64 does not have, the second the nearest that it has. -/
def RoundsTo : Number → Number → Prop
  | int n, float x => x.Nearest n ∧ ¬ (int n).Exact
  | _, _ => False

theorem exact_int {n : Int} (h : n.natAbs ≤ 2 ^ 53) : (int n).Exact := Binary64.exists_units_eq h

theorem agrees_int_int {m n : Int} : (int m).agrees (int n) = true ↔ m = n := beq_iff_eq

theorem agrees_float_float {x y : Binary64} :
    (float x).agrees (float y) = true ↔ x.units = y.units := beq_iff_eq

theorem agrees_int_float {n : Int} {x : Binary64} :
    (int n).agrees (float x) = true ↔ x.units = Binary64.nearestInt n * Binary64.one := beq_iff_eq

theorem agrees_of_equal {a b : Number} (h : a.equal b = true) : a.agrees b = true := by
  cases a with
  | int m =>
    cases b with
    | int n => exact h
    | float y => cases h
  | float x =>
    cases b with
    | int n => cases h
    | float y => exact h

theorem agrees_comm (a b : Number) : a.agrees b = b.agrees a := by
  cases a with
  | int m =>
    cases b with
    | int n => exact Bool.beq_comm
    | float y => rfl
  | float x =>
    cases b with
    | int n => rfl
    | float y => exact Bool.beq_comm

theorem units_int_inj {m n : Int} : (int m).units = (int n).units ↔ m = n :=
  Int.mul_eq_mul_right_iff (Int.natCast_ne_zero.2 (Nat.ne_of_gt Binary64.one_pos))

theorem agrees_int_float_of_exact {n : Int} {x : Binary64} (h : (int n).Exact) :
    (int n).agrees (float x) = true ↔ (int n).units = (float x).units := by
  obtain ⟨y, hy⟩ := h
  rw [agrees_int_float, Binary64.nearestInt_eq_self hy]
  exact eq_comm

theorem agrees_int_float_iff {n : Int} {x : Binary64} (hn : (int n).Fits) :
    (int n).agrees (float x) = true ↔
      (int n).units = (float x).units ∨ (int n).RoundsTo (float x) := by
  have hbits : n.natAbs < 2 ^ 64 := by
    unfold Fits at hn
    omega
  have hnearest : (int n).agrees (float x) = true ↔ x.Nearest n :=
    Binary64.equalInt_iff_nearest hbits
  by_cases h : (int n).Exact
  · rw [agrees_int_float_of_exact h]
    exact (or_iff_left fun hr => hr.2 h).symm
  · have hne : (int n).units ≠ (float x).units := fun e => h ⟨x, e.symm⟩
    rw [hnearest]
    exact ⟨fun hx => .inr ⟨hx, h⟩, fun hx => (hx.resolve_left hne).1⟩

theorem agrees_iff {a b : Number} (ha : a.Fits) (hb : b.Fits) :
    a.agrees b = true ↔ a.units = b.units ∨ a.RoundsTo b ∨ b.RoundsTo a := by
  cases a with
  | int m =>
    cases b with
    | int n => simp [agrees_int_int, units_int_inj, RoundsTo]
    | float y => simp [agrees_int_float_iff ha, RoundsTo]
  | float x =>
    cases b with
    | int n =>
      rw [agrees_comm, agrees_int_float_iff hb, eq_comm]
      simp [RoundsTo]
    | float y => simp [agrees_float_float, RoundsTo, units]

theorem not_roundsTo_int (a : Number) (n : Int) : ¬ a.RoundsTo (int n) := by cases a <;> exact id

theorem RoundsTo.not_exact {a b : Number} (h : a.RoundsTo b) : ¬ a.Exact := by
  cases a with
  | int n =>
    cases b with
    | int m => exact absurd h (not_roundsTo_int _ m)
    | float x => exact h.2
  | float x => cases h

theorem RoundsTo.units_ne {a b : Number} (h : a.RoundsTo b) : a.units ≠ b.units := by
  intro heq
  cases b with
  | int m => exact not_roundsTo_int a m h
  | float x => exact h.not_exact ⟨x, heq.symm⟩

theorem agrees_iff_units_eq_iff {a b : Number} (ha : a.Fits) (hb : b.Fits) :
    (a.agrees b = true ↔ a.units = b.units) ↔ ¬ a.RoundsTo b ∧ ¬ b.RoundsTo a := by
  rw [agrees_iff ha hb]
  constructor
  · intro h
    exact ⟨fun hab => hab.units_ne (h.1 (.inr (.inl hab))),
      fun hba => hba.units_ne (h.1 (.inr (.inr hba))).symm⟩
  · rintro ⟨hab, hba⟩
    exact or_iff_left (not_or.2 ⟨hab, hba⟩)

theorem agrees_iff_of_natAbs_le {a b : Number} (ha : a.Fits) (hb : b.Fits) {n : Int}
    (hn : n.natAbs ≤ 2 ^ 53) (h : a = int n ∨ b = int n) :
    a.agrees b = true ↔ a.units = b.units := by
  refine (agrees_iff_units_eq_iff ha hb).2 ?_
  rcases h with rfl | rfl
  · exact ⟨fun hab => hab.not_exact (exact_int hn), not_roundsTo_int b n⟩
  · exact ⟨not_roundsTo_int a n, fun hba => hba.not_exact (exact_int hn)⟩

/-- Two numbers that agree with the same number agree with each other, unless that is a float and
they are different integers. -/
theorem agrees_trans {a b c : Number} (hab : a.agrees b = true) (hbc : b.agrees c = true) :
    a.agrees c = false ↔ ∃ i j x, a = int i ∧ b = float x ∧ c = int j ∧ i ≠ j := by
  constructor
  · intro hac
    have hne : ¬ a.agrees c = true := Bool.eq_false_iff.1 hac
    cases b with
    | int n =>
      -- Every float that agrees with an integer is the same number, the one it is rounded to.
      refine absurd ?_ hne
      cases a with
      | int m => rwa [agrees_int_int.1 hab]
      | float x =>
        cases c with
        | int k => rwa [← agrees_int_int.1 hbc]
        | float z =>
          rw [agrees_comm, agrees_int_float] at hab
          rw [agrees_int_float] at hbc
          rw [agrees_float_float, hab, hbc]
    | float y =>
      cases a with
      | float x =>
        have hxy : (float x).equal (float y) = true := hab
        exact absurd (by rwa [agrees_congr hxy]) hne
      | int m =>
        cases c with
        | float z =>
          have hyz : (float y).equal (float z) = true := hbc
          exact absurd (by rwa [agrees_comm, ← agrees_congr hyz, agrees_comm]) hne
        | int k => exact ⟨m, k, y, rfl, rfl, rfl, mt agrees_int_int.2 hne⟩
  · rintro ⟨i, j, x, rfl, -, rfl, hij⟩
    exact Bool.eq_false_iff.2 (mt agrees_int_int.1 hij)

end Conform.Number
