import Conform.Number.Binary64
import Mathlib.Data.Nat.Dist

set_option autoImplicit false

namespace Conform.Binary64

theorem roundHalfEven_cases (a d : Nat) :
    roundHalfEven a d = a / d ∧ 2 * (a % d) ≤ d ∨
      roundHalfEven a d = a / d + 1 ∧ d ≤ 2 * (a % d) := by
  simp only [roundHalfEven]
  split
  · exact .inl ⟨rfl, by omega⟩
  · split
    · exact .inr ⟨rfl, by omega⟩
    · omega

theorem even_roundHalfEven {a d : Nat} (h : 2 * (a % d) = d) : roundHalfEven a d % 2 = 0 := by
  simp only [roundHalfEven, h, Nat.lt_irrefl, if_false]
  omega

/-- No other multiple of `d` is nearer, and one is as near only if `a` is halfway between. -/
theorem dist_roundHalfEven {a d k : Nat} (hd : 0 < d) (hk : k ≠ roundHalfEven a d) :
    Nat.dist (roundHalfEven a d * d) a < Nat.dist (k * d) a ∨
      Nat.dist (roundHalfEven a d * d) a = Nat.dist (k * d) a ∧ roundHalfEven a d % 2 = 0 := by
  have ha := Nat.div_add_mod' a d
  have hr := Nat.mod_lt a hd
  have heven := @even_roundHalfEven a d
  have hmul : k * d + d ≤ roundHalfEven a d * d ∨ roundHalfEven a d * d + d ≤ k * d := by
    rw [← Nat.succ_mul, ← Nat.succ_mul]
    exact (Nat.lt_or_gt_of_ne hk).imp (Nat.mul_le_mul_right d) (Nat.mul_le_mul_right d)
  unfold Nat.dist
  rcases roundHalfEven_cases a d with ⟨h, hle⟩ | ⟨h, hle⟩
  · rw [h] at hmul heven ⊢
    omega
  · rw [h, Nat.succ_mul] at hmul
    rw [h] at heven ⊢
    rw [Nat.succ_mul]
    omega

def excess (a : Nat) : Nat := a.log2 - 52

def rounded (a : Nat) : Nat := roundHalfEven a (2 ^ excess a) * 2 ^ excess a

theorem nearestInt_natCast (a : Nat) : nearestInt a = rounded a := by
  have h : significand a 1 = (roundHalfEven a (2 ^ excess a), excess a) := by
    simp [significand, excess]
  cases a with
  | zero => decide
  | succ a =>
    simp only [nearestInt, Int.natAbs_natCast, h]
    rw [Int.sign_natCast_of_ne_zero (Nat.succ_ne_zero a), one_mul]
    rfl

theorem nearestInt_neg (n : Int) : nearestInt (-n) = -nearestInt n := by
  simp only [nearestInt, Int.natAbs_neg, Int.sign_neg, Int.neg_mul]

theorem lt_two_pow_excess (a : Nat) : a < 2 ^ (53 + excess a) := by
  refine Nat.lt_of_lt_of_le (Nat.lt_log2_self) (Nat.pow_le_pow_right (by decide) ?_)
  unfold excess
  omega

theorem two_pow_excess_le {a : Nat} (h : 0 < excess a) : 2 ^ (52 + excess a) ≤ a := by
  have hlog : 52 + excess a = a.log2 := by
    unfold excess at h ⊢
    omega
  have ha : a ≠ 0 := by
    rintro rfl
    exact absurd h (by decide)
  rw [hlog]
  exact Nat.log2_self_le ha

theorem rounded_eq_self {a : Nat} (h : excess a = 0) : rounded a = a := by
  rw [rounded, h]
  simp [roundHalfEven, Nat.mod_one]

theorem magnitude_eq (x : Binary64) : x.magnitude = x.mantissa * 2 ^ x.exponent := rfl

theorem one_eq_two_pow : ∃ u ≤ 1074, one = 2 ^ u := by
  unfold one
  generalize 1074 = u
  exact ⟨u, Nat.le_refl u, rfl⟩

theorem one_pos : 0 < one := by
  obtain ⟨u, _, h⟩ := one_eq_two_pow
  rw [h]
  exact Nat.two_pow_pos u

/-- Every number lies on a grid as wide as its own, and every other one is below that grid. -/
theorem magnitude_multiple_or_lt (x : Binary64) (k : Nat) :
    (∃ j, x.magnitude = j * 2 ^ k) ∨ x.magnitude < 2 ^ (52 + k) := by
  rw [magnitude_eq]
  rcases Nat.lt_or_ge x.exponent k with h | h
  · have hmantissa : x.mantissa * 2 ^ x.exponent < 2 ^ 53 * 2 ^ x.exponent :=
      Nat.mul_lt_mul_of_pos_right x.mantissa_lt (Nat.two_pow_pos _)
    have hpow : 2 ^ 53 * 2 ^ x.exponent ≤ 2 ^ (52 + k) := by
      rw [← Nat.pow_add]
      exact Nat.pow_le_pow_right (by decide) (by omega)
    exact .inr (Nat.lt_of_lt_of_le hmantissa hpow)
  · refine .inl ⟨x.mantissa * 2 ^ (x.exponent - k), ?_⟩
    rw [Nat.mul_assoc, ← Nat.pow_add, Nat.sub_add_cancel h]

theorem dist_rounded {a : Nat} {y : Binary64} (hy : y.magnitude ≠ rounded a * one) :
    Nat.dist (rounded a * one) (a * one) < Nat.dist y.magnitude (a * one) ∨
      Nat.dist (rounded a * one) (a * one) = Nat.dist y.magnitude (a * one) ∧
        roundHalfEven a (2 ^ excess a) % 2 = 0 := by
  rcases Nat.eq_zero_or_pos (excess a) with hp | hp
  · rw [rounded_eq_self hp] at hy ⊢
    rw [Nat.dist_self]
    exact .inl (Nat.dist_pos_of_ne hy)
  · have hpos := Nat.two_pow_pos (excess a)
    obtain ⟨u, _, hone⟩ := one_eq_two_pow
    have hscale : ∀ j : Nat, j * 2 ^ (excess a + u) = j * 2 ^ excess a * one := by
      intro j
      rw [Nat.pow_add, Nat.mul_assoc, hone]
    rcases y.magnitude_multiple_or_lt (excess a + u) with ⟨j, hj⟩ | hlt
    · rw [hj, hscale] at hy ⊢
      have hne : j ≠ roundHalfEven a (2 ^ excess a) := by
        rintro rfl
        exact hy rfl
      rw [Nat.dist_mul_right, Nat.dist_mul_right, Nat.mul_lt_mul_right one_pos,
        Nat.mul_left_inj (Nat.ne_of_gt one_pos)]
      exact dist_roundHalfEven hpos hne
    · -- The least power of two on the grid is nearer than anything below it.
      have hlow := two_pow_excess_le hp
      have hle : Nat.dist (rounded a) a ≤ Nat.dist (2 ^ 52 * 2 ^ excess a) a := by
        by_cases h : 2 ^ 52 = roundHalfEven a (2 ^ excess a)
        · rw [h]
          exact Nat.le_refl _
        · exact (dist_roundHalfEven hpos h).elim Nat.le_of_lt fun h => Nat.le_of_eq h.1
      have hle := Nat.mul_le_mul_right one hle
      rw [← Nat.dist_mul_right, ← Nat.dist_mul_right] at hle
      rw [Nat.pow_add, hscale] at hlt
      rw [Nat.pow_add] at hlow
      have hlow := Nat.mul_le_mul_right one hlow
      left
      unfold Nat.dist at hle ⊢
      omega

theorem even_mantissa {x : Binary64} {m k : Nat} (h : x.magnitude = m * 2 ^ k) (hm : m ≤ 2 ^ 53)
    (heven : m % 2 = 0) : x.mantissa % 2 = 0 := by
  rw [magnitude_eq] at h
  rcases Nat.lt_or_ge k x.exponent with hk | hk
  · -- More than half of the bits of `m` are the mantissa, so it is the least normal one.
    have hpow : 2 ^ x.exponent = 2 * 2 ^ (x.exponent - k - 1) * 2 ^ k := by
      rw [← Nat.pow_succ', ← Nat.pow_add]
      congr 1
      omega
    rw [hpow, ← Nat.mul_assoc, ← Nat.mul_assoc] at h
    have hmul := Nat.eq_of_mul_eq_mul_right (Nat.two_pow_pos k) h
    have htwice := Nat.le_mul_of_pos_right (x.mantissa * 2) (Nat.two_pow_pos (x.exponent - k - 1))
    have hnormal : 2 ^ 52 ≤ x.mantissa := x.normal.resolve_right (by omega)
    omega
  · have hpow : 2 ^ k = 2 ^ (k - x.exponent) * 2 ^ x.exponent := by
      rw [← Nat.pow_add, Nat.sub_add_cancel hk]
    rw [hpow, ← Nat.mul_assoc] at h
    have hmul := Nat.eq_of_mul_eq_mul_right (Nat.two_pow_pos x.exponent) h
    rw [hmul, Nat.mul_mod, heven, Nat.zero_mul, Nat.zero_mod]

def distance (x : Binary64) (n : Int) : Nat := (x.units - n * one).natAbs

/-- No number of another value is nearer to the integer, and where one is as near, the mantissa
of `x` is even. -/
def Nearest (x : Binary64) (n : Int) : Prop :=
  ∀ y : Binary64, y.units ≠ x.units →
    x.distance n < y.distance n ∨ x.distance n = y.distance n ∧ x.mantissa % 2 = 0

theorem units_eq_or (x : Binary64) : x.units = x.magnitude ∨ x.units = -x.magnitude := by
  unfold units
  split
  · exact .inr rfl
  · exact .inl rfl

theorem roundHalfEven_le (a : Nat) : roundHalfEven a (2 ^ excess a) ≤ 2 ^ 53 := by
  have hquotient : a / 2 ^ excess a < 2 ^ 53 := by
    rw [Nat.div_lt_iff_lt_mul (Nat.two_pow_pos _), ← Nat.pow_add]
    exact lt_two_pow_excess a
  have hcases := roundHalfEven_cases a (2 ^ excess a)
  omega

theorem rounded_zero : rounded 0 = 0 := rounded_eq_self rfl

theorem even_mantissa_of_rounded {x : Binary64} {a : Nat} (h : x.magnitude = rounded a * one)
    (heven : roundHalfEven a (2 ^ excess a) % 2 = 0) : x.mantissa % 2 = 0 := by
  obtain ⟨u, _, hone⟩ := one_eq_two_pow
  rw [rounded, hone, Nat.mul_assoc, ← Nat.pow_add] at h
  exact even_mantissa h (roundHalfEven_le a) heven

theorem dist_le_distance (y : Binary64) (n : Int) :
    Nat.dist y.magnitude (n.natAbs * one) ≤ y.distance n := by
  have hy : y.units.natAbs = y.magnitude := by
    have h := y.units_eq_or
    omega
  have hn : (n * one).natAbs = n.natAbs * one := by rw [Int.natAbs_mul, Int.natAbs_natCast]
  rw [← hy, ← hn]
  unfold Nat.dist distance
  omega

theorem units_eq_of_nearestInt {x : Binary64} {n : Int} (h : x.units = nearestInt n * one) :
    x.magnitude = rounded n.natAbs * one ∧
      x.distance n = Nat.dist (rounded n.natAbs * one) (n.natAbs * one) := by
  have hx := x.units_eq_or
  unfold distance Nat.dist
  obtain ⟨a, rfl | rfl⟩ := n.eq_nat_or_neg
  · rw [nearestInt_natCast, ← Int.natCast_mul] at h
    rw [Int.natAbs_natCast, h, ← Int.natCast_mul]
    omega
  · rw [nearestInt_neg, nearestInt_natCast, Int.neg_mul, ← Int.natCast_mul] at h
    rw [Int.natAbs_neg, Int.natAbs_natCast, h, Int.neg_mul, ← Int.natCast_mul]
    omega

theorem distance_of_opposite {x y : Binary64} {n : Int} (h : x.units = nearestInt n * one)
    (hy : y.units = -x.units) : y.distance n = rounded n.natAbs * one + n.natAbs * one := by
  unfold distance
  rw [hy, h]
  obtain ⟨a, rfl | rfl⟩ := n.eq_nat_or_neg
  · rw [nearestInt_natCast, Int.natAbs_natCast, ← Int.natCast_mul, ← Int.natCast_mul]
    omega
  · rw [nearestInt_neg, nearestInt_natCast, Int.natAbs_neg, Int.natAbs_natCast, Int.neg_mul,
      Int.neg_mul, ← Int.natCast_mul, ← Int.natCast_mul]
    omega

theorem nearest_of_units_eq {x : Binary64} {n : Int} (h : x.units = nearestInt n * one) :
    x.Nearest n := by
  obtain ⟨hmagnitude, hdistance⟩ := units_eq_of_nearestInt h
  intro y hy
  by_cases hsame : y.magnitude = rounded n.natAbs * one
  · -- A number of the same magnitude is on the other side of zero.
    have hopposite : y.units = -x.units := by
      have hx := x.units_eq_or
      have hy' := y.units_eq_or
      omega
    have hne : rounded n.natAbs * one ≠ 0 := by
      have hx := x.units_eq_or
      omega
    have hn : n.natAbs ≠ 0 := by
      intro hn
      rw [hn, rounded_zero, Nat.zero_mul] at hne
      exact hne rfl
    have hpos : 0 < n.natAbs * one := Nat.mul_pos (Nat.pos_of_ne_zero hn) one_pos
    rw [hdistance, distance_of_opposite h hopposite]
    unfold Nat.dist
    omega
  · have hle := y.dist_le_distance n
    have heven := @even_mantissa_of_rounded x n.natAbs hmagnitude
    rw [hdistance]
    rcases dist_rounded hsame with hlt | ⟨heq, hround⟩
    · exact .inl (Nat.lt_of_lt_of_le hlt hle)
    · rcases Nat.lt_or_eq_of_le hle with hlt | hle
      · exact .inl (heq.trans_lt hlt)
      · exact .inr ⟨heq.trans hle, heven hround⟩

def next (x : Binary64) (negative : Bool) (h : x.mantissa % 2 = 0) : Binary64 where
  negative := negative
  mantissa := x.mantissa + 1
  exponent := x.exponent
  mantissa_lt := by
    have hlt : x.mantissa < 2 ^ 53 := x.mantissa_lt
    change x.mantissa + 1 < 2 ^ 53
    omega
  normal := x.normal.imp_left Nat.le_succ_of_le
  exponent_le := x.exponent_le

theorem magnitude_next (x : Binary64) (negative : Bool) (h : x.mantissa % 2 = 0) :
    (x.next negative h).magnitude = x.magnitude + 2 ^ x.exponent := Nat.succ_mul _ _

theorem magnitude_next_le {x y : Binary64} (negative : Bool) (hx : x.mantissa % 2 = 0)
    (h : x.magnitude < y.magnitude) : (x.next negative hx).magnitude ≤ y.magnitude := by
  rw [magnitude_next]
  rcases y.magnitude_multiple_or_lt x.exponent with ⟨j, hj⟩ | hlt
  · rw [hj, magnitude_eq] at h
    rw [hj, magnitude_eq, ← Nat.succ_mul]
    exact Nat.mul_le_mul_right _ (Nat.lt_of_mul_lt_mul_right h)
  · rcases x.normal with hnormal | hzero
    · have hmul := Nat.mul_le_mul_right (2 ^ x.exponent) hnormal
      rw [Nat.pow_add] at hlt
      exact absurd (Nat.lt_trans h hlt) (Nat.not_lt.2 hmul)
    · rw [hzero]
      exact h

/-- Two numbers with even mantissas are not neighbours. -/
theorem magnitude_next_lt {x y : Binary64} (negative : Bool) (hx : x.mantissa % 2 = 0)
    (hy : y.mantissa % 2 = 0) (h : x.magnitude < y.magnitude) :
    (x.next negative hx).magnitude < y.magnitude := by
  refine Nat.lt_of_le_of_ne (magnitude_next_le negative hx h) fun heq => ?_
  have hodd : (x.next negative hx).mantissa % 2 = 0 :=
    even_mantissa heq (Nat.le_of_lt y.mantissa_lt) hy
  change (x.mantissa + 1) % 2 = 0 at hodd
  omega

theorem exists_units_between {x y : Binary64} (hx : x.mantissa % 2 = 0) (hy : y.mantissa % 2 = 0)
    (h : x.units < y.units) : ∃ z : Binary64, x.units < z.units ∧ z.units < y.units := by
  have hx' := x.units_eq_or
  have hy' := y.units_eq_or
  by_cases hxpos : 0 ≤ x.units
  · have hlt := magnitude_next_lt false hx hy (by omega)
    have hnext := magnitude_next x false hx
    have hpow := Nat.two_pow_pos x.exponent
    have hz : (x.next false hx).units = (x.next false hx).magnitude := rfl
    exact ⟨x.next false hx, by omega, by omega⟩
  · by_cases hyneg : y.units ≤ 0
    · have hlt := magnitude_next_lt true hy hx (by omega)
      have hnext := magnitude_next y true hy
      have hpow := Nat.two_pow_pos y.exponent
      have hz : (y.next true hy).units = -(y.next true hy).magnitude := rfl
      exact ⟨y.next true hy, by omega, by omega⟩
    · have hz : (zero false).units = 0 := rfl
      exact ⟨zero false, by omega, by omega⟩

theorem Nearest.units_le {x y : Binary64} {n : Int} (hx : x.Nearest n) (hy : y.Nearest n) :
    y.units ≤ x.units := by
  by_contra hlt
  have hxy := hx y (by omega)
  have hyx := hy x (by omega)
  obtain ⟨z, hxz, hzy⟩ := exists_units_between (x := x) (y := y) (by omega) (by omega) (by omega)
  have hnearer := hx z (by omega)
  unfold distance at hxy hyx hnearer
  omega

theorem Nearest.units_eq {x y : Binary64} {n : Int} (hx : x.Nearest n) (hy : y.Nearest n) :
    x.units = y.units := Int.le_antisymm (hy.units_le hx) (hx.units_le hy)

def neg (x : Binary64) : Binary64 := { x with negative := !x.negative }

theorem units_neg (x : Binary64) : x.neg.units = -x.units := by
  change (if (!x.negative) = true then _ else _) = -(if x.negative = true then _ else _)
  cases x.negative with
  | false => rfl
  | true => exact (Int.neg_neg _).symm

theorem exists_units {m k : Nat} (hm : m ≤ 2 ^ 53) (hk : k ≤ 2044) :
    ∃ x : Binary64, x.units = (m * 2 ^ k : Nat) := by
  induction k generalizing m with
  | zero =>
    rcases Nat.lt_or_eq_of_le hm with hlt | rfl
    · exact ⟨⟨false, m, 0, hlt, .inr rfl, by decide⟩, rfl⟩
    · refine ⟨⟨false, 2 ^ 52, 1, by decide, .inl (Nat.le_refl _), by decide⟩, ?_⟩
      change ((2 ^ 52 * 2 ^ 1 : Nat) : Int) = _
      decide
  | succ k ih =>
    rcases Nat.lt_or_ge m (2 ^ 52) with hsmall | hnormal
    · obtain ⟨x, hx⟩ := ih (m := m * 2) (by omega) (by omega)
      refine ⟨x, ?_⟩
      rw [hx, Nat.mul_assoc, ← Nat.pow_succ']
    · rcases Nat.lt_or_eq_of_le hm with hlt | rfl
      · exact ⟨⟨false, m, k + 1, hlt, .inl hnormal, by omega⟩, rfl⟩
      · refine ⟨⟨false, 2 ^ 52, k + 2, by decide, .inl (Nat.le_refl _), by omega⟩, ?_⟩
        change ((2 ^ 52 * 2 ^ (k + 2) : Nat) : Int) = _
        rw [← Nat.pow_add, ← Nat.pow_add]
        congr 2
        omega

theorem exists_units_eq_rounded {a : Nat} (ha : a < 2 ^ 64) :
    ∃ x : Binary64, x.units = (rounded a * one : Nat) := by
  obtain ⟨u, hu, hone⟩ := one_eq_two_pow
  have hexcess : excess a ≤ 11 := by
    unfold excess
    rcases Nat.eq_zero_or_pos a with rfl | h
    · decide
    · have hlog := (Nat.log2_lt (Nat.ne_of_gt h)).2 ha
      omega
  have h := exists_units (roundHalfEven_le a) (k := excess a + u) (by omega)
  rw [Nat.pow_add, ← Nat.mul_assoc, ← hone] at h
  exact h

theorem exists_units_eq_nearestInt {n : Int} (hn : n.natAbs < 2 ^ 64) :
    ∃ x : Binary64, x.units = nearestInt n * one := by
  obtain ⟨x, hx⟩ := exists_units_eq_rounded hn
  rcases n.natAbs_eq with h | h
  · refine ⟨x, ?_⟩
    rw [h, nearestInt_natCast, hx, Int.natCast_mul]
  · refine ⟨x.neg, ?_⟩
    rw [h, nearestInt_neg, nearestInt_natCast, units_neg, hx, Int.natCast_mul, Int.neg_mul]

/-- An integer of 64 bits is equal to the one number that is nearest to it. -/
theorem equalInt_iff_nearest {x : Binary64} {n : Int} (hn : n.natAbs < 2 ^ 64) :
    x.equalInt n = true ↔ x.Nearest n := by
  rw [equalInt, beq_iff_eq]
  constructor
  · exact nearest_of_units_eq
  · intro hx
    obtain ⟨y, hy⟩ := exists_units_eq_nearestInt hn
    rw [hx.units_eq (nearest_of_units_eq hy), hy]

theorem exists_units_eq {n : Int} (hn : n.natAbs ≤ 2 ^ 53) :
    ∃ x : Binary64, x.units = n * one := by
  obtain ⟨u, hu, hone⟩ := one_eq_two_pow
  obtain ⟨x, hx⟩ := exists_units hn (k := u) (by omega)
  rw [← hone, Int.natCast_mul] at hx
  rcases n.natAbs_eq with h | h
  · exact ⟨x, by rw [hx, ← h]⟩
  · exact ⟨x.neg, by rw [units_neg, hx, ← Int.neg_mul, ← h]⟩

theorem nearestInt_eq_self {x : Binary64} {n : Int} (h : x.units = n * one) : nearestInt n = n := by
  have hmagnitude : x.magnitude = n.natAbs * one := by
    have hx := x.units_eq_or
    have hn : (n * one).natAbs = n.natAbs * one := by rw [Int.natAbs_mul, Int.natAbs_natCast]
    omega
  have hrounded : rounded n.natAbs = n.natAbs := by
    refine Nat.eq_of_mul_eq_mul_right one_pos ?_
    by_contra hne
    have hne' : x.magnitude ≠ rounded n.natAbs * one := by
      rw [hmagnitude]
      exact Ne.symm hne
    have hdist := dist_rounded hne'
    rw [hmagnitude, Nat.dist_self] at hdist
    rcases hdist with hlt | ⟨heq, _⟩
    · exact Nat.not_lt_zero _ hlt
    · exact hne (Nat.eq_of_dist_eq_zero heq)
  rcases n.natAbs_eq with hn | hn
  · rw [hn, nearestInt_natCast, hrounded]
  · rw [hn, nearestInt_neg, nearestInt_natCast, hrounded]

end Conform.Binary64
