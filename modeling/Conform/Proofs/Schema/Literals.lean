import Conform.Proofs.Number.Comparison
import Conform.Proofs.Schema.Meaning

set_option autoImplicit false

namespace Conform

namespace Value

theorem agrees_number_iff (v : Value) (l : Number) :
    v.agrees (number l) = true ↔ ∃ a, v = number a ∧ a.agrees l = true := by
  cases v with
  | number a => simp [agrees]
  | _ => simp [agrees, equal]

inductive Mixed : Value → Value → Prop where
  | intFloat (n : Int) (x : Binary64) : Mixed (number (.int n)) (number (.float x))
  | floatInt (x : Binary64) (n : Int) : Mixed (number (.float x)) (number (.int n))

theorem agrees_of_equal {v w : Value} (h : v.equal w = true) : v.agrees w = true := by
  cases v with
  | number a =>
    cases w with
    | number b => exact Number.agrees_of_equal h
    | _ => exact h
  | _ => exact h

theorem equal_or_mixed_of_agrees {v w : Value} (h : v.agrees w = true) :
    v.equal w = true ∨ v.Mixed w := by
  cases v with
  | number a =>
    cases w with
    | number b =>
      cases a with
      | int m =>
        cases b with
        | int n => exact .inl h
        | float y => exact .inr (.intFloat m y)
      | float x =>
        cases b with
        | int n => exact .inr (.floatInt x n)
        | float y => exact .inl h
    | _ => exact .inl h
  | _ => exact .inl h

theorem equal_comm {v w : Value} (hv : v.Distinct) (hw : w.Distinct) : v.equal w = w.equal v := by
  rw [Bool.eq_iff_iff]
  exact ⟨equal_symm hv, equal_symm hw⟩

theorem agrees_comm {v w : Value} (hv : v.Distinct) (hw : w.Distinct) :
    v.agrees w = w.agrees v := by
  have hequal : v.equal w = w.equal v := equal_comm hv hw
  cases v with
  | number a =>
    cases w with
    | number b => exact a.agrees_comm b
    | _ => exact hequal
  | _ => cases w <;> exact hequal

end Value

/-- Numbers of a document agree if they are the same number, or if binary64 rounds one of them to
the other. Only in the second case is agreement not numeric equality, and integers up to `2 ^ 53` are
never in it. Agreement is transitive except across a float from one integer to another. A literal
accepts the numbers that agree with it. -/
theorem numbers_agree_up_to_rounding (a b : Number) (ha : a.Fits) (hb : b.Fits) :
    ((a.agrees b = true ↔ a.units = b.units) ↔ ¬ a.RoundsTo b ∧ ¬ b.RoundsTo a) ∧
    (a.agrees b = true ↔ a.units = b.units ∨ a.RoundsTo b ∨ b.RoundsTo a) ∧
    (∀ n : Int, n.natAbs ≤ 2 ^ 53 → a = .int n ∨ b = .int n →
      (a.agrees b = true ↔ a.units = b.units)) ∧
    (∀ c : Number, a.agrees b = true → b.agrees c = true →
      (a.agrees c = false ↔ ∃ i j x, a = .int i ∧ b = .float x ∧ c = .int j ∧ i ≠ j)) ∧
    ∀ (w : Wording) (v : Value), (Schema.literal (.number b) w).accepts v = true ↔
      ∃ n, v = .number n ∧ n.agrees b = true := by
  refine ⟨Number.agrees_iff_units_eq_iff ha hb, Number.agrees_iff ha hb,
    fun n hn h => Number.agrees_iff_of_natAbs_le ha hb hn h,
    fun c hab hbc => Number.agrees_trans hab hbc, fun w v => ?_⟩
  rw [Schema.accepts]
  exact v.agrees_number_iff b

/-- The floats next to `2 ^ 53 + 1` are `2 ^ 53` and `2 ^ 53 + 2`, of which the former has an even
mantissa. -/
theorem numbers_agree_up_to_rounding_above_limit :
    let i : Number := .int (2 ^ 53)
    let j : Number := .int (2 ^ 53 + 1)
    let x : Number := .float ⟨false, 2 ^ 52, 1075, by decide, .inl (Nat.le_refl _), by decide⟩
    (j.Fits ∧ x.Fits ∧ j.agrees x = true ∧ j.units ≠ x.units) ∧
      (j.RoundsTo x ∨ x.RoundsTo j) ∧ ¬ (j.agrees x = true ↔ j.units = x.units) ∧
      (i.Fits ∧ (i.agrees x = true ↔ i.units = x.units)) ∧
      (x.agrees i = true ∧ j.agrees i = false) ∧
      (Schema.literal (.number x) .standard).accepts (.number j) = true := by
  intro i j x
  have hj : j.Fits := by decide
  have hi : i.Fits := by decide
  have hjx : j.agrees x = true := by decide +kernel
  have hxi : x.agrees i = true := by decide +kernel
  have hne : j.units ≠ x.units := by decide +kernel
  obtain ⟨claimed, agreement, -, transitive, literal⟩ :=
    numbers_agree_up_to_rounding j x hj trivial
  obtain ⟨-, -, small, -, -⟩ := numbers_agree_up_to_rounding i x hi trivial
  have hrounds : j.RoundsTo x ∨ x.RoundsTo j := (agreement.1 hjx).resolve_left hne
  have hclaimed : ¬ (j.agrees x = true ↔ j.units = x.units) :=
    fun h => (claimed.1 h).elim fun hjx' hxj' => hrounds.elim hjx' hxj'
  exact ⟨⟨hj, trivial, hjx, hne⟩, hrounds, hclaimed, ⟨hi, small (2 ^ 53) (by decide) (.inl rfl)⟩,
    ⟨hxi, (transitive i hjx hxi).2 ⟨_, _, _, rfl, rfl, rfl, by decide⟩⟩,
    (literal .standard _).2 ⟨j, rfl, hjx⟩⟩

/-- The integers `2 ^ 53` and `2 ^ 53 + 1` both agree with the first of them as a float. -/
theorem number_agrees_with_another :
    let i : Number := .int (2 ^ 53)
    let j : Number := .int (2 ^ 53 + 1)
    let x : Number := .float ⟨false, 2 ^ 52, 1075, by decide, .inl (Nat.le_refl _), by decide⟩
    j.agrees x = true ∧ j.units ≠ x.units ∧ i.agrees x = true ∧ x.agrees j = true ∧
      i.agrees j = false ∧ (Schema.literal (.number x) .standard).accepts (.number j) = true := by
  decide +kernel

/-- Agreement is reflexive and symmetric, extends equality by pairs of an integer and a float alone,
and cannot tell equal documents apart. A choice between literals accepts each of them and all that
equals one. -/
theorem agreement_extends_equality :
    (∀ a : Value, a.Distinct → a.agrees a = true) ∧
    (∀ a b : Value, a.Distinct → b.Distinct → a.agrees b = b.agrees a) ∧
    (∀ a b : Value, a.equal b = true → a.agrees b = true) ∧
    (∀ a b : Value, a.agrees b = true → a.equal b = false → a.Mixed b) ∧
    (∀ a a' b b' : Value, a.Distinct → a'.Distinct → b.Distinct → b'.Distinct →
      a.equal a' = true → b.equal b' = true → a.agrees b = a'.agrees b') ∧
    ∀ (literals : List Value), ∀ l ∈ literals,
      (l.Distinct → (Schema.oneOf literals).accepts l = true) ∧
        ∀ v : Value, v.equal l = true → (Schema.oneOf literals).accepts v = true := by
  have accepted : ∀ (literals : List Value), ∀ l ∈ literals, ∀ v : Value, v.equal l = true →
      (Schema.oneOf literals).accepts v = true := by
    intro literals l hl v hv
    exact (Schema.accepts_oneOf_iff literals v).2 ⟨l, hl, Value.agrees_of_equal hv⟩
  refine ⟨fun a ha => Value.agrees_of_equal (Value.equal_refl ha),
    fun a b ha hb => Value.agrees_comm ha hb, fun a b h => Value.agrees_of_equal h, ?_, ?_, ?_⟩
  · intro a b h hne
    rcases Value.equal_or_mixed_of_agrees h with heq | hmixed
    · cases hne.symm.trans heq
    · exact hmixed
  · intro a a' b b' ha ha' hb hb' haa hbb
    calc
      a.agrees b = a'.agrees b := Value.agrees_congr ha haa b
      _ = b.agrees a' := Value.agrees_comm ha' hb
      _ = b'.agrees a' := Value.agrees_congr hb hbb a'
      _ = a'.agrees b' := Value.agrees_comm hb' ha'
  · intro literals l hl
    exact ⟨fun hd => accepted literals l hl l (Value.equal_refl hd), accepted literals l hl⟩

theorem agreement_extends_equality_of_zeros :
    let i : Value := .number (.int 0)
    let p : Value := .number (.float (.zero false))
    let m : Value := .number (.float (.zero true))
    let d : Value := .object [("x", .array [p]), ("y", i)]
    let e : Value := .object [("y", i), ("x", .array [m])]
    (d.Distinct ∧ e.Distinct ∧ d.equal e = true ∧ e.equal d = true) ∧
      (d.agrees d = true ∧ d.agrees e = true ∧ e.agrees d = d.agrees e) ∧
      (i.agrees m = true ∧ i.equal m = false ∧ i.Mixed m) ∧
      (p.equal m = true ∧ i.agrees p = i.agrees m) ∧
      (Schema.oneOf [i, d]).accepts d = true ∧ (Schema.oneOf [i, d]).accepts e = true := by
  intro i p m d e
  obtain ⟨reflexive, symmetric, extension, mixed, congruent, choice⟩ := agreement_extends_equality
  have entries : ∀ x, x.Distinct → ∀ f ∈ [("x", Value.array [x]), ("y", i)], f.2.Distinct := by
    intro x hx
    have hitems : (Value.array [x]).Distinct := .array (List.forall_mem_singleton.2 hx)
    exact List.forall_mem_cons.2 ⟨hitems, List.forall_mem_singleton.2 (.number _)⟩
  have hd : d.Distinct := .object (by decide) (entries p (.number _))
  have he : e.Distinct :=
    .object (by decide) fun f hf => entries m (.number _) f ((List.Perm.swap _ _ _).mem_iff.1 hf)
  have hde : d.equal e = true := by decide
  have hed : e.equal d = true := by decide
  have him : i.agrees m = true := by decide +kernel
  have hne : i.equal m = false := by decide
  have hpm : p.equal m = true := by decide
  have hii : i.equal i = true := by decide
  obtain ⟨hself, hequal⟩ := choice [i, d] d (by simp)
  exact ⟨⟨hd, he, hde, hed⟩, ⟨reflexive d hd, extension d e hde, symmetric e d he hd⟩,
    ⟨him, hne, mixed i m him hne⟩,
    ⟨hpm, congruent i i p m (.number _) (.number _) (.number _) (.number _) hii hpm⟩,
    hself hd, hequal e hed⟩

end Conform
