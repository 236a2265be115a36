import Conform.Proofs.Schema.Site
import Mathlib.Data.List.Infix

set_option autoImplicit false

/-!
# The visited sites

A check visits the sites below it depth first: each site comes before the sites it goes on to. The
findings are the faults that the visited sites have by themselves, in that order, so the findings of
a visited site stand together among those of the whole check.
-/
namespace Conform

def Defect.inside (p : Path) (d : Defect) : Defect := { d with path := p ++ d.path }

namespace Site

def root (s : Schema) (v : Value) : Site := ⟨s, [], some v, .standard⟩

def next (x : Site) : List Site :=
  match x.value? with
  | some v => (x.schema.children v).map x.within
  | none => []

theorem sizeOf_next_lt {x y : Site} (h : y ∈ x.next) : sizeOf y.schema < sizeOf x.schema := by
  unfold next at h
  split at h
  · obtain ⟨c, hc, rfl⟩ := List.mem_map.1 h
    change sizeOf c.schema < sizeOf x.schema
    exact Schema.sizeOf_lt_of_step (Schema.step_of_mem_children hc)
  · cases h

def visits (x : Site) : List Site := x :: x.next.attach.flatMap fun y => y.1.visits
termination_by sizeOf x.schema
decreasing_by exact sizeOf_next_lt y.2

theorem visits_eq (x : Site) : x.visits = x :: x.next.flatMap visits := by
  have h : (x.next.attach.flatMap fun y => y.1.visits) = x.next.flatMap visits := by
    rw [List.flatMap_subtype (g := visits) fun _ _ => rfl, List.unattach_attach]
  rw [visits, h]

theorem next_induction {motive : Site → Prop}
    (step : ∀ x, (∀ y ∈ x.next, motive y) → motive x) (x : Site) : motive x :=
  step x fun y _ => next_induction step y
termination_by sizeOf x.schema
decreasing_by exact sizeOf_next_lt ‹y ∈ x.next›

/-- What is wrong at a site by itself. A place without a value lacks what its schema describes. -/
def defect? (x : Site) : Option Defect :=
  match x.value? with
  | some v => (x.schema.defect? v).map (Defect.inside x.path)
  | none => some ⟨x.path, .shapeMismatch, x.schema.description, .string "undefined"⟩

def finding? (x : Site) : Option Finding :=
  x.defect?.map fun d => ⟨d, x.around.orElse x.schema.wording⟩

theorem lift_within (x y : Site) (f : Finding) : (x.within y).lift f = x.lift (y.lift f) := by
  have hw : (x.around.orElse y.around).orElse f.wording =
      x.around.orElse (y.around.orElse f.wording) := by cases x.around <;> rfl
  simp only [lift, within, List.append_assoc, hw]

theorem findings_within (x y : Site) : (x.within y).findings = y.findings.map x.lift := by
  have hl : (x.within y).lift = x.lift ∘ y.lift := funext (lift_within x y)
  unfold findings
  change (match y.value? with
    | some v => (y.schema.findings v).map (x.within y).lift
    | none => [(x.within y).lift y.schema.missing]) = _
  rw [hl]
  cases y.value? with
  | none => rfl
  | some v => exact List.map_map.symm

theorem findings_root (s : Schema) (v : Value) : (root s v).findings = s.findings v :=
  List.map_id _

theorem findings_eq_next (x : Site) :
    x.findings = x.finding?.toList ++ x.next.flatMap findings := by
  obtain ⟨s, p, v?, w⟩ := x
  cases v? with
  | none => simp [findings, finding?, defect?, next, lift, Schema.missing]
  | some v =>
    have hown : (((s.defect? v).map fun d => ⟨d, s.wording⟩).toList).map
        (Site.mk s p (some v) w).lift = (Site.mk s p (some v) w).finding?.toList := by
      simp only [finding?, defect?]
      cases s.defect? v <;> rfl
    have hchildren : ((s.children v).flatMap findings).map (Site.mk s p (some v) w).lift =
        (Site.mk s p (some v) w).next.flatMap findings := by
      rw [List.map_flatMap, next, List.flatMap_map]
      exact List.flatMap_congr fun c _ => (findings_within _ c).symm
    change (s.findings v).map (Site.mk s p (some v) w).lift = _
    rw [Schema.findings_eq_children, List.map_append, hown, hchildren]

theorem findings_eq_filterMap_visits (x : Site) : x.findings = x.visits.filterMap finding? := by
  induction x using next_induction with
  | step x ih =>
    rw [findings_eq_next, visits_eq, List.filterMap_cons, List.filterMap_flatMap,
      List.flatMap_congr ih]
    cases x.finding? <;> rfl

theorem visits_contiguous {x y : Site} (h : y ∈ x.visits) : y.visits <:+: x.visits := by
  induction x using next_induction with
  | step x ih =>
    rw [visits_eq, List.mem_cons, List.mem_flatMap] at h
    rcases h with rfl | ⟨z, hz, hy⟩
    · exact List.infix_rfl
    · have hx : x.visits = [x] ++ x.next.flatMap visits := visits_eq x
      have hzx : z.visits <:+: x.next.flatMap visits := by
        obtain ⟨before, after, e⟩ := List.append_of_mem hz
        refine ⟨before.flatMap visits, after.flatMap visits, ?_⟩
        rw [e, List.flatMap_append, List.flatMap_cons, List.append_assoc]
      rw [hx]
      exact (ih z hz hy).trans (hzx.trans (List.suffix_append _ _).isInfix)

theorem findings_contiguous {x y : Site} (h : y ∈ x.visits) : y.findings <:+: x.findings := by
  rw [findings_eq_filterMap_visits, findings_eq_filterMap_visits]
  exact (visits_contiguous h).filterMap _

end Site

namespace Schema

/-- `Checks s v t p x?`: the check of `v` by `s` comes to apply `t` to `x?` at `p`. -/
inductive Checks (s : Schema) (v : Value) : Schema → Path → Option Value → Prop where
  | root : Checks s v s [] (some v)
  | step {t u : Schema} {p q : Path} {x : Value} {y? : Option Value}
      (h : Checks s v t p (some x)) (hs : Step t x q u y?) : Checks s v u (p ++ q) y?

theorem checks_of_mem_visits {s : Schema} {v : Value} (y : Site)
    (hy : Checks s v y.schema y.path y.value?) :
    ∀ x ∈ y.visits, Checks s v x.schema x.path x.value? := by
  induction y using Site.next_induction with
  | step y ih =>
    intro x hx
    rw [Site.visits_eq, List.mem_cons, List.mem_flatMap] at hx
    rcases hx with rfl | ⟨z, hz, hx⟩
    · exact hy
    · refine ih z hz ?_ x hx
      unfold Site.next at hz
      split at hz
      · next u hu =>
        obtain ⟨c, hc, rfl⟩ := List.mem_map.1 hz
        rw [hu] at hy
        exact hy.step (step_of_mem_children hc)
      · cases hz

theorem exists_mem_visits_of_checks {s t : Schema} {v : Value} {p : Path} {x? : Option Value}
    (h : Checks s v t p x?) :
    ∃ x ∈ (Site.root s v).visits, x.schema = t ∧ x.path = p ∧ x.value? = x? := by
  induction h with
  | root =>
    refine ⟨Site.root s v, ?_, rfl, rfl, rfl⟩
    rw [Site.visits_eq]
    exact .head _
  | @step _ u _ q _ y? _ hs ih =>
    obtain ⟨x, hx, rfl, rfl, hv⟩ := ih
    obtain ⟨w, hc⟩ := mem_children_of_step hs
    have hn : x.within ⟨u, q, y?, w⟩ ∈ x.next := by
      unfold Site.next
      rw [hv]
      exact List.mem_map_of_mem hc
    refine ⟨x.within ⟨u, q, y?, w⟩, (Site.visits_contiguous hx).subset ?_, rfl, rfl, rfl⟩
    rw [Site.visits_eq, List.mem_cons, List.mem_flatMap]
    refine .inr ⟨_, hn, ?_⟩
    rw [Site.visits_eq]
    exact .head _

theorem checks_iff (s t : Schema) (v : Value) (p : Path) (x? : Option Value) :
    Checks s v t p x? ↔
      ∃ x ∈ (Site.root s v).visits, x.schema = t ∧ x.path = p ∧ x.value? = x? := by
  constructor
  · exact exists_mem_visits_of_checks
  · rintro ⟨x, hx, rfl, rfl, rfl⟩
    exact checks_of_mem_visits (Site.root s v) .root x hx

theorem findings_eq_filterMap_visits (s : Schema) (v : Value) :
    s.findings v = (Site.root s v).visits.filterMap Site.finding? := by
  rw [← Site.findings_root, Site.findings_eq_filterMap_visits]

theorem toDefect_finding? (x : Site) : x.finding?.map Finding.toDefect = x.defect? := by
  unfold Site.finding?
  cases x.defect? <;> rfl

/-- A check finds what the sites that it visits have wrong by themselves, each at most one thing,
in the order of the visits. These are the sites that single steps lead to, and whatever is found by
applying the schema of one of them alone to the value there is found together, at its path. -/
theorem toDefect_findings_eq_visits (s : Schema) (v : Value) :
    (s.findings v).map Finding.toDefect = (Site.root s v).visits.filterMap Site.defect? ∧
    (∀ t p x?, Checks s v t p x? ↔
      ∃ x ∈ (Site.root s v).visits, x.schema = t ∧ x.path = p ∧ x.value? = x?) ∧
    ∀ t p x, Checks s v t p (some x) →
      (t.findings x).map (fun f => f.toDefect.inside p) <:+:
        (s.findings v).map Finding.toDefect := by
  refine ⟨?_, fun t p x? => checks_iff s t v p x?, ?_⟩
  · rw [findings_eq_filterMap_visits, List.map_filterMap]
    exact List.filterMap_congr fun x _ => toDefect_finding? x
  · intro t p x h
    obtain ⟨y, hy, rfl, rfl, hv⟩ := (checks_iff s t v p (some x)).1 h
    have hroot := Site.findings_contiguous hy
    rw [Site.findings_root] at hroot
    have hy : y.findings.map Finding.toDefect =
        (y.schema.findings x).map fun f => f.toDefect.inside y.path := by
      unfold Site.findings
      rw [hv]
      exact List.map_map
    rw [← hy]
    exact hroot.map _

theorem toDefect_findings_of_positions :
    Checks
      (record (anyOf [] .standard)
        (tuple [category .string .standard, each (category .null .standard) .standard,
          anyArray .standard, category .number .standard] .standard) .standard)
      (.object [("a", .array [.null, .string "xy"])])
      (each (category .null .standard) .standard) ([.key "a"] ++ [.index 1])
      (some (.string "xy")) ∧
    ((each (category .null .standard) .standard).findings (.string "xy")).map
        (fun f => f.toDefect.inside ([.key "a"] ++ [.index 1])) <:+:
      ((record (anyOf [] .standard)
        (tuple [category .string .standard, each (category .null .standard) .standard,
          anyArray .standard, category .number .standard] .standard) .standard).findings
        (.object [("a", .array [.null, .string "xy"])])).map Finding.toDefect := by
  have h : Checks
      (record (anyOf [] .standard)
        (tuple [category .string .standard, each (category .null .standard) .standard,
          anyArray .standard, category .number .standard] .standard) .standard)
      (.object [("a", .array [.null, .string "xy"])])
      (each (category .null .standard) .standard) ([.key "a"] ++ [.index 1])
      (some (.string "xy")) :=
    (Checks.root.step (.entry (.head _))).step (.position (i := 1) rfl)
  exact ⟨h, (toDefect_findings_eq_visits _ _).2.2 _ _ _ h⟩

end Schema
end Conform
