import Conform.Proofs.Schema.Visits

set_option autoImplicit false

/-!
# Whose wording a finding has

A finding has the wording of the schema that makes it, and the messages of the schemas around that
one do not show. There are two exceptions. An intersection with a message words everything that is
found below it, and of several the outermost one does so. A position without an item is worded by
the schema of that position, although it is the tuple that finds it missing.
-/
namespace Conform

namespace Wording

def ofMessage? : Option Message → Wording
  | some m => custom m
  | none => standard

theorem orElse_ofMessage? (a b : Option Message) :
    (ofMessage? a).orElse (ofMessage? b) = ofMessage? (a.or b) := by
  cases a <;> rfl

end Wording

namespace Schema

def isIntersection : Schema → Bool
  | both _ _ _ => true
  | _ => false

def ownWording : Schema → Wording
  | category _ w | literal _ w | anyArray w | arrayOf _ w | tuple _ w | record _ _ w
  | fields _ w | each _ w | size _ _ w | anyOf _ w | both _ _ w => w

def override? : Schema → Option Message
  | both _ _ (.custom m) => some m
  | _ => none

/-- Who speaks for a schema: an intersection without a message leaves it to its left side. -/
def speaker : Schema → Schema
  | both l _ .standard => l.speaker
  | s => s

theorem wording_eq_speaker (s : Schema) : s.wording = s.speaker.ownWording := by
  induction s with
  | both l r w ihl _ =>
    cases w with
    | standard => exact ihl
    | custom m => rfl
  | _ => rfl

theorem wording_eq_ownWording {s : Schema} {v : Value} {d : Defect} (h : s.defect? v = some d) :
    s.wording = s.ownWording := by
  cases s with
  | both => cases h
  | _ => rfl

theorem around_of_mem_children {s : Schema} {v : Value} {c : Site} (h : c ∈ s.children v) :
    c.around = .ofMessage? s.override? := by
  cases s with
  | category | literal | anyArray | size | anyOf => simp [children] at h
  | arrayOf e w =>
    cases v with
    | array items => obtain ⟨x, _, rfl⟩ := List.mem_map.1 h; rfl
    | _ => simp [children] at h
  | tuple ps w =>
    cases v with
    | array items => obtain ⟨p, _, rfl⟩ := List.mem_map.1 h; rfl
    | _ => simp [children] at h
  | record k e w =>
    cases v with
    | object entries =>
      obtain ⟨x, _, hc⟩ := List.mem_flatMap.1 h
      simp only [List.mem_cons, List.not_mem_nil, or_false] at hc
      rcases hc with rfl | rfl <;> rfl
    | _ => simp [children] at h
  | fields ds w =>
    cases v with
    | object entries =>
      obtain ⟨d, _, hc⟩ := List.mem_filterMap.1 h
      obtain ⟨x, _, rfl⟩ := Option.map_eq_some_iff.1 hc
      rfl
    | _ => simp [children] at h
  | each e w =>
    cases v with
    | array items => obtain ⟨x, _, rfl⟩ := List.mem_map.1 h; rfl
    | string text => obtain ⟨x, _, rfl⟩ := List.mem_map.1 h; rfl
    | _ => simp [children] at h
  | both l r w =>
    have hw : w = .ofMessage? (both l r w).override? := by cases w <;> rfl
    simp only [children, List.mem_cons, List.not_mem_nil, or_false] at h
    rcases h with rfl | rfl <;> exact hw

end Schema

/-- A site with the nodes through which it is reached, from the root on. -/
structure Trail where
  above : List Schema
  site : Site

namespace Trail

/-- The wording of what is found at the site: the message of the outermost intersection above that
has one, or else that of the schema there. For a missing value the speaker of the schema answers. -/
def wording (t : Trail) : Wording :=
  match t.above.findSome? Schema.override?, t.site.value? with
  | some m, _ => .custom m
  | none, some _ => t.site.schema.ownWording
  | none, none => t.site.schema.speaker.ownWording

def finding? (t : Trail) : Option Finding := t.site.defect?.map fun d => ⟨d, t.wording⟩

theorem finding?_site {t : Trail}
    (h : t.site.around = .ofMessage? (t.above.findSome? Schema.override?)) :
    t.site.finding? = t.finding? := by
  obtain ⟨above, s, p, v?, w⟩ := t
  change w = .ofMessage? (above.findSome? Schema.override?) at h
  subst h
  unfold Site.finding? finding? wording
  cases above.findSome? Schema.override? with
  | some m => rfl
  | none =>
    cases v? with
    | none => rw [Schema.wording_eq_speaker]; rfl
    | some v =>
      simp only [Site.defect?]
      cases hd : s.defect? v with
      | none => rfl
      | some d => rw [Schema.wording_eq_ownWording hd]; rfl

end Trail

namespace Site

def trails (above : List Schema) (x : Site) : List Trail :=
  ⟨above, x⟩ :: x.next.attach.flatMap fun y => y.1.trails (above ++ [x.schema])
termination_by sizeOf x.schema
decreasing_by exact sizeOf_next_lt y.2

theorem trails_eq (above : List Schema) (x : Site) :
    x.trails above = ⟨above, x⟩ :: x.next.flatMap (trails (above ++ [x.schema])) := by
  have h : (x.next.attach.flatMap fun y => y.1.trails (above ++ [x.schema])) =
      x.next.flatMap (trails (above ++ [x.schema])) := by
    rw [List.flatMap_subtype (g := trails (above ++ [x.schema])) fun _ _ => rfl,
      List.unattach_attach]
  rw [trails, h]

theorem map_site_trails (above : List Schema) (x : Site) :
    (x.trails above).map Trail.site = x.visits := by
  induction x using next_induction generalizing above with
  | step x ih =>
    rw [trails_eq, visits_eq, List.map_cons, List.map_flatMap]
    exact congrArg (x :: ·) (List.flatMap_congr fun y hy => ih y hy _)

theorem around_of_mem_next {x y : Site} (h : y ∈ x.next) :
    y.around = x.around.orElse (.ofMessage? x.schema.override?) := by
  unfold next at h
  split at h
  · obtain ⟨c, hc, rfl⟩ := List.mem_map.1 h
    rw [← Schema.around_of_mem_children hc]
    rfl
  · cases h

theorem forall_mem_trails {motive : Trail → Prop} {above : List Schema} {x : Site}
    (root : motive ⟨above, x⟩)
    (next : ∀ t, motive t → ∀ y ∈ t.site.next, motive ⟨t.above ++ [t.site.schema], y⟩) :
    ∀ t ∈ x.trails above, motive t := by
  induction x using next_induction generalizing above with
  | step x ih =>
    intro t ht
    rw [trails_eq, List.mem_cons, List.mem_flatMap] at ht
    rcases ht with rfl | ⟨y, hy, ht⟩
    · exact root
    · exact ih y hy (next _ root y hy) t ht

theorem around_of_mem_trails {above : List Schema} {x : Site}
    (hx : x.around = .ofMessage? (above.findSome? Schema.override?)) :
    ∀ t ∈ x.trails above, t.site.around = .ofMessage? (t.above.findSome? Schema.override?) := by
  refine forall_mem_trails hx fun t ht y hy => ?_
  rw [around_of_mem_next hy, ht, Wording.orElse_ofMessage?, List.findSome?_append,
    List.findSome?_singleton]

theorem trails_subset {above : List Schema} {x : Site} :
    ∀ t ∈ x.trails above, t.site.trails t.above ⊆ x.trails above := by
  refine forall_mem_trails (List.Subset.refl _) fun t ht y hy u hu => ht ?_
  rw [trails_eq, List.mem_cons, List.mem_flatMap]
  exact .inr ⟨y, hy, hu⟩

end Site

namespace Schema

/-- `Descends s v above t p x?`: the check of `v` by `s` comes to apply `t` to `x?` at `p`, and the
nodes on its way, from `s` on, are `above`. -/
inductive Descends (s : Schema) (v : Value) :
    List Schema → Schema → Path → Option Value → Prop where
  | root : Descends s v [] s [] (some v)
  | step {above : List Schema} {t u : Schema} {p q : Path} {x : Value} {y? : Option Value}
      (h : Descends s v above t p (some x)) (hs : Step t x q u y?) :
      Descends s v (above ++ [t]) u (p ++ q) y?

theorem descends_of_mem_trails (s : Schema) (v : Value) :
    ∀ t ∈ (Site.root s v).trails [],
      Descends s v t.above t.site.schema t.site.path t.site.value? := by
  refine Site.forall_mem_trails .root fun t ht y hy => ?_
  unfold Site.next at hy
  split at hy
  · next u hu =>
    obtain ⟨c, hc, rfl⟩ := List.mem_map.1 hy
    rw [hu] at ht
    exact ht.step (step_of_mem_children hc)
  · cases hy

theorem exists_mem_trails_of_descends {s t : Schema} {v : Value} {above : List Schema} {p : Path}
    {x? : Option Value} (h : Descends s v above t p x?) :
    ∃ w, (⟨above, t, p, x?, w⟩ : Trail) ∈ (Site.root s v).trails [] := by
  induction h with
  | root =>
    refine ⟨.standard, ?_⟩
    rw [Site.trails_eq]
    exact .head _
  | @step above t u p q x y? _ hs ih =>
    obtain ⟨w, hx⟩ := ih
    obtain ⟨w', hc⟩ := mem_children_of_step hs
    have hn : (⟨t, p, some x, w⟩ : Site).within ⟨u, q, y?, w'⟩ ∈ (⟨t, p, some x, w⟩ : Site).next :=
      List.mem_map_of_mem hc
    refine ⟨w.orElse w', Site.trails_subset _ hx ?_⟩
    rw [Site.trails_eq, List.mem_cons, List.mem_flatMap]
    refine .inr ⟨_, hn, ?_⟩
    rw [Site.trails_eq]
    exact .head _

theorem descends_iff (s t : Schema) (v : Value) (above : List Schema) (p : Path)
    (x? : Option Value) : Descends s v above t p x? ↔
      ∃ w, (⟨above, t, p, x?, w⟩ : Trail) ∈ (Site.root s v).trails [] := by
  constructor
  · exact exists_mem_trails_of_descends
  · rintro ⟨w, h⟩
    exact descends_of_mem_trails s v _ h

theorem findings_eq_filterMap_trails (s : Schema) (v : Value) :
    s.findings v = ((Site.root s v).trails []).filterMap Trail.finding? := by
  have haround := @Site.around_of_mem_trails [] (Site.root s v) rfl
  rw [findings_eq_filterMap_visits, ← Site.map_site_trails [], List.filterMap_map]
  exact List.filterMap_congr fun t ht => Trail.finding?_site (haround t ht)

theorem findings_withMessage {s : Schema} (hs : s.isIntersection = false) (m : Message) {v : Value}
    (hv : s.defect? v = none) : (s.withMessage m).findings v = s.findings v := by
  have hd : (s.withMessage m).defect? v = s.defect? v := by cases s <;> rfl
  have hc : (s.withMessage m).children v = s.children v := by
    cases s with
    | both => cases hs
    | _ => cases v <;> rfl
  rw [findings_eq_children, findings_eq_children, hd, hc, hv]
  rfl

def parts : Schema → List Schema
  | category _ _ | literal _ _ | anyArray _ | size _ _ _ => []
  | arrayOf e _ | each e _ => [e]
  | tuple ss _ | anyOf ss _ => ss
  | record k e _ => [k, e]
  | fields ds _ => ds.map Prod.snd
  | both l r _ => [l, r]

theorem parts_induction {motive : Schema → Prop}
    (step : ∀ s, (∀ t ∈ s.parts, motive t) → motive s) (s : Schema) : motive s := by
  induction s with
  | category | literal | anyArray | size => exact step _ fun _ ht => nomatch ht
  | arrayOf e w ih | each e w ih => exact step _ (List.forall_mem_singleton.2 ih)
  | tuple ss w ih | anyOf ss w ih => exact step _ ih
  | record k e w ihk ihe | both k e w ihk ihe =>
    exact step _ (List.forall_mem_cons.2 ⟨ihk, List.forall_mem_singleton.2 ihe⟩)
  | fields ds w ih => exact step _ (List.forall_mem_map.2 ih)

inductive Worded (ok : Wording → Prop) : Schema → Prop where
  | node {s : Schema} (own : ok s.ownWording) (parts : ∀ t ∈ s.parts, Worded ok t) : Worded ok s

theorem worded_of_forall {ok : Wording → Prop} (h : ∀ w, ok w) (s : Schema) : s.Worded ok := by
  induction s using parts_induction with
  | step s ih => exact .node (h _) ih

theorem mem_parts_of_step {s t : Schema} {v : Value} {q : Path} {y? : Option Value}
    (h : Step s v q t y?) : t ∈ s.parts := by
  cases h with
  | item | element | character | name | left => exact .head _
  | entry | right => exact .tail _ (.head _)
  | position h => exact List.mem_of_getElem? h
  | @field ds _ _ name _ _ hs =>
    have hd := Table.mem_of_mem_lastDeclared ((Table.mem_lastDeclared ds name t).2 hs)
    exact List.mem_map_of_mem (f := Prod.snd) hd

theorem Worded.own {ok : Wording → Prop} {s : Schema} (h : s.Worded ok) : ok s.ownWording := by
  cases h with
  | node own _ => exact own

theorem Worded.part {ok : Wording → Prop} {s t : Schema} (h : s.Worded ok) (ht : t ∈ s.parts) :
    t.Worded ok := by
  cases h with
  | node _ parts => exact parts t ht

theorem Worded.wording {ok : Wording → Prop} {s : Schema} (h : s.Worded ok) : ok s.wording := by
  induction s with
  | both l r w ihl _ =>
    cases w with
    | standard => exact ihl (h.part (.head _))
    | custom m => exact h.own
  | _ => exact h.own

theorem Worded.orElse_override {ok : Wording → Prop} {s : Schema} (h : s.Worded ok) {w : Wording}
    (hw : ok w) : ok ((Wording.ofMessage? s.override?).orElse w) := by
  cases s with
  | both l r w' =>
    cases w' with
    | standard => exact hw
    | custom m => exact h.own
  | _ => exact hw

theorem Worded.findings {ok : Wording → Prop} {s : Schema} {v : Value} (h : s.Worded ok) :
    ∀ f ∈ s.findings v, ok f.wording := by
  induction s, v using child_induction with
  | step s v ih =>
    intro f hf
    rw [findings_eq_children, List.mem_append, Option.mem_toList, Option.map_eq_some_iff,
      List.mem_flatMap] at hf
    rcases hf with ⟨d, _, rfl⟩ | ⟨c, hc, hf⟩
    · exact h.wording
    · have hpart := h.part (mem_parts_of_step (step_of_mem_children hc))
      have hlift : ∃ g, ok g.wording ∧ c.lift g = f := by
        unfold Site.findings at hf
        cases hv : c.value? with
        | none =>
          simp only [hv, List.mem_singleton] at hf
          exact ⟨c.schema.missing, hpart.wording, hf.symm⟩
        | some x =>
          simp only [hv, List.mem_map] at hf
          obtain ⟨g, hg, e⟩ := hf
          exact ⟨g, ih c hc x hv hpart g hg, e⟩
      obtain ⟨g, hg, rfl⟩ := hlift
      change ok (c.around.orElse g.wording)
      rw [around_of_mem_children hc]
      exact h.orElse_override hg

/-- What is found at a site is worded as its trail tells, where the trails are those that single
steps leave. And a message of a node other than an intersection words nothing that is found below
it: if the node finds nothing itself, the message changes nothing. -/
theorem findings_worded_by_trail :
    (∀ (s : Schema) (v : Value),
      s.findings v = ((Site.root s v).trails []).filterMap fun t =>
        t.site.defect?.map fun d => ⟨d, t.wording⟩) ∧
    (∀ (s t : Schema) (v : Value) (above : List Schema) (p : Path) (x? : Option Value),
      Descends s v above t p x? ↔
        ∃ w, (⟨above, t, p, x?, w⟩ : Trail) ∈ (Site.root s v).trails []) ∧
    ∀ (s : Schema) (m : Message) (v : Value), s.isIntersection = false → s.defect? v = none →
      (s.withMessage m).findings v = s.findings v := by
  refine ⟨findings_eq_filterMap_trails, descends_iff, fun s m v hs hv => ?_⟩
  exact findings_withMessage hs m hv

theorem findings_worded_by_trail_in_pair :
    let number : Schema := category .number (.custom (.fixed "a number"))
    let pair : Schema := tuple [category .string .standard, number] .standard
    let v : Value := .array [.null]
    pair.isIntersection = false ∧ pair.defect? v = none ∧
      (pair.withMessage (.fixed "a pair")).findings v = pair.findings v :=
  ⟨rfl, rfl, findings_worded_by_trail.2.2 _ _ _ rfl rfl⟩

end Schema
end Conform
