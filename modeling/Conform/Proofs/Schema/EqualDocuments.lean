import Conform.Proofs.Schema.Correspondence
import Conform.Proofs.Schema.Places
import Conform.Proofs.Value.Equality

set_option autoImplicit false

namespace Conform

section Lists

variable {α β γ δ : Type}

/-- The members of the lists can be paired so that `R` relates those in a pair. -/
def Matched (R : α → β → Prop) (xs : List α) (ys : List β) : Prop :=
  ∃ zs, List.Forall₂ R xs zs ∧ zs.Perm ys

variable {R : α → β → Prop} {P : γ → δ → Prop} {xs : List α} {ys : List β}

theorem matched_of_forall₂ (h : List.Forall₂ R xs ys) : Matched R xs ys := ⟨ys, h, .refl ys⟩

theorem Matched.length_eq (h : Matched R xs ys) : xs.length = ys.length := by
  obtain ⟨zs, hzs, hperm⟩ := h
  rw [hzs.length_eq, hperm.length_eq]

theorem Matched.isEmpty_eq (h : Matched R xs ys) : xs.isEmpty = ys.isEmpty := by
  rw [Bool.eq_iff_iff, List.isEmpty_iff_length_eq_zero, List.isEmpty_iff_length_eq_zero,
    h.length_eq]

theorem Matched.append {xs' : List α} {ys' : List β} (h : Matched R xs ys)
    (h' : Matched R xs' ys') : Matched R (xs ++ xs') (ys ++ ys') := by
  obtain ⟨zs, hzs, hperm⟩ := h
  obtain ⟨zs', hzs', hperm'⟩ := h'
  exact ⟨zs ++ zs', List.rel_append hzs hzs', hperm.append hperm'⟩

theorem Matched.map {f : α → γ} {g : β → δ} (h : Matched R xs ys)
    (hfg : ∀ x y, R x y → P (f x) (g y)) : Matched P (xs.map f) (ys.map g) := by
  obtain ⟨zs, hzs, hperm⟩ := h
  refine ⟨zs.map g, ?_, hperm.map g⟩
  rw [List.forall₂_map_left_iff, List.forall₂_map_right_iff]
  exact hzs.imp hfg

theorem Matched.flatMap {f : α → List γ} {g : β → List δ} (h : Matched R xs ys)
    (hfg : ∀ x ∈ xs, ∀ y, R x y → Matched P (f x) (g y)) :
    Matched P (xs.flatMap f) (ys.flatMap g) := by
  obtain ⟨zs, hzs, hperm⟩ := h
  have hflat : Matched P (xs.flatMap f) (zs.flatMap g) := by
    clear hperm
    induction hzs with
    | nil => exact matched_of_forall₂ .nil
    | @cons x z xs zs hxz _ ih =>
      have htail := ih fun u hu => hfg u (List.mem_cons_of_mem x hu)
      rw [List.flatMap_cons, List.flatMap_cons]
      exact (hfg x (.head xs) z hxz).append htail
  obtain ⟨us, hus, hperm'⟩ := hflat
  exact ⟨us, hus, hperm'.trans (hperm.flatMap_right g)⟩

end Lists

namespace Finding

/-- Findings that differ at most in what stands there, and in this are equal as documents. -/
structure Alike (f g : Finding) : Prop where
  path : f.path = g.path
  kind : f.kind = g.kind
  expected : f.expected = g.expected
  wording : f.wording = g.wording
  actual : f.actual.equal g.actual = true

theorem Alike.lift {f g : Finding} (h : f.Alike g) (t : Schema) (p : Path) (a : Wording)
    (x? y? : Option Value) :
    ((⟨t, p, x?, a⟩ : Site).lift f).Alike ((⟨t, p, y?, a⟩ : Site).lift g) where
  path := congrArg (p ++ ·) h.path
  kind := h.kind
  expected := h.expected
  wording := congrArg a.orElse h.wording
  actual := h.actual

end Finding

namespace Value

theorem Distinct.part {v w : Value} {s : Segment} (hv : v.Distinct) (h : v.Part s w) :
    w.Distinct := by
  cases h with
  | entry h => cases hv with | object _ hv => exact hv _ h
  | name h => exact .string _
  | item h => cases hv with | array hv => exact hv _ (List.mem_of_getElem? h)
  | character h => exact .string _

theorem count?_eq_of_equal {v w : Value} (h : v.equal w = true) : v.count? = w.count? := by
  cases v with
  | array xs =>
    cases w with
    | array ys => exact congrArg some ((equal_array_iff xs ys).1 h).length_eq
    | _ => simp [equal] at h
  | _ => cases w <;> simp_all [equal, count?]

/-- The same document, except that the entries of an object may stand in another order. -/
inductive Reordered : Value → Value → Prop where
  | refl (v : Value) : Reordered v v
  | object {xs ys : List (String × Value)} (h : xs.Perm ys) (names : (xs.map Prod.fst).Nodup) :
      Reordered (object xs) (object ys)

theorem rel_getElem? {xs ys : List Value} {R : Value → Value → Prop} (h : List.Forall₂ R xs ys)
    (i : Nat) : Option.Rel R xs[i]? ys[i]? := by
  induction h generalizing i with
  | nil => exact .none
  | cons hxy _ ih =>
    cases i with
    | zero => exact .some hxy
    | succ i => exact ih i

theorem exists_reordered_of_equal {v w : Value} (hv : v.Distinct) (h : v.equal w = true) :
    ∃ u, v.Corresponds (fun _ x y => x.equal y = true) u ∧ u.Reordered w := by
  cases v with
  | object xs =>
    cases w with
    | object ys =>
      cases hv with
      | object names _ =>
        have hnames : ((inOrderOf xs ys).map Prod.fst).Nodup := by
          rw [inOrderOf, List.map_map]
          exact names
        exact ⟨_, .object (forall₂_inOrderOf h), .object (inOrderOf_perm names h) hnames⟩
    | _ => simp [equal] at h
  | array xs =>
    cases w with
    | array ys => exact ⟨_, .array (rel_getElem? ((equal_array_iff xs ys).1 h)), .refl _⟩
    | _ => simp [equal] at h
  | number m =>
    cases w with
    | number n => exact ⟨_, .number m n, .refl _⟩
    | _ => simp [equal] at h
  | null =>
    cases w with
    | null => exact ⟨_, .same _, .refl _⟩
    | _ => simp [equal] at h
  | bool a =>
    cases w with
    | bool b =>
      rw [equal, beq_iff_eq] at h
      exact ⟨_, .same _, h ▸ .refl _⟩
    | _ => simp [equal] at h
  | string a =>
    cases w with
    | string b =>
      rw [equal, beq_iff_eq] at h
      exact ⟨_, .same _, h ▸ .refl _⟩
    | _ => simp [equal] at h

end Value

namespace Schema

theorem distinct_of_mem_children {s : Schema} {v x : Value} {c : Site} (hv : v.Distinct)
    (hc : c ∈ s.children v) (hx : c.value? = some x) : x.Distinct := by
  rcases step_some (step_of_mem_children hc) hx with ⟨_, rfl⟩ | ⟨_, _, hpart⟩
  · exact hv
  · exact hv.part hpart

theorem distinct_actual {s : Schema} {v : Value} {d : Defect} (hv : v.Distinct)
    (hd : s.defect? v = some d) : d.actual.Distinct := by
  have h := (describes_of_defect? hd).2
  unfold Defect.Describes at h
  split at h
  · rw [h.1]
    exact .string _
  · rw [h.1]
    exact .string _
  · rw [h.1]
    exact hv
  · rw [h.1]
    exact hv
  · obtain ⟨n, _, _, hn, _⟩ := h
    rw [hn]
    exact .number _
  · obtain ⟨n, _, _, hn, _⟩ := h
    rw [hn]
    exact .number _

def own (s : Schema) (v : Value) : List Finding :=
  ((s.defect? v).map fun d => ⟨d, s.wording⟩).toList

theorem own_alike_of_eq {s : Schema} {v w : Value} (hv : v.Distinct)
    (h : s.defect? v = s.defect? w) : List.Forall₂ Finding.Alike (s.own v) (s.own w) := by
  unfold own
  rw [← h]
  cases hd : s.defect? v with
  | none => exact .nil
  | some d => exact .cons ⟨rfl, rfl, rfl, rfl, Value.equal_refl (distinct_actual hv hd)⟩ .nil

theorem own_alike {s : Schema} {v w : Value} (hv : v.Distinct) (h : v.equal w = true)
    (hparts : ∀ t ∈ s.parts, t.accepts v = t.accepts w) :
    List.Forall₂ Finding.Alike (s.own v) (s.own w) := by
  have hcategory := Value.category_eq_of_equal h
  cases s with
  | literal l a =>
    simp only [own, defect?, Value.agrees_congr hv h l]
    split
    · exact .nil
    · exact .cons ⟨rfl, rfl, rfl, rfl, h⟩ .nil
  | anyOf bs a =>
    have hbranch : (∃ b ∈ bs, b.accepts v = true) ↔ ∃ b ∈ bs, b.accepts w = true :=
      exists_congr fun b => and_congr_right fun hb => by rw [hparts b hb]
    simp only [own, defect?, hbranch]
    split
    · exact .nil
    · exact .cons ⟨rfl, rfl, rfl, rfl, h⟩ .nil
  | size b limit a =>
    refine own_alike_of_eq hv ?_
    simp only [defect?, Value.count?_eq_of_equal h, Defect.shape, hcategory]
  | _ =>
    refine own_alike_of_eq hv ?_
    simp only [defect?, Defect.shape, hcategory]

theorem children_perm {v w : Value} (s : Schema) (h : v.Reordered w)
    (hs : s.isIntersection = false) : (s.children v).Perm (s.children w) := by
  cases h with
  | refl => exact .refl _
  | @object xs ys h names =>
    cases s with
    | both => cases hs
    | record k e a => exact h.flatMap_right _
    | fields ds a =>
      simp only [children, Table.lookup_eq_of_perm h names]
      exact .refl _
    | _ => exact .refl _

theorem children_matched (s : Schema) {v w : Value} (hv : v.Distinct) (h : v.equal w = true) :
    Matched (Site.Corresponds fun _ x y => x.equal y = true) (s.children v) (s.children w) := by
  cases hs : s.isIntersection with
  | true =>
    cases s with
    | both l r a =>
      exact matched_of_forall₂ (.cons (.related l a h) (.cons (.related r a h) .nil))
    | _ => cases hs
  | false =>
    obtain ⟨u, hvu, huw⟩ := Value.exists_reordered_of_equal hv h
    have hchildren := s.children_corresponds hvu fun htrue => by simp [hs] at htrue
    exact ⟨s.children u, hchildren, s.children_perm huw hs⟩

theorem site_matched {c d : Site} (h : Site.Corresponds (fun _ x y => x.equal y = true) c d)
    (hdistinct : ∀ x, c.value? = some x → x.Distinct)
    (hvalue : ∀ x y, x.Distinct → x.equal y = true →
      Matched Finding.Alike (c.schema.findings x) (c.schema.findings y)) :
    Matched Finding.Alike c.findings d.findings := by
  cases h with
  | same =>
    obtain ⟨t, p, x?, a⟩ := c
    cases x? with
    | none =>
      have hactual := Value.equal_refl (.string "undefined")
      exact matched_of_forall₂ (.cons ⟨rfl, rfl, rfl, rfl, hactual⟩ .nil)
    | some x =>
      have hx : x.Distinct := hdistinct x rfl
      exact (hvalue x x hx (Value.equal_refl hx)).map fun _ _ hfg => hfg.lift t p a _ _
  | @related t p a x y hxy =>
    exact (hvalue x y (hdistinct x rfl) hxy).map fun _ _ hfg => hfg.lift t p a _ _

theorem findings_matched (s : Schema) {v w : Value} (hv : v.Distinct) (h : v.equal w = true) :
    Matched Finding.Alike (s.findings v) (s.findings w) := by
  induction s using parts_induction generalizing v w with
  | step s ih =>
    have haccepts : ∀ t ∈ s.parts, t.accepts v = t.accepts w := by
      intro t ht
      rw [accepts_eq_isEmpty, accepts_eq_isEmpty]
      exact (ih t ht hv h).isEmpty_eq
    have hown := matched_of_forall₂ (own_alike hv h haccepts)
    rw [findings_eq_children, findings_eq_children]
    refine hown.append ((s.children_matched hv h).flatMap fun c hc d hcd => ?_)
    have hpart : c.schema ∈ s.parts := mem_parts_of_step (step_of_mem_children hc)
    exact site_matched hcd (fun x hx => distinct_of_mem_children hv hc hx)
      fun x y hx hxy => ih c.schema hpart hx hxy

/-- Equal documents are accepted alike, and what is found in them can be paired so that in a pair
the places, the kinds, the expectations and the wordings are the same and the actual values equal. -/
theorem findings_of_equal_documents (s : Schema) (v w : Value) (hv : v.Distinct)
    (h : v.equal w = true) :
    s.accepts v = s.accepts w ∧ ∃ gs, List.Forall₂ Finding.Alike (s.findings v) gs ∧
      gs.Perm (s.findings w) := by
  have hmatched := s.findings_matched hv h
  refine ⟨?_, hmatched⟩
  rw [accepts_eq_isEmpty, accepts_eq_isEmpty]
  exact hmatched.isEmpty_eq

/-- The two zeros under one name, and another entry before or after them. -/
theorem findings_of_equal_documents_with_zeros :
    let s : Schema :=
      .record (.size .atMost 1 .standard) (.literal (.bool true) .standard) .standard
    let v : Value := .object [("x", .number (.float (.zero false))), ("y", .array [.null])]
    let w : Value := .object [("y", .array [.null]), ("x", .number (.float (.zero true)))]
    v.Distinct ∧ v.equal w = true ∧
      (s.findings v).map (·.path) = [[.key "x"], [.key "y"]] ∧
      (s.findings w).map (·.path) = [[.key "y"], [.key "x"]] ∧
      s.accepts v = s.accepts w ∧
      ∃ gs, List.Forall₂ Finding.Alike (s.findings v) gs ∧ gs.Perm (s.findings w) := by
  intro s v w
  have hitems : (Value.array [.null]).Distinct := .array (List.forall_mem_singleton.2 .null)
  have hv : v.Distinct :=
    .object (by decide) (List.forall_mem_cons.2 ⟨.number _, List.forall_mem_singleton.2 hitems⟩)
  have h : v.equal w = true := by decide
  exact ⟨hv, h, by decide, by decide, findings_of_equal_documents s v w hv h⟩

end Schema
end Conform
