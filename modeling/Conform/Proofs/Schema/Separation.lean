import Conform.Proofs.Schema.Declarations
import Conform.Proofs.Schema.Places
import Conform.Proofs.Value.Replacement
import Mathlib.Data.List.Pairwise

set_option autoImplicit false

namespace Conform

theorem pairwise_lt_zipIdx {α : Type} (xs : List α) : xs.zipIdx.Pairwise fun x y => x.2 < y.2 := by
  have hindices : (xs.zipIdx.map Prod.snd).Pairwise (· < ·) := by
    rw [List.zipIdx_map_snd]
    exact List.pairwise_lt_range'
  exact List.pairwise_map.1 hindices

namespace Path

theorem cons_apart_cons_of_ne {s t : Segment} (h : s ≠ t) : Path.Apart [s] [t] := by
  constructor
  · exact fun hp => h (List.cons_prefix_cons.1 hp).1
  · exact fun hp => h (List.cons_prefix_cons.1 hp).1.symm

theorem Apart.symm {p q : Path} (h : p.Apart q) : q.Apart p := ⟨h.2, h.1⟩

theorem Apart.append {p q : Path} (h : p.Apart q) (p' q' : Path) :
    Path.Apart (p ++ p') (q ++ q') := by
  have hcomparable : ∀ r : Path, p <+: r → ¬ q <+: r := fun r hp hq =>
    (List.prefix_or_prefix_of_prefix hp hq).elim h.1 h.2
  constructor
  · intro hprefix
    exact hcomparable (q ++ q') ((List.prefix_append p p').trans hprefix) (List.prefix_append q q')
  · intro hprefix
    exact hcomparable (p ++ p') (List.prefix_append p p') ((List.prefix_append q q').trans hprefix)

theorem pairwise_apart_zipIdx {α : Type} (items : List α) :
    items.zipIdx.Pairwise fun x y => Path.Apart [.index x.2] [.index y.2] := by
  refine (pairwise_lt_zipIdx items).imp fun hlt => ?_
  exact cons_apart_cons_of_ne fun h => Nat.ne_of_lt hlt (Segment.index.inj h)

end Path

namespace Schema

/-- There is neither an intersection nor a record outside the branches of a choice. A declaration
that has been replaced does not count. -/
inductive VisitsOnce : Schema → Prop where
  | category (c : Category) (w : Wording) : VisitsOnce (category c w)
  | literal (l : Value) (w : Wording) : VisitsOnce (literal l w)
  | anyArray (w : Wording) : VisitsOnce (anyArray w)
  | arrayOf {e : Schema} (w : Wording) (h : VisitsOnce e) : VisitsOnce (arrayOf e w)
  | tuple {ps : List Schema} (w : Wording) (h : ∀ p ∈ ps, VisitsOnce p) : VisitsOnce (tuple ps w)
  | fields {ds : List (String × Schema)} (w : Wording)
      (h : ∀ d ∈ Table.lastDeclared ds, VisitsOnce d.2) : VisitsOnce (fields ds w)
  | each {e : Schema} (w : Wording) (h : VisitsOnce e) : VisitsOnce (each e w)
  | size (b : SizeBound) (limit : Nat) (w : Wording) : VisitsOnce (size b limit w)
  | anyOf (bs : List Schema) (w : Wording) : VisitsOnce (anyOf bs w)

theorem VisitsOnce.step {s t : Schema} {v : Value} {q : Path} {y? : Option Value}
    (h : s.VisitsOnce) (hs : Step s v q t y?) : t.VisitsOnce := by
  cases hs with
  | item => cases h with | arrayOf _ he => exact he
  | element | character => cases h with | each _ he => exact he
  | position hp => cases h with | tuple _ hps => exact hps t (List.mem_of_getElem? hp)
  | field hd =>
    cases h with
    | fields _ hds => exact hds (_, t) ((Table.mem_lastDeclared _ _ _).2 hd)
  | name | entry | left | right => cases h

theorem children_apart {s : Schema} (h : s.VisitsOnce) (v : Value) :
    (s.children v).Pairwise fun c d => c.path.Apart d.path := by
  cases h with
  | category | literal | anyArray | size | anyOf => exact .nil
  | arrayOf =>
    cases v with
    | array items => exact List.pairwise_map.2 (Path.pairwise_apart_zipIdx items)
    | _ => exact .nil
  | @tuple ps =>
    cases v with
    | array => exact List.pairwise_map.2 (Path.pairwise_apart_zipIdx ps)
    | _ => exact .nil
  | each =>
    cases v with
    | array items => exact List.pairwise_map.2 (Path.pairwise_apart_zipIdx items)
    | string text => exact List.pairwise_map.2 (Path.pairwise_apart_zipIdx text.toList)
    | _ => exact .nil
  | @fields ds =>
    cases v with
    | object entries =>
      have hnames := List.pairwise_map.1 (Table.nodup_lastDeclared ds)
      refine List.Pairwise.filterMap _ (fun d e hne c hc c' hc' => ?_) hnames
      obtain ⟨x, -, rfl⟩ := Option.map_eq_some_iff.1 hc
      obtain ⟨y, -, rfl⟩ := Option.map_eq_some_iff.1 hc'
      exact Path.cons_apart_cons_of_ne fun h => hne (Segment.key.inj h)
    | _ => exact .nil

theorem children_eq_nil_of_defect? {s : Schema} {v : Value} {d : Defect}
    (h : s.defect? v = some d) : s.children v = [] := by
  cases s with
  | category | literal | anyArray | size | anyOf => rfl
  | arrayOf | tuple =>
    cases v with
    | array => simp [defect?, Value.category] at h
    | _ => rfl
  | record | fields =>
    cases v with
    | object => simp [defect?, Value.category] at h
    | _ => rfl
  | each =>
    cases v with
    | array | string => simp [defect?, Value.category] at h
    | _ => rfl
  | both => cases h

theorem findings_eq_singleton {s : Schema} {v : Value} {d : Defect} (h : s.defect? v = some d) :
    s.findings v = [⟨d, s.wording⟩] := by
  rw [findings_eq_children, h, children_eq_nil_of_defect? h]
  rfl

end Schema

theorem Site.prefix_of_mem_findings {c : Site} {f : Finding} (h : f ∈ c.findings) :
    ∃ p, f.path = c.path ++ p := by
  unfold Site.findings at h
  cases hv : c.value? with
  | none =>
    rw [hv] at h
    rw [List.mem_singleton.1 h]
    exact ⟨_, rfl⟩
  | some x =>
    rw [hv] at h
    obtain ⟨g, -, rfl⟩ := List.mem_map.1 h
    exact ⟨g.path, rfl⟩

namespace Schema

theorem findings_apart {s : Schema} (h : s.VisitsOnce) (v : Value) :
    (s.findings v).Pairwise fun f g => f.path.Apart g.path := by
  induction s, v using child_induction with
  | step s v ih =>
    cases hd : s.defect? v with
    | some d =>
      rw [findings_eq_singleton hd]
      exact List.pairwise_singleton _ _
    | none =>
      rw [findings_eq_children, hd]
      change List.Pairwise _ ((s.children v).flatMap Site.findings)
      rw [List.pairwise_flatMap]
      constructor
      · -- Inside a child all paths continue the one that leads to it.
        intro c hc
        unfold Site.findings
        cases hx : c.value? with
        | none => exact List.pairwise_singleton _ _
        | some x =>
          have hinside := ih c hc x hx (h.step (step_of_mem_children hc))
          refine List.pairwise_map.2 (hinside.imp fun hfg => ?_)
          exact (Path.append_apart_append_iff c.path _ _).2 hfg
      · refine (children_apart h v).imp fun hcd f hf g hg => ?_
        obtain ⟨p, hp⟩ := Site.prefix_of_mem_findings hf
        obtain ⟨q, hq⟩ := Site.prefix_of_mem_findings hg
        rw [hp, hq]
        exact hcd.append p q

/-- With intersections and records only inside the branches of choices, no two findings stand in one
place, and none in a place inside that of another. -/
theorem findings_stand_apart {s : Schema} (h : s.VisitsOnce) (v : Value) :
    ((s.findings v).map (·.path)).Nodup ∧
      ∀ f ∈ s.findings v, ∀ g ∈ s.findings v, f.path <+: g.path → f = g := by
  have hapart := findings_apart h v
  have : Std.Symm fun f g : Finding => f.path.Apart g.path := ⟨fun _ _ hfg => hfg.symm⟩
  constructor
  · refine List.pairwise_map.2 (hapart.imp fun hfg heq => hfg.1 ?_)
    rw [heq]
  · intro f hf g hg hprefix
    by_contra hne
    exact (hapart.forall hf hg hne).1 hprefix

/-- Fields beside a string and a missing position, with a field that has been declared again and a
choice that would find two things in one place. -/
theorem findings_stand_apart_in_tuple :
    let c (x : Category) : Schema := .category x .standard
    let twice : Schema := .both (c .string) (.record (c .number) (c .number) .standard) .standard
    let s : Schema := .tuple [.fields [("a", twice), ("b", .anyOf [twice, c .string] .standard),
      ("a", .arrayOf (c .string) .standard)] .standard, .each (c .number) .standard, c .null]
        .standard
    let v : Value := .array [.object [("b", .object [("k", .null)]),
      ("a", .array [.null, .string "x", .bool true])], .string "yz"]
    s.VisitsOnce ∧
      (s.findings v).map (·.path) =
        [[.index 0, .key "a", .index 0], [.index 0, .key "a", .index 2], [.index 0, .key "b"],
          [.index 1, .index 0], [.index 1, .index 1], [.index 2]] ∧
      ((s.findings v).map (·.path)).Nodup ∧
      ∀ f ∈ s.findings v, ∀ g ∈ s.findings v, f.path <+: g.path → f = g := by
  intro c twice s v
  have hs : s.VisitsOnce := by
    refine .tuple _ (List.forall_mem_cons.2 ⟨.fields _ ?_, List.forall_mem_cons.2
      ⟨.each _ (.category _ _), List.forall_mem_singleton.2 (.category _ _)⟩⟩)
    exact List.forall_mem_cons.2 ⟨.arrayOf _ (.category _ _),
      List.forall_mem_singleton.2 (.anyOf _ _)⟩
  exact ⟨hs, by decide, findings_stand_apart hs v⟩

end Schema
end Conform
