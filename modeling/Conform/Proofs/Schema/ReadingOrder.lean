import Conform.Proofs.Schema.EqualDocuments
import Conform.Proofs.Schema.Separation
import Conform.Proofs.Value.ReadingOrder

set_option autoImplicit false

namespace Conform

section Lists

variable {α β : Type} {R Q : α → α → Prop}

/-- Each member is related by `R` to those that follow, or by `Q` to the next one. -/
inductive Ascends (R Q : α → α → Prop) : List α → Prop where
  | nil : Ascends R Q []
  | cons {a : α} {as : List α} (next : ∀ b ∈ as.head?, R a b ∨ Q a b)
      (later : ∀ b ∈ as.tail, R a b) (h : Ascends R Q as) : Ascends R Q (a :: as)

theorem ascends_singleton (a : α) : Ascends R Q [a] := .cons nofun nofun .nil

theorem Ascends.append {as bs : List α} (h : Ascends R Q as) (h' : Ascends R Q bs)
    (hR : ∀ a ∈ as, ∀ b ∈ bs, R a b) : Ascends R Q (as ++ bs) := by
  induction h with
  | nil => exact h'
  | @cons a as next later _ ih =>
    have htail := ih fun b hb => hR b (.tail a hb)
    cases as with
    | nil =>
      have hall : ∀ b ∈ bs, R a b := hR a (.head _)
      exact .cons (fun b hb => .inl (hall b (List.mem_of_mem_head? hb)))
        (fun b hb => hall b (List.mem_of_mem_tail hb)) htail
    | cons a' as =>
      refine .cons next (fun b hb => ?_) htail
      rcases List.mem_append.1 hb with hb | hb
      · exact later b hb
      · exact hR a (.head _) b hb

theorem Ascends.flatMap {f : β → List α} {xs : List β} (h : ∀ x ∈ xs, Ascends R Q (f x))
    (hR : xs.Pairwise fun x y => ∀ a ∈ f x, ∀ b ∈ f y, R a b) : Ascends R Q (xs.flatMap f) := by
  induction hR with
  | nil => exact .nil
  | @cons x xs hx _ ih =>
    rw [List.flatMap_cons]
    refine (h x (.head _)).append (ih fun y hy => h y (.tail x hy)) fun a ha b hb => ?_
    obtain ⟨y, hy, hb⟩ := List.mem_flatMap.1 hb
    exact hx y hy a ha b hb

theorem Ascends.map {R' Q' : β → β → Prop} {f : α → β} {as : List α} (h : Ascends R Q as)
    (hR : ∀ a b, R a b → R' (f a) (f b)) (hQ : ∀ a b, Q a b → Q' (f a) (f b)) :
    Ascends R' Q' (as.map f) := by
  induction h with
  | nil => exact .nil
  | @cons a as next later _ ih =>
    refine .cons (fun b hb => ?_) (fun b hb => ?_) ih
    · rw [List.head?_map] at hb
      obtain ⟨c, hc, rfl⟩ := Option.map_eq_some_iff.1 hb
      exact (next c hc).imp (hR a c) (hQ a c)
    · rw [← List.map_tail] at hb
      obtain ⟨c, hc, rfl⟩ := List.mem_map.1 hb
      exact hR a c (later c hc)

theorem Ascends.pairwise {as : List α} (h : Ascends R Q as) :
    as.Pairwise fun a b => R a b ∨ Q a b := by
  induction h with
  | nil => exact .nil
  | @cons a as next later _ ih =>
    refine .cons (fun b hb => ?_) ih
    cases as with
    | nil => cases hb
    | cons a' as =>
      rcases List.mem_cons.1 hb with rfl | hb
      · exact next b rfl
      · exact .inl (later b hb)

theorem Ascends.eq_nil_of_not {before between after : List α} {a b : α}
    (h : Ascends R Q (before ++ a :: (between ++ b :: after))) (hR : ¬ R a b) :
    between = [] ∧ Q a b := by
  induction before with
  | nil =>
    cases h with
    | cons next later _ =>
      cases between with
      | nil => exact ⟨rfl, (next b rfl).resolve_left hR⟩
      | cons c between => exact absurd (later b (by simp)) hR
  | cons c before ih => cases h with | cons _ _ h => exact ih h

end Lists

namespace Schema

def TakesWhole : Schema → Prop
  | each _ _ | both _ _ _ => False
  | _ => True

/-- Outside the branches of a choice there are neither intersections nor declared fields, and a
record checks names as a whole. -/
inductive FollowsDocument : Schema → Prop where
  | category (c : Category) (w : Wording) : FollowsDocument (category c w)
  | literal (l : Value) (w : Wording) : FollowsDocument (literal l w)
  | anyArray (w : Wording) : FollowsDocument (anyArray w)
  | arrayOf {e : Schema} (w : Wording) (h : FollowsDocument e) : FollowsDocument (arrayOf e w)
  | tuple {ps : List Schema} (w : Wording) (h : ∀ p ∈ ps, FollowsDocument p) :
      FollowsDocument (tuple ps w)
  | record {k e : Schema} (w : Wording) (hk : k.TakesWhole) (h : FollowsDocument e) :
      FollowsDocument (record k e w)
  | each {e : Schema} (w : Wording) (h : FollowsDocument e) : FollowsDocument (each e w)
  | size (b : SizeBound) (limit : Nat) (w : Wording) : FollowsDocument (size b limit w)
  | anyOf (bs : List Schema) (w : Wording) : FollowsDocument (anyOf bs w)

/-- The findings are all that a record finds in the name of an entry, and in its value. -/
inductive FindsInEntry (s : Schema) (v : Value) (f g : Finding) : Prop where
  | intro {k e : Schema} {w : Wording} {p : Path} {entries : List (String × Value)}
      {x : String × Value} (record : Checks s v (record k e w) p (some (.object entries)))
      (entry : x ∈ entries) (hf : f.path = p ++ [.key x.1]) (hg : g.path = p ++ [.key x.1])
      (name : (⟨k, p ++ [.key x.1], some (.string x.1), .standard⟩ : Site).findings = [f])
      (value : (⟨e, p ++ [.key x.1], some x.2, .standard⟩ : Site).findings = [g])

theorem Checks.trans {s t u : Schema} {v x : Value} {y? : Option Value} {p q : Path}
    (h : Checks s v t p (some x)) (h' : Checks t x u q y?) : Checks s v u (p ++ q) y? := by
  induction h' with
  | root => rwa [List.append_nil]
  | step _ hs ih =>
    rw [← List.append_assoc]
    exact ih.step hs

theorem FindsInEntry.lift {s : Schema} {v x : Value} {c : Site} (hc : c ∈ s.children v)
    (hx : c.value? = some x) (haround : c.around = .standard) {f g : Finding}
    (h : c.schema.FindsInEntry x f g) : s.FindsInEntry v (c.lift f) (c.lift g) := by
  cases h with
  | @intro k e w p entries y record entry hf hg name value =>
    have hstep := step_of_mem_children hc
    rw [hx] at hstep
    have hchecks : Checks s v c.schema c.path (some x) := Checks.root.step hstep
    have hlift : ∀ (t : Schema) (z : Value) (h : Finding),
        (⟨t, p ++ [.key y.1], some z, .standard⟩ : Site).findings = [h] →
        (⟨t, (c.path ++ p) ++ [.key y.1], some z, .standard⟩ : Site).findings = [c.lift h] := by
      intro t z h hfind
      have hwithin := c.findings_within ⟨t, p ++ [.key y.1], some z, .standard⟩
      rw [hfind, Site.within, haround, ← List.append_assoc] at hwithin
      exact hwithin
    refine .intro (hchecks.trans record) entry ?_ ?_ (hlift k _ f name) (hlift e _ g value)
    · change c.path ++ f.path = _
      rw [hf, List.append_assoc]
    · change c.path ++ g.path = _
      rw [hg, List.append_assoc]

def InReadingOrder (s : Schema) (v : Value) (fs : List Finding) : Prop :=
  Ascends (fun f g => v.Precedes f.path g.path) (s.FindsInEntry v) fs

theorem children_string_eq_nil {k : Schema} (h : k.TakesWhole) (text : String) :
    k.children (.string text) = [] := by
  cases k with
  | each | both => exact h.elim
  | _ => rfl

theorem exists_segment_of_step {s t : Schema} {v : Value} {q : Path} {y? : Option Value}
    (hs : s.isIntersection = false) (h : Step s v q t y?) : ∃ a, q = [a] := by
  cases h with
  | left | right => cases hs
  | _ => exact ⟨_, rfl⟩

theorem FollowsDocument.isIntersection {s : Schema} (h : s.FollowsDocument) :
    s.isIntersection = false := by cases h <;> rfl

theorem FollowsDocument.exists_cons {s : Schema} (h : s.FollowsDocument) {v : Value}
    (hd : s.defect? v = none) {f : Finding} (hf : f ∈ s.findings v) : ∃ a p, f.path = a :: p := by
  rw [findings_eq_children, hd] at hf
  obtain ⟨c, hc, hf⟩ := List.mem_flatMap.1 hf
  obtain ⟨a, ha⟩ := exists_segment_of_step h.isIntersection (step_of_mem_children hc)
  obtain ⟨p, hp⟩ := Site.prefix_of_mem_findings hf
  rw [ha] at hp
  exact ⟨a, p, hp⟩

theorem InReadingOrder.site {s : Schema} {v x : Value} {c : Site} {a : Segment}
    (hs : s.isIntersection = false) (hc : c ∈ s.children v) (hx : c.value? = some x)
    (ha : c.path = [a]) (hpart : v.part? a = some x)
    (h : c.schema.InReadingOrder x (c.schema.findings x)) : s.InReadingOrder v c.findings := by
  have haround : c.around = .standard := by
    rw [around_of_mem_children hc]
    cases s with
    | both => cases hs
    | _ => rfl
  unfold Site.findings
  rw [hx]
  apply Ascends.map h
  · intro f g hfg
    change v.Precedes (c.path ++ f.path) (c.path ++ g.path)
    rw [ha]
    exact .within hpart hfg
  · intro f g hfg
    exact hfg.lift hc hx haround

theorem site_findings_eq_singleton {c : Site} {x : Value} {d : Defect} (hx : c.value? = some x)
    (h : c.schema.defect? x = some d) :
    c.findings = [c.lift ⟨d, c.schema.wording⟩] ∧
      (c.lift ⟨d, c.schema.wording⟩).path = c.path := by
  constructor
  · unfold Site.findings
    rw [hx]
    exact congrArg (List.map c.lift) (findings_eq_singleton h)
  · change c.path ++ d.path = c.path
    rw [(describes_of_defect? h).1, List.append_nil]

def isRecord : Schema → Bool
  | record _ _ _ => true
  | _ => false

def nameSite (k : Schema) (x : String × Value) : Site :=
  ⟨k, [.key x.1], some (.string x.1), .standard⟩

def entrySite (e : Schema) (x : String × Value) : Site := ⟨e, [.key x.1], some x.2, .standard⟩

theorem nameSite_findings_eq_nil {k : Schema} (hk : k.TakesWhole) {x : String × Value}
    (h : k.defect? (.string x.1) = none) : (nameSite k x).findings = [] := by
  have hnone : k.findings (.string x.1) = [] := by
    rw [findings_eq_children, h, children_string_eq_nil hk]
    rfl
  exact congrArg (List.map (nameSite k x).lift) hnone

theorem flatMap_findings_record (k e : Schema) (w : Wording) (entries : List (String × Value)) :
    ((record k e w).children (.object entries)).flatMap Site.findings =
      entries.flatMap fun x => (nameSite k x).findings ++ (entrySite e x).findings := by
  simp only [children, List.flatMap_assoc, List.flatMap_cons, List.flatMap_nil, List.append_nil]
  rfl

theorem inReadingOrder_entry {k e : Schema} (w : Wording) {entries : List (String × Value)}
    (hk : k.TakesWhole) (he : e.FollowsDocument) (names : (entries.map Prod.fst).Nodup)
    {x : String × Value} (hx : x ∈ entries) (h : e.InReadingOrder x.2 (e.findings x.2)) :
    (record k e w).InReadingOrder (.object entries)
      ((nameSite k x).findings ++ (entrySite e x).findings) := by
  have hpart : (Value.object entries).part? (.key x.1) = some x.2 :=
    (Table.lookup_eq_some_iff_mem names x.1 x.2).2 hx
  have hchild : entrySite e x ∈ (record k e w).children (.object entries) :=
    List.mem_flatMap.2 ⟨x, hx, .tail _ (.head _)⟩
  have hentry : (record k e w).InReadingOrder (.object entries) (entrySite e x).findings :=
    h.site rfl hchild rfl rfl hpart
  cases hd : k.defect? (.string x.1) with
  | none =>
    rw [nameSite_findings_eq_nil hk hd]
    exact hentry
  | some d =>
    obtain ⟨hname, hf⟩ := site_findings_eq_singleton (c := nameSite k x) rfl hd
    -- Only a value that is wrong as a whole is found under the path of its name.
    cases hd' : e.defect? x.2 with
    | some d' =>
      obtain ⟨hvalue, hg⟩ := site_findings_eq_singleton (c := entrySite e x) rfl hd'
      rw [hname, hvalue]
      refine .cons (fun g hg' => .inr ?_) nofun (ascends_singleton _)
      cases hg'
      exact .intro (p := []) .root hx hf hg hname hvalue
    | none =>
      rw [hname]
      refine (ascends_singleton _).append hentry fun f hf' g hg => ?_
      obtain ⟨g, hg', rfl⟩ := List.mem_map.1 hg
      obtain ⟨a, p, hp⟩ := he.exists_cons hd' hg'
      rw [List.mem_singleton.1 hf', hf]
      change Value.Precedes _ [.key x.1] (.key x.1 :: g.path)
      rw [hp]
      exact .within hpart (.inside _ a p)

theorem prefix_of_mem_findings_entry {k e : Schema} {x : String × Value} {f : Finding}
    (hf : f ∈ (nameSite k x).findings ++ (entrySite e x).findings) : ∃ p, f.path = .key x.1 :: p := by
  rcases List.mem_append.1 hf with hf | hf
  · exact Site.prefix_of_mem_findings hf
  · exact Site.prefix_of_mem_findings hf

theorem inReadingOrder_record {k e : Schema} (w : Wording) {entries : List (String × Value)}
    (hk : k.TakesWhole) (he : e.FollowsDocument) (names : (entries.map Prod.fst).Nodup)
    (h : ∀ x ∈ entries, e.InReadingOrder x.2 (e.findings x.2)) :
    (record k e w).InReadingOrder (.object entries)
      (((record k e w).children (.object entries)).flatMap Site.findings) := by
  have hearlier : entries.Pairwise fun x y =>
      (Value.object entries).Earlier (.key x.1) (.key y.1) := by
    rw [List.pairwise_iff_getElem]
    intro i j hi hj hij
    exact .key hij (by simp [hi]) (by simp [hj])
  -- The blocks are the entries and not the sites: the two sites of an entry have one path.
  rw [flatMap_findings_record]
  apply Ascends.flatMap
  · intro x hx
    exact inReadingOrder_entry w hk he names hx (h x hx)
  · refine hearlier.imp fun hxy f hf g hg => ?_
    obtain ⟨p, hp⟩ := prefix_of_mem_findings_entry hf
    obtain ⟨q, hq⟩ := prefix_of_mem_findings_entry hg
    rw [hp, hq]
    exact .earlier hxy p q

theorem children_earlier {s : Schema} (h : s.FollowsDocument) (hs : s.isRecord = false)
    (v : Value) : (s.children v).Pairwise fun c d =>
      ∃ a b, c.path = [a] ∧ d.path = [b] ∧ v.Earlier a b := by
  have hindexed : ∀ {α : Type} (xs : List α) (f : α × Nat → Site),
      (∀ x, (f x).path = [.index x.2]) →
      (xs.zipIdx.map f).Pairwise fun c d => ∃ a b, c.path = [a] ∧ d.path = [b] ∧ v.Earlier a b := by
    intro α xs f hf
    refine List.pairwise_map.2 ((pairwise_lt_zipIdx xs).imp fun {x y} hxy => ?_)
    exact ⟨.index x.2, .index y.2, hf x, hf y, .index v hxy⟩
  cases h with
  | category | literal | anyArray | size | anyOf => exact .nil
  | record => cases hs
  | arrayOf | tuple =>
    cases v with
    | array => exact hindexed _ _ fun _ => rfl
    | _ => exact .nil
  | each =>
    cases v with
    | array | string => exact hindexed _ _ fun _ => rfl
    | _ => exact .nil

theorem FollowsDocument.part?_of_step {s t : Schema} (h : s.FollowsDocument)
    (hs : s.isRecord = false) {v y : Value} {q : Path} {y? : Option Value}
    (hstep : Step s v q t y?) (hy : y? = some y) :
    t.FollowsDocument ∧ ∃ a, q = [a] ∧ v.part? a = some y := by
  cases hstep with
  | item hx =>
    cases hy
    cases h with | arrayOf _ he => exact ⟨he, _, rfl, hx⟩
  | element hx =>
    cases hy
    cases h with | each _ he => exact ⟨he, _, rfl, hx⟩
  | character hc =>
    cases hy
    cases h with | each _ he => exact ⟨he, _, rfl, Option.map_eq_some_iff.2 ⟨_, hc, rfl⟩⟩
  | position hp => cases h with | tuple _ hps => exact ⟨hps t (List.mem_of_getElem? hp), _, rfl, hy⟩
  | name | entry => cases hs
  | field | left | right => cases h

theorem inReadingOrder_children {s : Schema} (h : s.FollowsDocument) (hs : s.isRecord = false)
    {v : Value} (hv : v.Distinct) (hchildren : ∀ c ∈ s.children v, ∀ x, c.value? = some x →
      c.schema.FollowsDocument → x.Distinct → c.schema.InReadingOrder x (c.schema.findings x)) :
    s.InReadingOrder v ((s.children v).flatMap Site.findings) := by
  apply Ascends.flatMap
  · intro c hc
    cases hx : c.value? with
    | none =>
      unfold Site.findings
      rw [hx]
      exact ascends_singleton _
    | some x =>
      obtain ⟨hc', a, ha, hpart⟩ := h.part?_of_step hs (step_of_mem_children hc) hx
      exact (hchildren c hc x hx hc' (hv.part? hpart)).site h.isIntersection hc hx ha hpart
  · refine (children_earlier h hs v).imp fun hcd f hf g hg => ?_
    obtain ⟨a, b, ha, hb, hab⟩ := hcd
    obtain ⟨p, hp⟩ := Site.prefix_of_mem_findings hf
    obtain ⟨q, hq⟩ := Site.prefix_of_mem_findings hg
    rw [hp, hq, ha, hb]
    exact .earlier hab p q

theorem inReadingOrder_findings {s : Schema} (h : s.FollowsDocument) {v : Value}
    (hv : v.Distinct) : s.InReadingOrder v (s.findings v) := by
  induction s, v using child_induction with
  | step s v ih =>
    cases hd : s.defect? v with
    | some d =>
      rw [findings_eq_singleton hd]
      exact ascends_singleton _
    | none =>
      rw [findings_eq_children, hd]
      change s.InReadingOrder v ((s.children v).flatMap Site.findings)
      cases hs : s.isRecord with
      | false => exact inReadingOrder_children h hs hv ih
      | true =>
        cases h with
        | @record k e w hk he =>
          cases v with
          | object entries =>
            cases hv with
            | object names hvalues =>
              refine inReadingOrder_record w hk he names fun x hx => ?_
              have hchild : entrySite e x ∈ (record k e w).children (.object entries) :=
                List.mem_flatMap.2 ⟨x, hx, .tail _ (.head _)⟩
              exact ih _ hchild x.2 rfl he (hvalues x hx)
          | _ => exact .nil
        | _ => cases hs

/-- What is found in a document is found in the order in which the document is read. Two findings
stand in one place only if they follow each other, and are all that a record finds in the name of an
entry and all that it finds in the entry's value. -/
theorem findings_in_reading_order {s : Schema} (h : s.FollowsDocument) {v : Value}
    (hv : v.Distinct) :
    ((s.findings v).Pairwise fun f g => f.path = g.path ∨ v.Precedes f.path g.path) ∧
      ∀ before f between g after, s.findings v = before ++ f :: (between ++ g :: after) →
        f.path = g.path → between = [] ∧ s.FindsInEntry v f g := by
  have hascends := inReadingOrder_findings h hv
  constructor
  · refine hascends.pairwise.imp fun hfg => ?_
    rcases hfg with hprecedes | ⟨_, _, hf, hg, _, _⟩
    · exact .inr hprecedes
    · exact .inl (hf.trans hg.symm)
  · intro before f between g after hsplit hpath
    unfold InReadingOrder at hascends
    rw [hsplit] at hascends
    refine hascends.eq_nil_of_not fun hprecedes => ?_
    rw [hpath] at hprecedes
    exact (Value.isStrictOrder_precedes hv).irrefl _ hprecedes

/-- An entry whose name is too short and whose value is no tuple, before one with an array that lacks
its last item. -/
theorem findings_in_reading_order_in_record :
    let c (x : Category) : Schema := .category x .standard
    let s : Schema := .record (.size .atLeast 2 .standard) (.tuple [c .string,
      .each (c .null) .standard, .anyOf [.both (c .array) (c .object) .standard] .standard]
        .standard) .standard
    let v : Value := .object [("b", .bool true), ("aa", .array [.null, .string "yz"])]
    let f : Finding := ⟨⟨[.key "b"], .belowMinimum, "2", .nat 1⟩, .standard⟩
    let g : Finding := ⟨⟨[.key "b"], .shapeMismatch, "array", .string "boolean"⟩, .standard⟩
    (s.FollowsDocument ∧ v.Distinct) ∧
      (s.findings v).map (·.path) = [[.key "b"], [.key "b"], [.key "aa", .index 0],
        [.key "aa", .index 1, .index 0], [.key "aa", .index 1, .index 1], [.key "aa", .index 2]] ∧
      (s.findings v).Pairwise (fun f g => f.path = g.path ∨ v.Precedes f.path g.path) ∧
      s.findings v = [] ++ f :: ([] ++ g :: (s.findings v).drop 2) ∧ s.FindsInEntry v f g := by
  intro c s v f g
  have hs : s.FollowsDocument := by
    refine .record _ trivial (.tuple _ (List.forall_mem_cons.2 ⟨.category _ _, ?_⟩))
    exact List.forall_mem_cons.2
      ⟨.each _ (.category _ _), List.forall_mem_singleton.2 (.anyOf _ _)⟩
  have hv : v.Distinct := by
    refine .object (by decide) (List.forall_mem_cons.2 ⟨.bool _, List.forall_mem_singleton.2 ?_⟩)
    exact .array (List.forall_mem_cons.2 ⟨.null, List.forall_mem_singleton.2 (.string _)⟩)
  have hsplit : s.findings v = [] ++ f :: ([] ++ g :: (s.findings v).drop 2) := by rfl
  obtain ⟨hordered, hties⟩ := findings_in_reading_order hs hv
  exact ⟨⟨hs, hv⟩, by decide, hordered, hsplit, (hties [] f [] g _ hsplit rfl).2⟩

end Schema
end Conform
