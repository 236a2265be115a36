import Conform.Proofs.Sequence.Streaming

set_option autoImplicit false

/-!
# Sources within lists and within sources

A list hands on what is found in one of its elements as soon as it is found, a source not before the
element has been checked to its end. What a source of some elements hands over is therefore what the
list of them does, up to the first element whose check has no end. Where the elements are sources of
documents, these are the ones that have no end themselves.
-/
namespace Conform

theorem prefix_append_cases {α : Type} {fs as bs : List α} (h : fs <+: as ++ bs) :
    fs <+: as ∨ ∃ f ∈ fs, f ∈ bs := by
  rcases List.prefix_or_prefix_of_prefix h (List.prefix_append as bs) with hfs | ⟨more, rfl⟩
  · exact .inl hfs
  · have hmore : more <+: bs := (List.prefix_append_right_inj as).1 h
    cases more with
    | nil => exact .inl (by simp)
    | cons f more => exact .inr ⟨f, by simp, hmore.subset (.head _)⟩

namespace Delivery

variable {α : Type}

theorem items_append_nil (d : Delivery α) (b : Bool) : (d.append ⟨[], b⟩).items = d.items := by
  cases h : d.ended <;> simp [h]

theorem exists_of_mem_items_concat {ds : List (Option (Delivery α))} {a : α}
    (h : a ∈ (concat ds).items) : ∃ d, some d ∈ ds ∧ a ∈ d.items := by
  induction ds with
  | nil => cases h
  | cons d? ds ih =>
    cases d? with
    | none => cases h
    | some d =>
      rcases mem_items_of_mem_append h with h | h
      · exact ⟨d, .head _, h⟩
      · obtain ⟨e, he, ha⟩ := ih h
        exact ⟨e, .tail _ he, ha⟩

theorem items_concat_eq_filter (ds : List (Option (Delivery α))) :
    ∃ rest, (concat ds).items = (concat (ds.map (Option.filter ended))).items ++ rest ∧
      ∀ a ∈ rest, ∃ d, some d ∈ ds ∧ d.ended = false ∧ a ∈ d.items := by
  induction ds with
  | nil => exact ⟨[], rfl, fun _ h => nomatch h⟩
  | cons d? ds ih =>
    cases d? with
    | none => exact ⟨[], rfl, fun _ h => nomatch h⟩
    | some d =>
      cases hd : d.ended with
      | false =>
        refine ⟨d.items, ?_, fun a ha => ⟨d, .head _, hd, ha⟩⟩
        simp [concat, pending, hd, Option.filter_some]
      | true =>
        obtain ⟨rest, hrest, hmem⟩ := ih
        refine ⟨rest, ?_, fun a ha => ?_⟩
        · simp [concat, hd, hrest, Option.filter_some]
        · obtain ⟨e, he, hended, ha⟩ := hmem a ha
          exact ⟨e, .tail _ he, hended, ha⟩

end Delivery

theorem Source.not_ends_cycle {α : Type} (items : List α) {loop : List α} (h : loop ≠ []) :
    ¬ (Source.cycle items loop).Ends := by
  rintro ⟨n, hn⟩
  simp only [cycle] at hn
  split at hn
  next hlt => exact absurd (List.getElem?_eq_none_iff.1 hn) (Nat.not_le.2 hlt)
  next =>
    have hlt := Nat.mod_lt (n - items.length) (List.length_pos_iff.2 h)
    exact absurd (List.getElem?_eq_none_iff.1 hn) (Nat.not_le.2 hlt)

namespace Checker

variable {α : Type} {c : Checker α}

/-- All findings have been handed over after finitely many draws. -/
def Ends (c : Checker α) (x : α) : Prop := ∃ n d, c.examine x n = some d ∧ d.ended = true

/-- The finding stands in an element whose check has an end. -/
def InEnding (c : Checker α) (xs : List α) (f : Finding) : Prop :=
  ∃ i x, f.path.head? = some (.index i) ∧ xs[i]? = some x ∧ c.Ends x

theorem Steady.exists_bound_ends (h : c.Steady) (xs : List α) :
    ∃ N, ∀ n, N ≤ n → ∀ x ∈ xs, c.Ends x → ∃ d, c.examine x n = some d ∧ d.ended = true := by
  refine exists_bound_forall_mem
    (fun x n => c.Ends x → ∃ d, c.examine x n = some d ∧ d.ended = true) xs fun x _ => ?_
  by_cases hx : c.Ends x
  · obtain ⟨N, d, hd, hended⟩ := hx
    refine ⟨N, fun n hn _ => ?_⟩
    obtain ⟨e, he, hde⟩ := h.examine hn hd
    rw [hde.eq_of_ended hended] at he
    exact ⟨d, he, hended⟩
  · exact ⟨0, fun _ _ hends => absurd hends hx⟩

variable {s : Source α} {xs : List α}

def streams (c : Checker α) (n : Nat) (xs : List α) : List (Option (Delivery Finding)) :=
  xs.zipIdx.map (c.examineAt n)

theorem items_streams_prefix (c : Checker α) (n : Nat) {ys : List α} (h : ys <+: xs) :
    (Delivery.concat (c.streams n ys)).items <+: (Delivery.concat (c.streams n xs)).items := by
  obtain ⟨zs, rfl⟩ := h
  unfold streams
  rw [List.zipIdx_append, List.map_append, Delivery.concat_append]
  exact Delivery.items_prefix_append _ _

theorem exists_of_mem_streams {n : Nat} {d : Delivery Finding} (hd : some d ∈ c.streams n xs)
    {f : Finding} (hf : f ∈ d.items) :
    ∃ i x e, f.path.head? = some (.index i) ∧ xs[i]? = some x ∧ c.examine x n = some e ∧
      d.ended = e.ended := by
  obtain ⟨⟨x, i⟩, hx, hd⟩ := List.mem_map.1 hd
  obtain ⟨e, he, rfl⟩ := Option.map_eq_some_iff.1 hd
  obtain ⟨g, _, rfl⟩ := List.mem_map.1 hf
  exact ⟨i, x, e, rfl, List.mem_zipIdx_iff_getElem?.1 hx, he, rfl⟩

theorem shows_items_iff (n : Nat) (fs : List Finding) :
    c.eachItem.Shows xs n fs ↔ fs <+: (Delivery.concat (c.streams n xs)).items := by
  constructor
  · rintro ⟨d, hd, h⟩
    cases hd
    exact h
  · exact fun h => ⟨_, rfl, h⟩

theorem shows_drawn_iff (hs : s.Yields xs) (n : Nat) (fs : List Finding) :
    c.eachDrawn.Shows s n fs ↔
      fs <+: (Delivery.concat ((c.streams n (xs.take n)).map (Option.filter Delivery.ended))).items := by
  have hitems : ∀ d, c.eachDrawn.examine s n = some d → d.items =
      (Delivery.concat ((c.streams n (xs.take n)).map (Option.filter Delivery.ended))).items := by
    intro d hd
    cases hd
    rw [Delivery.items_append_nil, hs.items_draw, streams, List.map_map]
    rfl
  constructor
  · rintro ⟨d, hd, h⟩
    exact hitems d hd ▸ h
  · exact fun h => ⟨_, rfl, (hitems _ rfl).symm ▸ h⟩

theorem shows_items_of_shows_drawn (hs : s.Yields xs) {n : Nat} {fs : List Finding}
    (h : c.eachDrawn.Shows s n fs) : c.eachItem.Shows xs n fs := by
  rw [shows_drawn_iff hs] at h
  obtain ⟨rest, hrest, _⟩ := Delivery.items_concat_eq_filter (c.streams n (xs.take n))
  have hdrawn : fs <+: (Delivery.concat (c.streams n (xs.take n))).items :=
    h.trans (hrest ▸ List.prefix_append _ _)
  exact (c.shows_items_iff n fs).2 (hdrawn.trans (c.items_streams_prefix n (xs.take_prefix n)))

theorem inEnding_of_shows_drawn (hs : s.Yields xs) {n : Nat} {fs : List Finding}
    (h : c.eachDrawn.Shows s n fs) {f : Finding} (hf : f ∈ fs) : c.InEnding xs f := by
  rw [shows_drawn_iff hs] at h
  obtain ⟨d, hd, hfd⟩ := Delivery.exists_of_mem_items_concat (h.subset hf)
  obtain ⟨d', hd', hfilter⟩ := List.mem_map.1 hd
  obtain ⟨rfl, hended⟩ := Option.filter_eq_some_iff.1 hfilter
  obtain ⟨i, x, e, hpath, hx, he, hde⟩ := exists_of_mem_streams hd' hfd
  rw [List.getElem?_take] at hx
  exact ⟨i, x, hpath, (Option.ite_none_right_eq_some.1 hx).2, n, e, he, hde ▸ hended⟩

theorem Steady.shows_drawn_of_shows_items (hc : c.Steady) (hs : s.Yields xs) {m : Nat}
    {fs : List Finding} (h : c.eachItem.Shows xs m fs) (hends : ∀ f ∈ fs, c.InEnding xs f) :
    ∃ n, c.eachDrawn.Shows s n fs := by
  obtain ⟨N, hN⟩ := hc.exists_bound_ends xs
  let n := max xs.length (max m N)
  have hlater : c.eachItem.Shows xs n fs := hc.eachItem.shows (show m ≤ n by omega) h
  obtain ⟨rest, hrest, hmem⟩ := Delivery.items_concat_eq_filter (c.streams n xs)
  rw [shows_items_iff, hrest] at hlater
  refine ⟨n, (shows_drawn_iff hs n fs).2 ?_⟩
  rw [List.take_of_length_le (Nat.le_max_left _ _)]
  rcases prefix_append_cases hlater with hfs | ⟨f, hf, hfrest⟩
  · exact hfs
  · -- What is held back stands in an element that has not ended, but this one has by now.
    obtain ⟨d, hd, hnot, hfd⟩ := hmem f hfrest
    obtain ⟨i, x, e, hpath, hx, he, hde⟩ := exists_of_mem_streams hd hfd
    obtain ⟨j, y, hpath', hy, hyends⟩ := hends f hf
    cases hpath.symm.trans hpath'
    cases hx.symm.trans hy
    obtain ⟨e', he', hended⟩ := hN n (by omega) x (List.mem_of_getElem? hx) hyends
    cases he.symm.trans he'
    rw [hnot, hended] at hde
    cases hde

theorem Steady.exists_shows_drawn_iff (hc : c.Steady) (hs : s.Yields xs) (fs : List Finding) :
    (∃ n, c.eachDrawn.Shows s n fs) ↔
      (∃ n, c.eachItem.Shows xs n fs) ∧ ∀ f ∈ fs, c.InEnding xs f := by
  constructor
  · rintro ⟨n, h⟩
    exact ⟨⟨n, shows_items_of_shows_drawn hs h⟩, fun f hf => inEnding_of_shows_drawn hs h hf⟩
  · rintro ⟨⟨m, h⟩, hends⟩
    exact hc.shows_drawn_of_shows_items hs h hends

theorem ofFindings_rejects_iff (description : String)
    (examine : α → Nat → Option (Delivery Finding)) (x : α) :
    (ofFindings description examine).Rejects x ↔
      ∃ f n, (ofFindings description examine).Shows x n [f] := by
  constructor
  · rintro ⟨n, h⟩
    obtain ⟨d, hd, hempty⟩ := Option.bind_eq_some_iff.1 h
    obtain ⟨f, rest, hf⟩ := List.exists_cons_of_ne_nil (d.isEmpty?_eq_false_iff.1 hempty)
    exact ⟨f, n, d, hd, rest, hf.symm⟩
  · rintro ⟨f, n, d, hd, rest, hf⟩
    have hempty : d.isEmpty? = some false :=
      d.isEmpty?_eq_false_iff.2 (hf ▸ List.cons_ne_nil f rest)
    exact ⟨n, Option.bind_eq_some_iff.2 ⟨d, hd, hempty⟩⟩

theorem Steady.rejects_drawn_iff (hc : c.Steady) (hs : s.Yields xs) :
    c.eachDrawn.Rejects s ↔ ∃ f, (∃ n, c.eachItem.Shows xs n [f]) ∧ c.InEnding xs f := by
  refine (ofFindings_rejects_iff _ _ s).trans (exists_congr fun f => ?_)
  refine (hc.exists_shows_drawn_iff hs [f]).trans (and_congr_right fun _ => ?_)
  exact List.forall_mem_singleton

theorem inEnding_of_shows_items (hends : ∀ x ∈ xs, c.Ends x) {n : Nat} {fs : List Finding}
    (h : c.eachItem.Shows xs n fs) {f : Finding} (hf : f ∈ fs) : c.InEnding xs f := by
  rw [shows_items_iff] at h
  obtain ⟨d, hd, hfd⟩ := Delivery.exists_of_mem_items_concat (h.subset hf)
  obtain ⟨i, x, _, hpath, hx, _⟩ := exists_of_mem_streams hd hfd
  exact ⟨i, x, hpath, hx, hends x (List.mem_of_getElem? hx)⟩

theorem Steady.drawn_as_items (hc : c.Steady) (hs : s.Yields xs) (hends : ∀ x ∈ xs, c.Ends x) :
    (∀ fs, (∃ n, c.eachDrawn.Shows s n fs) ↔ ∃ n, c.eachItem.Shows xs n fs) ∧
      (c.eachDrawn.Rejects s ↔ c.eachItem.Rejects xs) := by
  have hshows : ∀ fs, (∃ n, c.eachDrawn.Shows s n fs) ↔ ∃ n, c.eachItem.Shows xs n fs := by
    intro fs
    rw [hc.exists_shows_drawn_iff hs, and_iff_left_iff_imp]
    rintro ⟨n, h⟩ f hf
    exact inEnding_of_shows_items hends h hf
  refine ⟨hshows, (ofFindings_rejects_iff _ _ s).trans ?_⟩
  exact (exists_congr fun f => hshows [f]).trans (ofFindings_rejects_iff _ _ xs).symm

theorem both_ends_iff {l r : Checker α} (hl : l.Steady) (hr : r.Steady) (w : Wording) (x : α) :
    (l.both r w).Ends x ↔ l.Ends x ∧ r.Ends x := by
  constructor
  · rintro ⟨n, d, hd, hended⟩
    obtain ⟨dl, hdl, hd⟩ := Option.bind_eq_some_iff.1 hd
    obtain ⟨dr, hdr, hd⟩ := Option.bind_eq_some_iff.1 hd
    cases hd
    obtain ⟨hl', hr'⟩ : dl.ended = true ∧ dr.ended = true := by simpa using hended
    exact ⟨⟨n, dl, hdl, hl'⟩, n, dr, hdr, hr'⟩
  · rintro ⟨⟨m, dl, hdl, hl'⟩, n, dr, hdr, hr'⟩
    obtain ⟨el, hel, hgl⟩ := hl.examine (Nat.le_max_left m n) hdl
    obtain ⟨er, her, hgr⟩ := hr.examine (Nat.le_max_right m n) hdr
    rw [hgl.eq_of_ended hl'] at hel
    rw [hgr.eq_of_ended hr'] at her
    refine ⟨max m n, (dl.append dr).map (Finding.reworded w), ?_, ?_⟩
    · simp only [Checker.both, hel, her]
      rfl
    · simp [hl', hr']

end Checker

theorem SequenceSchema.ends_iff (o : SequenceSchema Schema) (t : Source Value) :
    (o.onSource Schema.checker).Ends t ↔ t.Ends := by
  rw [← t.exists_ended_draw_iff]
  induction o with
  | each e w =>
    refine exists_congr fun n => ⟨?_, fun h => ⟨_, e.examine_drawn t n, h⟩⟩
    rintro ⟨d, hd, h⟩
    cases (e.examine_drawn t n).symm.trans hd
    exact h
  | size b limit w =>
    refine exists_congr fun n => ?_
    constructor
    · rintro ⟨d, hd, _⟩
      exact (Option.ite_none_right_eq_some.1 hd).1
    · exact fun h => ⟨_, if_pos h, rfl⟩
  | both l r w ihl ihr =>
    have hboth := Checker.both_ends_iff (l.onSource_steady Schema.checker_steady)
      (r.onSource_steady Schema.checker_steady) w t
    rw [onSource, hboth, ihl, ihr, and_self]

/-- A source of some elements hands over what the list of them does, as long as it is found in
elements whose checks have an end. The list is rejected with any first finding, the source if that
is one of these. So there is no difference if all checks have an end, which the check of a source of
documents has just if the source has one. -/
theorem findings_in_source_of_sources {α : Type} {c : Checker α} (hc : c.Steady) {s : Source α}
    {xs : List α} (hs : s.Yields xs) :
    (∀ fs : List Finding, (∃ n, c.eachDrawn.Shows s n fs) ↔
      (∃ n, c.eachItem.Shows xs n fs) ∧ ∀ f ∈ fs, c.InEnding xs f) ∧
    (c.eachDrawn.Rejects s ↔ ∃ f, (∃ n, c.eachItem.Shows xs n [f]) ∧ c.InEnding xs f) ∧
    (c.eachItem.Rejects xs ↔ ∃ f n, c.eachItem.Shows xs n [f]) ∧
    ((∀ x ∈ xs, c.Ends x) →
      (∀ fs, (∃ n, c.eachDrawn.Shows s n fs) ↔ ∃ n, c.eachItem.Shows xs n fs) ∧
        (c.eachDrawn.Rejects s ↔ c.eachItem.Rejects xs)) ∧
    ∀ (o : SequenceSchema Schema) (t : Source Value),
      (o.onSource Schema.checker).Ends t ↔ t.Ends :=
  ⟨hc.exists_shows_drawn_iff hs, hc.rejects_drawn_iff hs, Checker.ofFindings_rejects_iff _ _ xs,
    hc.drawn_as_items hs, SequenceSchema.ends_iff⟩

/-- A null, and another one with texts without end after it; and the first of these alone. -/
theorem findings_in_source_of_nulls :
    let o : SequenceSchema Schema := .each (.category .string .standard) .standard
    let c := o.onSource Schema.checker
    let ending : List (Source Value) := [.ofList [.null]]
    let xs : List (Source Value) := [.ofList [.null], .cycle [.null] [.string "a"]]
    let f (i : Nat) : Finding :=
      ⟨⟨[.index i, .index 0], .typeMismatch, "string", .string "null"⟩, .standard⟩
    c.Steady ∧ (Source.ofList xs).Yields xs ∧ c.eachItem.Shows xs 2 [f 0, f 1] ∧
    (∃ n, c.eachDrawn.Shows (.ofList xs) n [f 0]) ∧ c.eachDrawn.Rejects (.ofList xs) ∧
    (¬ ∃ n, c.eachDrawn.Shows (.ofList xs) n [f 0, f 1]) ∧
    (∀ x ∈ ending, c.Ends x) ∧ c.eachDrawn.Rejects (.ofList ending) := by
  intro o c ending xs f
  have hc : c.Steady := o.onSource_steady Schema.checker_steady
  have hs : (Source.ofList xs).Yields xs := Source.ofList_yields xs
  have hendless : ¬ (Source.cycle [Value.null] [.string "a"]).Ends :=
    Source.not_ends_cycle _ (List.cons_ne_nil _ _)
  obtain ⟨hshows, hrejects, -, -, hends⟩ := findings_in_source_of_sources hc hs
  obtain ⟨-, -, hlist, hagree, -⟩ :=
    findings_in_source_of_sources hc (Source.ofList_yields ending)
  have hnull : c.Ends (.ofList [.null]) := (hends o _).2 ⟨1, rfl⟩
  have hboth : c.eachItem.Shows xs 2 [f 0, f 1] := ⟨_, rfl, List.prefix_rfl⟩
  have hfirst : c.eachItem.Shows xs 2 [f 0] := ⟨_, rfl, [f 1], rfl⟩
  have hending : c.InEnding xs (f 0) := ⟨0, _, rfl, rfl, hnull⟩
  have hall : ∀ x ∈ ending, c.Ends x := List.forall_mem_singleton.2 hnull
  have honly : c.eachItem.Rejects ending := hlist.2 ⟨f 0, 2, _, rfl, List.prefix_rfl⟩
  refine ⟨hc, hs, hboth, (hshows [f 0]).2 ⟨⟨2, hfirst⟩, List.forall_mem_singleton.2 hending⟩,
    hrejects.2 ⟨f 0, ⟨2, hfirst⟩, hending⟩, fun hdrawn => ?_, hall, (hagree hall).2.2 honly⟩
  obtain ⟨i, t, hpath, ht, hsecond⟩ := ((hshows [f 0, f 1]).1 hdrawn).2 (f 1) (.tail _ (.head _))
  cases hpath
  cases ht
  exact hendless ((hends o _).1 hsecond)

/-- A null and then texts without end: the list of this one source hands over what is found in the
null and is rejected, the source of it neither hands over anything nor is rejected. -/
theorem endless_source_in_source :
    let p : SequenceSchema (SequenceSchema Schema) :=
      .each (.each (.category .string .standard) .standard) .standard
    let list := p.onList (·.onSource Schema.checker)
    let source := p.onSource (·.onSource Schema.checker)
    let xs : List (Source Value) := [.cycle [.null] [.string "a"]]
    let f : Finding := ⟨⟨[.index 0, .index 0], .typeMismatch, "string", .string "null"⟩, .standard⟩
    list.Shows xs 1 [f] ∧ list.Rejects xs ∧
    ¬ (∃ n, source.Shows (.ofList xs) n [f]) ∧ ¬ source.Rejects (.ofList xs) := by
  intro p list source xs f
  let o : SequenceSchema Schema := .each (.category .string .standard) .standard
  have hc : (o.onSource Schema.checker).Steady := o.onSource_steady Schema.checker_steady
  have hs : (Source.ofList xs).Yields xs := Source.ofList_yields xs
  have hendless : ¬ (Source.cycle [Value.null] [.string "a"]).Ends :=
    Source.not_ends_cycle _ (List.cons_ne_nil _ _)
  have hnone : ∀ g, ¬ (o.onSource Schema.checker).InEnding xs g := by
    rintro g ⟨i, t, _, ht, hends⟩
    cases List.mem_singleton.1 (List.mem_of_getElem? ht)
    exact hendless ((o.ends_iff _).1 hends)
  refine ⟨⟨_, rfl, List.prefix_rfl⟩, ⟨1, rfl⟩, fun hshows => ?_, fun hrejects => ?_⟩
  · exact hnone f (((hc.exists_shows_drawn_iff hs [f]).1 hshows).2 f (.head _))
  · obtain ⟨g, _, hending⟩ := (hc.rejects_drawn_iff hs).1 hrejects
    exact hnone g hending

end Conform
