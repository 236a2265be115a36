import Conform.Proofs.Sequence.Delivery
import Conform.Sequence.Schema

set_option autoImplicit false

namespace Conform

namespace Delivery

variable {α β : Type}

/-- `e` may be what a stream has handed over later than `d`. -/
structure Grows (d e : Delivery α) : Prop where
  isPrefix : d.items <+: e.items
  eq_of_ended : d.ended = true → e = d

theorem Grows.refl (d : Delivery α) : d.Grows d := ⟨List.prefix_rfl, fun _ => rfl⟩

theorem Grows.trans {d e f : Delivery α} (h : d.Grows e) (h' : e.Grows f) : d.Grows f := by
  refine ⟨h.isPrefix.trans h'.isPrefix, fun hd => ?_⟩
  have he : e = d := h.eq_of_ended hd
  rw [h'.eq_of_ended (he ▸ hd), he]

theorem grows_of_not_ended {d e : Delivery α} (h : d.items <+: e.items) (hd : d.ended = false) :
    d.Grows e :=
  ⟨h, fun he => Bool.noConfusion (hd.symm.trans he)⟩

theorem Grows.map {d e : Delivery α} (h : d.Grows e) (f : α → β) : (d.map f).Grows (e.map f) :=
  ⟨h.isPrefix.map f, fun hd => congrArg (Delivery.map f) (h.eq_of_ended hd)⟩

theorem items_prefix_append (d e : Delivery α) : d.items <+: (d.append e).items := by
  cases h : d.ended with
  | true => simp [h]
  | false => simp [h]

theorem append_assoc (d e f : Delivery α) : (d.append e).append f = d.append (e.append f) := by
  cases hd : d.ended with
  | false => simp [hd]
  | true => cases he : e.ended <;> simp [hd, he]

theorem Grows.append {d d' e e' : Delivery α} (hd : d.Grows d') (he : e.Grows e') :
    (d.append e).Grows (d'.append e') := by
  cases h : d.ended with
  | true =>
    rw [hd.eq_of_ended h, append_of_ended h, append_of_ended h]
    refine ⟨(List.prefix_append_right_inj _).2 he.isPrefix, fun hended => ?_⟩
    rw [he.eq_of_ended hended]
  | false =>
    rw [append_of_not_ended h]
    exact grows_of_not_ended (hd.isPrefix.trans (items_prefix_append d' e')) h

theorem concat_append (ds es : List (Option (Delivery α))) :
    concat (ds ++ es) = (concat ds).append (concat es) := by
  induction ds with
  | nil => rfl
  | cons d ds ih =>
    cases d with
    | none => rfl
    | some d => rw [List.cons_append, concat, ih, concat, append_assoc]

theorem grows_concat (f g : α → Option (Delivery β)) (xs : List α)
    (h : ∀ x ∈ xs, ∀ d, f x = some d → ∃ e, g x = some e ∧ d.Grows e) :
    (concat (xs.map f)).Grows (concat (xs.map g)) := by
  induction xs with
  | nil => exact .refl _
  | cons x xs ih =>
    have hxs := ih fun y hy => h y (List.mem_cons_of_mem x hy)
    rw [List.map_cons, List.map_cons]
    cases hx : f x with
    | none => exact grows_of_not_ended List.nil_prefix rfl
    | some d =>
      obtain ⟨e, he, hde⟩ := h x (.head xs) d hx
      rw [he]
      exact hde.append hxs

theorem Grows.isEmpty? {d e : Delivery α} (h : d.Grows e) {b : Bool} (hd : d.isEmpty? = some b) :
    e.isEmpty? = some b := by
  cases hended : d.ended with
  | true => rw [h.eq_of_ended hended, hd]
  | false =>
    obtain ⟨more, hmore⟩ := h.isPrefix
    cases hi : d.items with
    | nil => simp [Delivery.isEmpty?, hi, hended] at hd
    | cons x rest =>
      rw [hi] at hmore
      simp only [Delivery.isEmpty?, hi, List.isEmpty_cons, Bool.not_false, if_true] at hd
      simp only [Delivery.isEmpty?, ← hmore, List.cons_append, List.isEmpty_cons, Bool.not_false,
        if_true, hd]

end Delivery

namespace Source

variable {α : Type}

theorem items_draw_succ (s : Source α) (n : Nat) :
    (s.draw (n + 1)).items = (s.draw n).items ++ (s.get? n).toList := by
  change (List.range (n + 1)).filterMap s.get? = _
  rw [List.range_succ, List.filterMap_append]
  cases h : s.get? n <;> simp [h, draw]

theorem ended_draw_iff (s : Source α) (n : Nat) :
    (s.draw n).ended = true ↔ ∃ i, i < n ∧ s.get? i = none := by
  simp [draw, List.any_eq_true]

theorem draw_grows_succ (s : Source α) (n : Nat) : (s.draw n).Grows (s.draw (n + 1)) := by
  refine ⟨s.items_draw_succ n ▸ List.prefix_append _ _, fun h => ?_⟩
  obtain ⟨i, hi, hnone⟩ := (s.ended_draw_iff n).1 h
  have hn : s.get? n = none := s.get?_eq_none_of_le (Nat.le_of_lt hi) hnone
  have hitems := s.items_draw_succ n
  rw [hn, Option.toList_none, List.append_nil] at hitems
  have hended : (s.draw (n + 1)).ended = true :=
    (s.ended_draw_iff (n + 1)).2 ⟨i, Nat.lt_succ_of_lt hi, hnone⟩
  exact congrArg₂ Delivery.mk hitems (hended.trans h.symm)

theorem draw_grows (s : Source α) {m n : Nat} (h : m ≤ n) : (s.draw m).Grows (s.draw n) := by
  induction h with
  | refl => exact .refl _
  | step _ ih => exact ih.trans (s.draw_grows_succ _)

end Source

namespace Checker

variable {α : Type}

/-- More draws extend what has been handed over, and change no verdict. -/
structure Steady (c : Checker α) : Prop where
  examine : ∀ {x m n d}, m ≤ n → c.examine x m = some d → ∃ e, c.examine x n = some e ∧ d.Grows e
  accepts : ∀ {x m n b}, m ≤ n → c.accepts x m = some b → c.accepts x n = some b

theorem ofFindings_steady (description : String) (examine : α → Nat → Option (Delivery Finding))
    (h : ∀ x m n d, m ≤ n → examine x m = some d → ∃ e, examine x n = some e ∧ d.Grows e) :
    (ofFindings description examine).Steady where
  examine hmn hd := h _ _ _ _ hmn hd
  accepts {x m n b} hmn hb := by
    obtain ⟨d, hd, hb⟩ := Option.bind_eq_some_iff.1 hb
    obtain ⟨e, he, hde⟩ := h x m n d hmn hd
    exact Option.bind_eq_some_iff.2 ⟨e, he, hde.isEmpty? hb⟩

theorem Steady.examineAt {c : Checker α} (h : c.Steady) {m n : Nat} (hmn : m ≤ n) (x : α × Nat)
    {d : Delivery Finding} (hd : c.examineAt m x = some d) :
    ∃ e, c.examineAt n x = some e ∧ d.Grows e := by
  obtain ⟨d₀, hd₀, rfl⟩ := Option.map_eq_some_iff.1 hd
  obtain ⟨e, he, hde⟩ := h.examine hmn hd₀
  exact ⟨_, Option.map_eq_some_iff.2 ⟨e, he, rfl⟩, hde.map _⟩

theorem Steady.eachItem {c : Checker α} (h : c.Steady) : c.eachItem.Steady := by
  refine ofFindings_steady _ _ fun xs m n d hmn hd => ?_
  cases hd
  exact ⟨_, rfl, Delivery.grows_concat _ _ _ fun x _ _ hd => h.examineAt hmn x hd⟩

theorem Steady.eachDrawn {c : Checker α} (h : c.Steady) : c.eachDrawn.Steady := by
  refine ofFindings_steady _ _ fun s m n d hmn hd => ?_
  cases hd
  refine ⟨_, rfl, ?_⟩
  have hdraw := s.draw_grows hmn
  obtain ⟨more, hmore⟩ := hdraw.isPrefix
  have hstream : ∀ (x : α × Nat) (d : Delivery Finding),
      (c.examineAt m x).filter Delivery.ended = some d →
      ∃ e, (c.examineAt n x).filter Delivery.ended = some e ∧ d.Grows e := by
    intro x d hd
    obtain ⟨hd, hended⟩ := Option.filter_eq_some_iff.1 hd
    obtain ⟨e, he, hde⟩ := h.examineAt hmn x hd
    have hed : e = d := hde.eq_of_ended hended
    exact ⟨e, Option.filter_eq_some_iff.2 ⟨he, hed ▸ hended⟩, hde⟩
  -- The elements drawn since then, and the end, come after those drawn before.
  rw [← hmore, List.zipIdx_append, List.map_append, Delivery.concat_append, Delivery.append_assoc]
  refine (Delivery.grows_concat _ _ _ fun x _ => hstream x).append ?_
  cases hended : (s.draw m).ended with
  | false => exact Delivery.grows_of_not_ended List.nil_prefix rfl
  | true =>
    have hsame := hdraw.eq_of_ended hended
    rw [hsame] at hmore ⊢
    rw [List.append_right_eq_self.1 hmore, hended]
    exact .refl _

theorem countDrawn_steady (b : SizeBound) (limit : Nat) (w : Wording) :
    (countDrawn b limit w : Checker (Source α)).Steady := by
  refine ofFindings_steady _ _ fun s m n d hmn hd => ⟨d, ?_, .refl d⟩
  simp only [Option.ite_none_right_eq_some] at hd ⊢
  rw [(s.draw_grows hmn).eq_of_ended hd.1]
  exact hd

theorem Steady.both {l r : Checker α} (hl : l.Steady) (hr : r.Steady) (w : Wording) :
    (l.both r w).Steady where
  examine hmn hd := by
    obtain ⟨dl, hdl, hd⟩ := Option.bind_eq_some_iff.1 hd
    obtain ⟨dr, hdr, hd⟩ := Option.bind_eq_some_iff.1 hd
    cases hd
    obtain ⟨el, hel, hgl⟩ := hl.examine hmn hdl
    obtain ⟨er, her, hgr⟩ := hr.examine hmn hdr
    refine ⟨(el.append er).map (Finding.reworded w), ?_, (hgl.append hgr).map _⟩
    simp only [Checker.both, hel, her]
    rfl
  accepts {x m n b} hmn hb := by
    obtain ⟨bl, hbl, hb⟩ := Option.bind_eq_some_iff.1 hb
    refine Option.bind_eq_some_iff.2 ⟨bl, hl.accepts hmn hbl, ?_⟩
    cases bl with
    | true => exact hr.accepts hmn hb
    | false => exact hb

end Checker

theorem Schema.checker_steady (s : Schema) : s.checker.Steady where
  examine _ hd := ⟨_, hd, .refl _⟩
  accepts _ hb := hb

namespace SequenceSchema

variable {ε α : Type}

theorem onSource_steady {element : ε → Checker α} (h : ∀ e, (element e).Steady)
    (o : SequenceSchema ε) : (o.onSource element).Steady := by
  induction o with
  | each e w => exact (h e).eachDrawn
  | size b limit w => exact Checker.countDrawn_steady b limit w
  | both l r w ihl ihr => exact ihl.both ihr w

end SequenceSchema
end Conform
