import Conform.Proofs.Schema.Site
import Conform.Proofs.Sequence.Delivery
import Conform.Sequence.Schema

set_option autoImplicit false

namespace Conform

/-- The answers of a checker about an input in which there are the findings `fs`. -/
structure Checker.Settles {α : Type} (c : Checker α) (x : α) (fs : List Finding) : Prop where
  reads : ∀ n d, c.examine x n = some d → d.Reads fs
  decides : ∀ n b, c.accepts x n = some b → b = fs.isEmpty
  eventually : ∃ N, ∀ n, N ≤ n →
    c.examine x n = some (.complete fs) ∧ c.accepts x n = some fs.isEmpty

theorem exists_bound_forall_mem {α : Type} (p : α → Nat → Prop) (xs : List α)
    (h : ∀ x ∈ xs, ∃ N, ∀ n, N ≤ n → p x n) : ∃ N, ∀ n, N ≤ n → ∀ x ∈ xs, p x n := by
  induction xs with
  | nil => exact ⟨0, fun _ _ _ hx => nomatch hx⟩
  | cons x xs ih =>
    obtain ⟨M, hM⟩ := h x (.head xs)
    obtain ⟨N, hN⟩ := ih fun y hy => h y (List.mem_cons_of_mem x hy)
    refine ⟨max M N, fun n hn y hy => ?_⟩
    rcases List.mem_cons.1 hy with rfl | hy
    · exact hM n (by omega)
    · exact hN n (by omega) y hy

theorem Schema.settles (s : Schema) (v : Value) : s.checker.Settles v (s.findings v) where
  reads n d h := by
    cases h
    exact Delivery.reads_complete _
  decides n b h := by
    cases h
    exact accepts_eq_isEmpty s v
  eventually := ⟨0, fun n _ => ⟨rfl, congrArg some (accepts_eq_isEmpty s v)⟩⟩

namespace Checker

variable {α : Type}

theorem ofFindings_settles (description : String) (examine : α → Nat → Option (Delivery Finding))
    (x : α) (fs : List Finding) (reads : ∀ n d, examine x n = some d → d.Reads fs)
    (eventually : ∃ N, ∀ n, N ≤ n → examine x n = some (.complete fs)) :
    (ofFindings description examine).Settles x fs where
  reads := reads
  decides n b h := by
    obtain ⟨d, hd, hb⟩ := Option.bind_eq_some_iff.1 h
    exact (reads n d hd).eq_of_isEmpty? hb
  eventually := by
    obtain ⟨N, hN⟩ := eventually
    refine ⟨N, fun n hn => ⟨hN n hn, ?_⟩⟩
    change (examine x n).bind Delivery.isEmpty? = some fs.isEmpty
    rw [hN n hn]
    exact Delivery.isEmpty?_complete fs

def elementFindings (g : α → List Finding) (xs : List α) : List Finding :=
  xs.zipIdx.flatMap fun x => (g x.1).map (Finding.under (.index x.2))

theorem examineAt_reads {c : Checker α} {x : α} {fs : List Finding} (h : c.Settles x fs)
    (i n : Nat) {d : Delivery Finding} (hd : c.examineAt n (x, i) = some d) :
    d.Reads (fs.map (Finding.under (.index i))) := by
  obtain ⟨e, he, rfl⟩ := Option.map_eq_some_iff.1 hd
  exact (h.reads n e he).map _

theorem examineAt_eventually {c : Checker α} {g : α → List Finding} {xs : List α}
    (h : ∀ x ∈ xs, c.Settles x (g x)) : ∃ N, ∀ n, N ≤ n → ∀ x ∈ xs.zipIdx,
      c.examineAt n x = some (.complete ((g x.1).map (Finding.under (.index x.2)))) := by
  refine exists_bound_forall_mem (fun (x : α × Nat) n => c.examineAt n x = _) xs.zipIdx ?_
  intro x hx
  obtain ⟨N, hN⟩ := (h x.1 (List.fst_mem_of_mem_zipIdx hx)).eventually
  refine ⟨N, fun n hn => ?_⟩
  unfold examineAt
  rw [(hN n hn).1]
  rfl

theorem eachItem_settles {c : Checker α} {g : α → List Finding} {xs : List α}
    (h : ∀ x ∈ xs, c.Settles x (g x)) : c.eachItem.Settles xs (elementFindings g xs) := by
  refine ofFindings_settles _ _ xs _ ?_ ?_
  · intro n d hd
    cases hd
    refine Delivery.reads_concat _ _ _ fun x hx d hd => ?_
    exact examineAt_reads (h x.1 (List.fst_mem_of_mem_zipIdx hx)) x.2 n hd
  · obtain ⟨N, hN⟩ := examineAt_eventually h
    exact ⟨N, fun n hn => congrArg some (Delivery.concat_complete _ _ _ (hN n hn))⟩

theorem elementFindings_take (g : α → List Finding) (xs : List α) (n : Nat) :
    ∃ more, elementFindings g xs = elementFindings g (xs.take n) ++ more ∧
      (xs.length < n → more = []) := by
  refine ⟨((xs.drop n).zipIdx (xs.take n).length).flatMap
    fun x => (g x.1).map (Finding.under (.index x.2)), ?_, fun hn => ?_⟩
  · have h : (xs.take n ++ xs.drop n).zipIdx =
        (xs.take n).zipIdx ++ (xs.drop n).zipIdx (0 + (xs.take n).length) := List.zipIdx_append
    rw [List.take_append_drop, Nat.zero_add] at h
    unfold elementFindings
    rw [h, List.flatMap_append]
  · rw [List.drop_eq_nil_of_le (by omega)]
    rfl

theorem eachDrawn_settles {c : Checker α} {g : α → List Finding} {s : Source α} {xs : List α}
    (hs : s.Yields xs) (h : ∀ x ∈ xs, c.Settles x (g x)) :
    c.eachDrawn.Settles s (elementFindings g xs) := by
  refine ofFindings_settles _ _ s _ ?_ ?_
  · intro n d hd
    cases hd
    -- The elements drawn by now come first, and no others are left once the source has ended.
    obtain ⟨more, hsplit, hmore⟩ := elementFindings_take g xs n
    rw [hsplit, hs.items_draw]
    refine Delivery.Reads.append ?_ ⟨List.nil_prefix, fun he => ?_⟩
    · refine Delivery.reads_concat _ _ _ fun x hx d hd => ?_
      have hmem : x.1 ∈ xs := List.mem_of_mem_take (List.fst_mem_of_mem_zipIdx hx)
      exact examineAt_reads (h x.1 hmem) x.2 n (Option.filter_eq_some_iff.1 hd).1
    · exact (hmore ((hs.ended_draw n).1 he)).symm
  · obtain ⟨N, hN⟩ := examineAt_eventually h
    refine ⟨max N (xs.length + 1), fun n hn => ?_⟩
    have hdraw : s.draw n = .complete xs := hs.draw_eq_complete (by omega)
    have hall : Delivery.concat (xs.zipIdx.map fun x => (c.examineAt n x).filter Delivery.ended) =
        .complete (elementFindings g xs) := by
      refine Delivery.concat_complete _ _ _ fun x hx => ?_
      rw [hN n (by omega) x hx]
      rfl
    simp only [hdraw, Delivery.complete]
    rw [hall]
    simp [Delivery.append, Delivery.complete]

theorem countItems_settles (b : SizeBound) (limit : Nat) (w : Wording) (xs : List α) :
    (countItems b limit w).Settles xs (b.findings limit xs.length w) := by
  refine ofFindings_settles _ _ xs _ ?_ ⟨0, fun _ _ => rfl⟩
  intro n d hd
  cases hd
  exact Delivery.reads_complete _

theorem countDrawn_settles (b : SizeBound) (limit : Nat) (w : Wording) {s : Source α}
    {xs : List α} (hs : s.Yields xs) :
    (countDrawn b limit w).Settles s (b.findings limit xs.length w) := by
  refine ofFindings_settles _ _ s _ ?_ ⟨xs.length + 1, fun n hn => ?_⟩
  · intro n d hd
    simp only [Option.ite_none_right_eq_some, Option.some.injEq] at hd
    obtain ⟨he, rfl⟩ := hd
    rw [hs.draw_eq_complete ((hs.ended_draw n).1 he)]
    exact Delivery.reads_complete _
  · rw [hs.draw_eq_complete (by omega)]
    rfl

theorem both_settles {l r : Checker α} {x : α} {fs gs : List Finding} (hl : l.Settles x fs)
    (hr : r.Settles x gs) (w : Wording) :
    (l.both r w).Settles x ((fs ++ gs).map (Finding.reworded w)) where
  reads n d hd := by
    obtain ⟨d₁, h₁, hd⟩ := Option.bind_eq_some_iff.1 hd
    obtain ⟨d₂, h₂, hd⟩ := Option.bind_eq_some_iff.1 hd
    cases hd
    exact ((hl.reads n d₁ h₁).append (hr.reads n d₂ h₂)).map _
  decides n b hb := by
    obtain ⟨b₁, h₁, hb⟩ := Option.bind_eq_some_iff.1 hb
    have hfs := hl.decides n b₁ h₁
    rw [List.isEmpty_map]
    -- After a rejection by the left side the right one may not have an answer.
    cases b₁ with
    | true =>
      have hgs := hr.decides n b hb
      rw [List.isEmpty_iff.1 hfs.symm, List.nil_append]
      exact hgs
    | false =>
      cases hb
      cases fs with
      | nil => cases hfs
      | cons => rfl
  eventually := by
    obtain ⟨M, hM⟩ := hl.eventually
    obtain ⟨N, hN⟩ := hr.eventually
    refine ⟨max M N, fun n hn => ?_⟩
    obtain ⟨hel, hal⟩ := hM n (by omega)
    obtain ⟨her, har⟩ := hN n (by omega)
    constructor
    · simp only [both, hel, her]
      rfl
    · simp only [both, hal, har]
      cases fs <;> simp

end Checker

namespace SequenceSchema

variable {ε α : Type}

/-- The findings of a schema of sequences in a list of elements, given those in each element. -/
def findings (g : ε → α → List Finding) : SequenceSchema ε → List α → List Finding
  | each e _, xs => Checker.elementFindings (g e) xs
  | size b limit w, xs => b.findings limit xs.length w
  | both l r w, xs => (l.findings g xs ++ r.findings g xs).map (Finding.reworded w)

def elements : SequenceSchema ε → List ε
  | each e _ => [e]
  | size _ _ _ => []
  | both l r _ => l.elements ++ r.elements

theorem onList_settles_elements (element : ε → Checker α) (g : ε → α → List Finding)
    (o : SequenceSchema ε) (xs : List α)
    (h : ∀ e ∈ o.elements, ∀ x ∈ xs, (element e).Settles x (g e x)) :
    (o.onList element).Settles xs (o.findings g xs) := by
  induction o with
  | each e w => exact Checker.eachItem_settles (h e (.head _))
  | size b limit w => exact Checker.countItems_settles b limit w xs
  | both l r w ihl ihr =>
    exact Checker.both_settles (ihl fun e he => h e (List.mem_append_left _ he))
      (ihr fun e he => h e (List.mem_append_right _ he)) w

theorem onSource_settles_elements (element : ε → Checker α) (g : ε → α → List Finding)
    (o : SequenceSchema ε) {s : Source α} {xs : List α} (hs : s.Yields xs)
    (h : ∀ e ∈ o.elements, ∀ x ∈ xs, (element e).Settles x (g e x)) :
    (o.onSource element).Settles s (o.findings g xs) := by
  induction o with
  | each e w => exact Checker.eachDrawn_settles hs (h e (.head _))
  | size b limit w => exact Checker.countDrawn_settles b limit w hs
  | both l r w ihl ihr =>
    exact Checker.both_settles (ihl fun e he => h e (List.mem_append_left _ he))
      (ihr fun e he => h e (List.mem_append_right _ he)) w

theorem onList_settles (element : ε → Checker α) (g : ε → α → List Finding) (o : SequenceSchema ε)
    (xs : List α) (h : ∀ e, ∀ x ∈ xs, (element e).Settles x (g e x)) :
    (o.onList element).Settles xs (o.findings g xs) :=
  o.onList_settles_elements element g xs fun e _ => h e

theorem onSource_settles (element : ε → Checker α) (g : ε → α → List Finding)
    (o : SequenceSchema ε) {s : Source α} {xs : List α} (hs : s.Yields xs)
    (h : ∀ e, ∀ x ∈ xs, (element e).Settles x (g e x)) :
    (o.onSource element).Settles s (o.findings g xs) :=
  o.onSource_settles_elements element g hs fun e _ => h e

end SequenceSchema
end Conform
