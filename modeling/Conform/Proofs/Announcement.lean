import Conform.Proofs.Schema.ReadingOrder
import Conform.Proofs.Schema.Regrouping
import Conform.Proofs.Sequence.Nesting

set_option autoImplicit false

namespace Conform

/-- At the root of an input nothing is found that is worded otherwise. -/
def Checker.WordsRoot {α : Type} (c : Checker α) (w : Wording) : Prop :=
  ∀ x n d, c.examine x n = some d → ∀ f ∈ d.items, f.path = [] → f.wording = w

namespace Schema

theorem wording_of_root_finding {s : Schema} (hs : s.isIntersection = false) {v : Value}
    {f : Finding} (hf : f ∈ s.findings v) (hroot : f.path = []) : f.wording = s.wording := by
  rw [findings_eq_children, List.mem_append, List.mem_flatMap] at hf
  rcases hf with hown | ⟨c, hc, hf⟩
  · obtain ⟨d, -, rfl⟩ := Option.map_eq_some_iff.1 (Option.mem_toList.1 hown)
    rfl
  · obtain ⟨a, ha⟩ := exists_segment_of_step hs (step_of_mem_children hc)
    obtain ⟨p, hp⟩ := Site.prefix_of_mem_findings hf
    rw [hroot, ha] at hp
    cases hp

theorem checker_wordsRoot {s : Schema} (hs : s.isIntersection = false) :
    s.checker.WordsRoot s.wording := by
  intro v n d hd f hf hroot
  cases hd
  exact wording_of_root_finding hs hf hroot

end Schema

namespace Checker

variable {α : Type}

theorem path_ne_nil_of_mem_examineAt {c : Checker α} {n : Nat} {x : α × Nat}
    {d : Delivery Finding} (hd : c.examineAt n x = some d) {f : Finding} (hf : f ∈ d.items) :
    f.path ≠ [] := by
  obtain ⟨e, -, rfl⟩ := Option.map_eq_some_iff.1 hd
  obtain ⟨g, -, rfl⟩ := List.mem_map.1 hf
  exact List.cons_ne_nil _ _

theorem eachItem_wordsRoot (c : Checker α) (w : Wording) : c.eachItem.WordsRoot w := by
  intro xs n d hd f hf hroot
  cases hd
  obtain ⟨e, he, hfe⟩ := Delivery.exists_of_mem_items_concat hf
  obtain ⟨x, -, hx⟩ := List.mem_map.1 he
  exact absurd hroot (path_ne_nil_of_mem_examineAt hx hfe)

theorem eachDrawn_wordsRoot (c : Checker α) (w : Wording) : c.eachDrawn.WordsRoot w := by
  intro s n d hd f hf hroot
  cases hd
  rw [Delivery.items_append_nil] at hf
  obtain ⟨e, he, hfe⟩ := Delivery.exists_of_mem_items_concat hf
  obtain ⟨x, -, hx⟩ := List.mem_map.1 he
  exact absurd hroot (path_ne_nil_of_mem_examineAt (Option.filter_eq_some_iff.1 hx).1 hfe)

theorem wording_of_mem_sizeFindings {b : SizeBound} {limit n : Nat} {w : Wording} {f : Finding}
    (hf : f ∈ b.findings limit n w) : f.wording = w := by
  unfold SizeBound.findings at hf
  split at hf
  · cases hf
  · rw [List.mem_singleton.1 hf]

theorem countItems_wordsRoot (b : SizeBound) (limit : Nat) (w : Wording) :
    (countItems b limit w : Checker (List α)).WordsRoot w := by
  intro xs n d hd f hf _
  cases hd
  exact wording_of_mem_sizeFindings hf

theorem countDrawn_wordsRoot (b : SizeBound) (limit : Nat) (w : Wording) :
    (countDrawn b limit w : Checker (Source α)).WordsRoot w := by
  intro s n d hd f hf _
  obtain ⟨-, hd⟩ := Option.ite_none_right_eq_some.1 hd
  cases hd
  exact wording_of_mem_sizeFindings hf

end Checker

namespace SequenceSchema

variable {ε α : Type}

def isIntersection : SequenceSchema ε → Bool
  | both _ _ _ => true
  | _ => false

theorem wording_onList (element : ε → Checker α) {o : SequenceSchema ε}
    (ho : o.isIntersection = false) : (o.onList element).wording = .standard := by
  cases o with
  | each | size => rfl
  | both => cases ho

theorem wording_onSource (element : ε → Checker α) {o : SequenceSchema ε}
    (ho : o.isIntersection = false) : (o.onSource element).wording = .standard := by
  cases o with
  | each | size => rfl
  | both => cases ho

end SequenceSchema

/-- A check of documents that is no intersection words what it finds at the root as it announces,
and so does the left side of an intersection without a message as that one announces. On lists and
sources a check of each element finds nothing at the root, and a size check words what it finds by
its own message. What they announce is the standard wording, and an intersection without a message
announces it for them. -/
theorem root_worded_as_announced {ε α : Type} (element : ε → Checker α) :
    (∀ s : Schema, s.isIntersection = false → s.checker.WordsRoot s.checker.wording) ∧
    (∀ l r : Schema, l.isIntersection = false →
      (∀ v, (Schema.both l r .standard).findings v = l.findings v ++ r.findings v) ∧
        l.checker.WordsRoot (Schema.both l r .standard).checker.wording) ∧
    (∀ e w u, ((SequenceSchema.each e w).onList element).WordsRoot u ∧
      ((SequenceSchema.each e w).onSource element).WordsRoot u) ∧
    (∀ b limit w, ((SequenceSchema.size b limit w).onList element).WordsRoot w ∧
      ((SequenceSchema.size b limit w).onSource element).WordsRoot w) ∧
    ∀ o r : SequenceSchema ε, o.isIntersection = false →
      ((o.onList element).wording = .standard ∧ (o.onSource element).wording = .standard) ∧
        ((o.both r .standard).onList element).wording = .standard ∧
        ((o.both r .standard).onSource element).wording = .standard := by
  refine ⟨fun s hs => s.checker_wordsRoot hs, fun l r hl => ⟨fun v => ?_, ?_⟩, fun e w u => ?_,
    fun b limit w => ?_, fun o r ho => ?_⟩
  · simp [Schema.findings]
  · exact l.checker_wordsRoot hl
  · exact ⟨(element e).eachItem_wordsRoot u, (element e).eachDrawn_wordsRoot u⟩
  · exact ⟨Checker.countItems_wordsRoot b limit w, Checker.countDrawn_wordsRoot b limit w⟩
  · have hlist := o.wording_onList element ho
    have hsource := o.wording_onSource element ho
    exact ⟨⟨hlist, hsource⟩, hlist, hsource⟩

/-- A pair with a message, alone and on the left of an intersection, for a document that is no
array; and a size without a message. -/
theorem root_worded_as_announced_by_pair :
    let m : Message := .fixed "a pair"
    let pair : Schema := .tuple [.category .string .standard] (.custom m)
    let s : Schema := .both pair (.category .number .standard) .standard
    let o : SequenceSchema Schema := .size .atLeast 2 .standard
    pair.isIntersection = false ∧ o.isIntersection = false ∧
      pair.findings .null = [⟨.shape "array" .null, .custom m⟩] ∧
      pair.checker.WordsRoot pair.checker.wording ∧ pair.checker.WordsRoot s.checker.wording ∧
      (o.onList Schema.checker).WordsRoot (o.onList Schema.checker).wording := by
  intro m pair s o
  obtain ⟨document, left, -, size, announced⟩ := root_worded_as_announced Schema.checker
  refine ⟨rfl, rfl, rfl, document pair rfl, (left pair _ rfl).2, ?_⟩
  rw [(announced o o rfl).1.1]
  exact (size .atLeast 2 .standard).1

/-- Two elements are asked for, with a message, and there is none. The finding has the message, on a
list and on a source, but what is announced is the standard wording. -/
theorem message_of_size_not_announced :
    let o : SequenceSchema Schema := .size .atLeast 2 (.custom (.fixed "two at least"))
    ¬ (o.onList Schema.checker).WordsRoot (o.onList Schema.checker).wording ∧
      ¬ (o.onSource Schema.checker).WordsRoot (o.onSource Schema.checker).wording := by
  intro o
  constructor
  · intro h
    cases h [] 0 _ rfl _ (.head _) rfl
  · intro h
    cases h (.ofList []) 1 _ rfl _ (.head _) rfl

end Conform
