import Conform.Proofs.Report
import Conform.Proofs.Schema.Messages
import Conform.Proofs.Sequence.Rejection

set_option autoImplicit false

namespace Conform

namespace Delivery

variable {α β γ : Type}

@[simp]
theorem map_map (f : α → β) (g : β → γ) (d : Delivery α) : (d.map f).map g = d.map (g ∘ f) := by
  simp [Delivery.map]

@[simp]
theorem map_concat (f : α → β) (ds : List (Option (Delivery α))) :
    (concat ds).map f = concat (ds.map (Option.map (Delivery.map f))) := by
  induction ds with
  | nil => rfl
  | cons d ds ih =>
    cases d with
    | none => rfl
    | some d => simp [concat, ih]

theorem filter_ended_map (f : α → β) (d? : Option (Delivery α)) :
    (d?.filter Delivery.ended).map (Delivery.map f) =
      (d?.map (Delivery.map f)).filter Delivery.ended := by
  cases d? with
  | none => rfl
  | some d =>
    obtain ⟨items, ended⟩ := d
    cases ended <;> rfl

end Delivery

namespace Checker

variable {α : Type}

def defects (c : Checker α) (x : α) (n : Nat) : Option (Delivery Defect) :=
  (c.examine x n).map (.map Finding.toDefect)

/-- The checkers describe, accept and find the same, at the same time. -/
structure Alike (c d : Checker α) : Prop where
  description : c.description = d.description
  accepts : ∀ x n, c.accepts x n = d.accepts x n
  defects : ∀ x n, c.defects x n = d.defects x n

theorem Alike.symm {c d : Checker α} (h : c.Alike d) : d.Alike c where
  description := h.description.symm
  accepts x n := (h.accepts x n).symm
  defects x n := (h.defects x n).symm

theorem Alike.trans {b c d : Checker α} (h : b.Alike c) (h' : c.Alike d) : b.Alike d where
  description := h.description.trans h'.description
  accepts x n := (h.accepts x n).trans (h'.accepts x n)
  defects x n := (h.defects x n).trans (h'.defects x n)

theorem accepts_ofFindings (description : String) (examine : α → Nat → Option (Delivery Finding))
    (x : α) (n : Nat) : (ofFindings description examine).accepts x n =
      ((ofFindings description examine).defects x n).bind Delivery.isEmpty? := by
  cases h : examine x n <;> simp [ofFindings, defects, h]

theorem ofFindings_alike {description description' : String}
    {examine examine' : α → Nat → Option (Delivery Finding)} (hd : description = description')
    (h : ∀ x n, (ofFindings description examine).defects x n =
      (ofFindings description' examine').defects x n) :
    (ofFindings description examine).Alike (ofFindings description' examine') where
  description := hd
  -- The verdict of such a checker can be told from the defects.
  accepts x n := by rw [accepts_ofFindings, accepts_ofFindings, h]
  defects := h

theorem examineAt_toDefect (c : Checker α) (n : Nat) (x : α × Nat) :
    (c.examineAt n x).map (Delivery.map Finding.toDefect) =
      (c.defects x.1 n).map (Delivery.map (Defect.under (.index x.2))) := by
  simp [examineAt, defects, Function.comp_def]

theorem Alike.examineAt {c d : Checker α} (h : c.Alike d) (n : Nat) (x : α × Nat) :
    (c.examineAt n x).map (Delivery.map Finding.toDefect) =
      (d.examineAt n x).map (Delivery.map Finding.toDefect) := by
  rw [examineAt_toDefect, examineAt_toDefect, h.defects]

theorem Alike.eachDescription {c d : Checker α} (h : c.Alike d) :
    c.eachDescription = d.eachDescription := by
  unfold Checker.eachDescription
  rw [h.description]

theorem Alike.eachItem {c d : Checker α} (h : c.Alike d) : c.eachItem.Alike d.eachItem := by
  refine ofFindings_alike h.eachDescription fun items n => congrArg some ?_
  rw [Delivery.map_concat, Delivery.map_concat, List.map_map, List.map_map]
  exact congrArg _ (List.map_congr_left fun x _ => h.examineAt n x)

theorem Alike.eachDrawn {c d : Checker α} (h : c.Alike d) : c.eachDrawn.Alike d.eachDrawn := by
  refine ofFindings_alike h.eachDescription fun s n => congrArg some ?_
  rw [Delivery.map_append, Delivery.map_append, Delivery.map_concat, Delivery.map_concat,
    List.map_map, List.map_map]
  refine congrArg (fun ds => (Delivery.concat ds).append _) (List.map_congr_left fun x _ => ?_)
  change ((c.examineAt n x).filter _).map _ = ((d.examineAt n x).filter _).map _
  rw [Delivery.filter_ended_map, Delivery.filter_ended_map, h.examineAt]

theorem toDefect_sizeFindings (b : SizeBound) (limit n : Nat) (w w' : Wording) :
    (b.findings limit n w).map Finding.toDefect = (b.findings limit n w').map Finding.toDefect := by
  unfold SizeBound.findings
  split <;> rfl

theorem countItems_alike (b : SizeBound) (limit : Nat) (w w' : Wording) :
    (countItems b limit w : Checker (List α)).Alike (countItems b limit w') := by
  refine ofFindings_alike rfl fun items n => ?_
  exact congrArg (some ∘ Delivery.complete) (toDefect_sizeFindings b limit items.length w w')

theorem countDrawn_alike (b : SizeBound) (limit : Nat) (w w' : Wording) :
    (countDrawn b limit w : Checker (Source α)).Alike (countDrawn b limit w') := by
  refine ofFindings_alike rfl fun s n => ?_
  have hfindings := toDefect_sizeFindings b limit (s.draw n).items.length w w'
  change Option.map _ (if (s.draw n).ended then _ else _) =
    Option.map _ (if (s.draw n).ended then _ else _)
  split
  · exact congrArg (some ∘ Delivery.complete) hfindings
  · rfl

theorem defects_both (l r : Checker α) (w : Wording) (x : α) (n : Nat) :
    (l.both r w).defects x n = (l.defects x n).bind fun left =>
      (r.defects x n).map fun right => left.append right := by
  change Option.map _ ((l.examine x n).bind fun left => (r.examine x n).bind fun right => _) = _
  unfold defects
  cases l.examine x n with
  | none => rfl
  | some left =>
    cases r.examine x n with
    | none => rfl
    | some right => simp [Function.comp_def]

theorem Alike.both {l l' r r' : Checker α} (hl : l.Alike l') (hr : r.Alike r') (w w' : Wording) :
    (l.both r w).Alike (l'.both r' w') where
  description := congrArg₂ (fun a b => a ++ " & " ++ b) hl.description hr.description
  accepts x n := by
    change (do if ← l.accepts x n then r.accepts x n else some false) = _
    rw [hl.accepts, hr.accepts]
    rfl
  defects x n := by rw [defects_both, defects_both, hl.defects, hr.defects]

end Checker

namespace SequenceSchema

variable {ε α : Type}

def withoutMessages (plain : ε → ε) : SequenceSchema ε → SequenceSchema ε
  | each e _ => each (plain e) .standard
  | size b limit _ => size b limit .standard
  | both l r _ => both (l.withoutMessages plain) (r.withoutMessages plain) .standard

theorem worded_of_forall {ok : Wording → Prop} (o : SequenceSchema ε) (h : ∀ w, ok w) :
    o.Worded ok := by
  induction o with
  | each e w => exact h w
  | size b limit w => exact h w
  | both l r w ihl ihr => exact ⟨h w, ihl, ihr⟩

theorem onList_alike {read : ε → Checker α} {plain : ε → ε}
    (h : ∀ e, (read e).Alike (read (plain e))) (o : SequenceSchema ε) :
    (o.onList read).Alike ((o.withoutMessages plain).onList read) := by
  induction o with
  | each e w => exact (h e).eachItem
  | size b limit w => exact Checker.countItems_alike b limit w .standard
  | both l r w ihl ihr => exact ihl.both ihr w .standard

theorem onSource_alike {read : ε → Checker α} {plain : ε → ε}
    (h : ∀ e, (read e).Alike (read (plain e))) (o : SequenceSchema ε) :
    (o.onSource read).Alike ((o.withoutMessages plain).onSource read) := by
  induction o with
  | each e w => exact (h e).eachDrawn
  | size b limit w => exact Checker.countDrawn_alike b limit w .standard
  | both l r w ihl ihr => exact ihl.both ihr w .standard

end SequenceSchema

namespace Checker

/-- What schemas of a type mean for inputs of a type: documents, lists or sources, on any number of
levels. `plain` takes the messages away, and `ends` holds of inputs that end on every level. -/
inductive Reading : {ε α : Type} → (ε → Checker α) → (ε → ε) → (α → Prop) → Prop where
  | documents : Reading Schema.checker Schema.withoutMessages fun _ => True
  | lists {ε α : Type} {read : ε → Checker α} {plain : ε → ε} {ends : α → Prop}
      (h : Reading read plain ends) :
      Reading (·.onList read) (SequenceSchema.withoutMessages plain) fun xs => ∀ x ∈ xs, ends x
  | sources {ε α : Type} {read : ε → Checker α} {plain : ε → ε} {ends : α → Prop}
      (h : Reading read plain ends) :
      Reading (·.onSource read) (SequenceSchema.withoutMessages plain)
        fun s => ∃ xs, s.Yields xs ∧ ∀ x ∈ xs, ends x

namespace Reading

variable {ε α : Type} {read : ε → Checker α} {plain : ε → ε} {ends : α → Prop}

theorem alike_plain (h : Reading read plain ends) (s : ε) :
    (read s).Alike (read (plain s)) := by
  induction h with
  | documents =>
    refine ⟨s.description_withoutMessages.symm, fun v n => ?_, fun v n => ?_⟩
    · exact congrArg some (s.accepts_withoutMessages v).symm
    · exact congrArg (some ∘ Delivery.complete) (s.toDefect_findings_withoutMessages v).symm
  | lists _ ih => exact SequenceSchema.onList_alike ih s
  | sources _ ih => exact SequenceSchema.onSource_alike ih s

-- Two schemas are compared through the one that is left of both.
theorem alike (h : Reading read plain ends) {s t : ε} (hst : plain s = plain t) :
    (read s).Alike (read t) :=
  (h.alike_plain s).trans (hst ▸ (h.alike_plain t).symm)

theorem finite (h : Reading read plain ends) (s : ε) {x : α} (hx : ends x) :
    (read s).Finite (fun _ => True) x := by
  induction h with
  | documents => exact .document s x (s.worded_of_forall fun _ => trivial)
  | @lists _ _ read _ _ _ ih =>
    exact .list read s x (s.worded_of_forall fun _ => trivial) fun e _ y hy => ih e (hx y hy)
  | @sources _ _ read _ _ _ ih =>
    obtain ⟨xs, hyields, hends⟩ := hx
    exact .source read s hyields (s.worded_of_forall fun _ => trivial)
      fun e _ y hy => ih e (hends y hy)

end Reading

end Checker

def Refusal.place (r : Refusal) : Path × DefectKind := (r.path, r.kind)

namespace Checker

variable {α : Type}

theorem ensure_place (c : Checker α) (x : α) (n : Nat) :
    (c.ensure x n).map (fun a => a.value.mapError Refusal.place) =
      (c.defects x n).bind fun d =>
        match d.items with
        | p :: _ => some (.error (p.path, p.kind))
        | [] => if d.ended then some (.ok ()) else none := by
  unfold ensure defects
  cases c.examine x n with
  | none => rfl
  | some d =>
    obtain ⟨items, ended⟩ := d
    cases items with
    | nil => cases ended <;> rfl
    | cons f rest => rfl

theorem outcome_place (c : Checker α) (fs : List Finding) :
    (c.outcome fs).value.mapError Refusal.place =
      match fs.map Finding.toDefect with
      | p :: _ => .error (p.path, p.kind)
      | [] => .ok () := by
  cases fs <;> rfl

theorem Alike.map_toDefect {c d : Checker α} (h : c.Alike d) {x : α} {fs gs : List Finding}
    (hc : c.Settles x fs) (hd : d.Settles x gs) :
    fs.map Finding.toDefect = gs.map Finding.toDefect := by
  obtain ⟨M, hM⟩ := hc.eventually
  obtain ⟨N, hN⟩ := hd.eventually
  have heq := h.defects x (max M N)
  unfold Checker.defects at heq
  rw [(hM _ (Nat.le_max_left M N)).1, (hN _ (Nat.le_max_right M N)).1] at heq
  exact congrArg Delivery.items (Option.some.inj heq)

end Checker

/-- Schemas that differ in nothing but messages check the same. At no time do their descriptions,
verdicts, defects or places of refusal differ, and for an input that ends they come to give the same
verdict, refuse it at the same place, and report the same defects. -/
theorem messages_have_no_say {ε α : Type} {read : ε → Checker α} {plain : ε → ε}
    {ends : α → Prop} (h : Checker.Reading read plain ends) {s t : ε} (hst : plain s = plain t) :
    (read s).Alike (read t) ∧
    (∀ x n, ((read s).ensure x n).map (fun a => a.value.mapError Refusal.place) =
      ((read t).ensure x n).map fun a => a.value.mapError Refusal.place) ∧
    ∀ x, ends x → ∃ b fs gs a a' r r',
      (read s).Faithful x b fs a r ∧ (read t).Faithful x b gs a' r' ∧
      fs.map Finding.toDefect = gs.map Finding.toDefect ∧
      a.value.mapError Refusal.place = a'.value.mapError Refusal.place ∧
      r.value.violations.map Violation.toDefect = r'.value.violations.map Violation.toDefect := by
  have halike : (read s).Alike (read t) := h.alike hst
  refine ⟨halike, fun x n => ?_, fun x hx => ?_⟩
  · rw [Checker.ensure_place, Checker.ensure_place, halike.defects]
  · obtain ⟨fs, hfs, _⟩ := (h.finite s hx).settles
    obtain ⟨gs, hgs, _⟩ := (h.finite t hx).settles
    have hdefects := halike.map_toDefect hfs hgs
    have hempty : gs.isEmpty = fs.isEmpty := by
      rw [← List.isEmpty_map (f := Finding.toDefect), ← hdefects, List.isEmpty_map]
    refine ⟨_, fs, gs, _, _, _, _, hfs.faithful, hempty ▸ hgs.faithful, hdefects, ?_, ?_⟩
    · rw [Checker.outcome_place, Checker.outcome_place, hdefects]
    · simpa [Finding.violation, Function.comp_def] using hdefects

/-- A source of one source, with a document that is no text and one too many. Its place is worded
by the message of the text or by that of the intersection. -/
theorem messages_have_no_say_in_source_of_sources :
    let text (w : Wording) : Schema := .category .string w
    let s : SequenceSchema (SequenceSchema Schema) :=
      .each (.both (.each (text .standard) .standard) (.size .atMost 1 .standard)
        (.custom (.fixed "one text"))) .standard
    let t : SequenceSchema (SequenceSchema Schema) :=
      .each (.both (.each (text (.custom (.computed fun d => d.path.text))) .standard)
        (.size .atMost 1 .standard) .standard) (.custom (.fixed "texts"))
    let plain := SequenceSchema.withoutMessages (SequenceSchema.withoutMessages
      Schema.withoutMessages)
    let read (o : SequenceSchema (SequenceSchema Schema)) := o.onSource (·.onSource Schema.checker)
    let x : Source (Source Value) := .ofList [.ofList [.null, .string "a"]]
    plain s = plain t ∧ (∃ xs, x.Yields xs ∧ ∀ y ∈ xs, ∃ vs, y.Yields vs ∧ ∀ v ∈ vs, True) ∧
    ∃ b fs gs a a' r r', (read s).Faithful x b fs a r ∧ (read t).Faithful x b gs a' r' ∧
      fs.map Finding.toDefect = gs.map Finding.toDefect := by
  intro text s t plain read x
  have hplain : plain s = plain t := by
    simp only [plain, s, t, text, SequenceSchema.withoutMessages, Schema.withoutMessages]
  have hx : ∃ xs, x.Yields xs ∧ ∀ y ∈ xs, ∃ vs, y.Yields vs ∧ ∀ v ∈ vs, True := by
    refine ⟨_, Source.ofList_yields _, List.forall_mem_singleton.2 ?_⟩
    exact ⟨_, Source.ofList_yields _, fun _ _ => trivial⟩
  obtain ⟨b, fs, gs, a, a', r, r', hs, ht, hdefects, _⟩ :=
    (messages_have_no_say (.sources (.sources .documents)) hplain).2.2 x hx
  exact ⟨hplain, hx, b, fs, gs, a, a', r, r', hs, ht, hdefects⟩

end Conform
