import Conform.Proofs.Agreement
import Conform.Proofs.Schema.Attribution
import Conform.Report
import Mathlib.Data.List.Forall2
import Mathlib.Tactic.Choose

set_option autoImplicit false

namespace Conform

/-- What a wording says of a defect. A message that computes its text is given all of the defect,
with the path that it has by then. -/
inductive Wording.Says : Wording → Defect → String → Prop where
  | fixed (t : String) (d : Defect) : Says (.custom (.fixed t)) d t
  | computed (g : Defect → String) (d : Defect) : Says (.custom (.computed g)) d (g d)
  | standard_root {d : Defect} (h : d.path = []) : Says .standard d d.summary
  | standard_inside {d : Defect} (h : d.path ≠ []) :
      Says .standard d ("'" ++ d.path.text ++ "' " ++ d.summary)

theorem Wording.says_message (w : Wording) (d : Defect) : w.Says d (w.message d) := by
  cases w with
  | custom m =>
    cases m with
    | fixed t => exact .fixed t d
    | computed g => exact .computed g d
  | standard =>
    change Says .standard d d.sentence
    unfold Defect.sentence
    split
    · next h => exact .standard_root (List.isEmpty_iff.1 h)
    · next h => exact .standard_inside (mt List.isEmpty_iff.2 h)

theorem Wording.Says.of_standard {d : Defect} {t : String} (h : Wording.standard.Says d t) :
    t = if d.path = [] then d.summary else "'" ++ d.path.text ++ "' " ++ d.summary := by
  cases h with
  | standard_root h => rw [if_pos h]
  | standard_inside h => rw [if_neg h]

namespace SequenceSchema

variable {ε α : Type}

def Worded (ok : Wording → Prop) : SequenceSchema ε → Prop
  | each _ w | size _ _ w => ok w
  | both l r w => ok w ∧ l.Worded ok ∧ r.Worded ok

theorem Worded.findings {ok : Wording → Prop} {o : SequenceSchema ε} (ho : o.Worded ok)
    (g : ε → α → List Finding) (xs : List α)
    (h : ∀ e ∈ o.elements, ∀ x ∈ xs, ∀ f ∈ g e x, ok f.wording) :
    ∀ f ∈ o.findings g xs, ok f.wording := by
  induction o with
  | each e w =>
    intro f hf
    obtain ⟨x, hx, hf⟩ := List.mem_flatMap.1 hf
    obtain ⟨f₀, hf₀, rfl⟩ := List.mem_map.1 hf
    exact h e (.head _) x.1 (List.fst_mem_of_mem_zipIdx hx) f₀ hf₀
  | size b limit w =>
    intro f hf
    simp only [SequenceSchema.findings, SizeBound.findings] at hf
    split at hf
    · cases hf
    · rw [List.mem_singleton.1 hf]
      exact ho
  | both l r w ihl ihr =>
    intro f hf
    obtain ⟨f₀, hf₀, rfl⟩ := List.mem_map.1 hf
    have hside : ok f₀.wording := by
      rcases List.mem_append.1 hf₀ with hl | hr
      · exact ihl ho.2.1 (fun e he => h e (List.mem_append_left _ he)) f₀ hl
      · exact ihr ho.2.2 (fun e he => h e (List.mem_append_right _ he)) f₀ hr
    change ok (w.orElse f₀.wording)
    cases w with
    | standard => exact hside
    | custom m => exact ho.1

end SequenceSchema

namespace Checker

/-- A checker that is what a schema means for documents, for lists or for sources, with an input
that comes to an end on every level. The wordings in the schema have the property `ok`. -/
inductive Finite (ok : Wording → Prop) : {α : Type} → Checker α → α → Prop where
  | document (s : Schema) (v : Value) (hs : s.Worded ok) : Finite ok s.checker v
  | list {ε α : Type} (element : ε → Checker α) (o : SequenceSchema ε) (xs : List α)
      (ho : o.Worded ok) (h : ∀ e ∈ o.elements, ∀ x ∈ xs, Finite ok (element e) x) :
      Finite ok (o.onList element) xs
  | source {ε α : Type} (element : ε → Checker α) (o : SequenceSchema ε) {s : Source α}
      {xs : List α} (hs : s.Yields xs) (ho : o.Worded ok)
      (h : ∀ e ∈ o.elements, ∀ x ∈ xs, Finite ok (element e) x) : Finite ok (o.onSource element) s

theorem Finite.settles {ok : Wording → Prop} {α : Type} {c : Checker α} {x : α}
    (h : c.Finite ok x) : ∃ fs, c.Settles x fs ∧ ∀ f ∈ fs, ok f.wording := by
  induction h with
  | document s v hs => exact ⟨s.findings v, s.settles v, hs.findings⟩
  | list element o xs ho _ ih =>
    choose! g hg using ih
    refine ⟨o.findings g xs, ?_, ho.findings g xs fun e he x hx => (hg e he x hx).2⟩
    exact o.onList_settles_elements element g xs fun e he x hx => (hg e he x hx).1
  | @source _ _ element o s xs hs ho _ ih =>
    choose! g hg using ih
    refine ⟨o.findings g xs, ?_, ho.findings g xs fun e he x hx => (hg e he x hx).2⟩
    exact o.onSource_settles_elements element g hs fun e he x hx => (hg e he x hx).1

variable {α : Type} {c : Checker α} {x : α}

def outcome (c : Checker α) : List Finding → Logged (Except Refusal Unit)
  | [] => ⟨.ok (), []⟩
  | f :: _ => ⟨.error f.refusal, [.refused f.path f.kind c.description]⟩

theorem ensure_complete {n : Nat} {fs : List Finding}
    (h : c.examine x n = some (.complete fs)) : c.ensure x n = some (c.outcome fs) := by
  refine Option.bind_eq_some_iff.2 ⟨_, h, ?_⟩
  cases fs <;> rfl

theorem Settles.ensure_iff {fs : List Finding} (h : c.Settles x fs)
    (a : Logged (Except Refusal Unit)) : (∃ n, c.ensure x n = some a) ↔ a = c.outcome fs := by
  constructor
  · rintro ⟨n, hn⟩
    obtain ⟨d, hd, hn⟩ := Option.bind_eq_some_iff.1 hn
    obtain ⟨more, hmore⟩ := (h.reads n d hd).isPrefix
    cases hi : d.items with
    | cons f rest =>
      simp only [hi, Option.some.injEq] at hn
      rw [← hn, ← hmore, hi]
      rfl
    | nil =>
      simp only [hi, Option.ite_none_right_eq_some, Option.some.injEq] at hn
      rw [← hn.2, ← (h.reads n d hd).eq_of_ended hn.1, hi]
      rfl
  · rintro rfl
    obtain ⟨N, hN⟩ := h.eventually
    exact ⟨N, ensure_complete (hN N (Nat.le_refl N)).1⟩

theorem Settles.report_iff {fs : List Finding} (h : c.Settles x fs) (r : Logged Report) :
    (∃ n, c.report x n = some r) ↔
      r = ⟨.ofFindings fs, [.reported c.description fs.length]⟩ := by
  constructor
  · rintro ⟨n, hn⟩
    obtain ⟨d, hd, hn⟩ := Option.bind_eq_some_iff.1 hn
    simp only [Option.ite_none_right_eq_some, Option.some.injEq] at hn
    rw [← hn.2, (h.reads n d hd).eq_of_ended hn.1]
  · rintro rfl
    obtain ⟨N, hN⟩ := h.eventually
    exact ⟨N, Option.bind_eq_some_iff.2 ⟨_, (hN N (Nat.le_refl N)).1, rfl⟩⟩

/-- The verdict `b`, the outcome `a` of ensuring and the report `r` are views of the findings. -/
structure Faithful (c : Checker α) (x : α) (b : Bool) (fs : List Finding)
    (a : Logged (Except Refusal Unit)) (r : Logged Report) : Prop where
  answers : c.Answers x b fs
  ensures : ∀ a', (∃ n, c.ensure x n = some a') ↔ a' = a
  reports : ∀ r', (∃ n, c.report x n = some r') ↔ r' = r
  ok_iff : a.value = .ok () ↔ b = true
  valid_iff : r.value.valid = true ↔ b = true
  violations_nil_iff : r.value.violations = [] ↔ b = true
  violations : List.Forall₂ (fun f v => v.toDefect = f.toDefect ∧
    f.wording.Says f.toDefect v.message) fs r.value.violations
  passed : a.value = .ok () → a.events = []
  refused : ∀ v rest, r.value.violations = v :: rest →
    a.value = .error ⟨v.message, v.path, v.kind⟩ ∧
      ∃ e, a.events = [e] ∧ e.level = "DEBUG" ∧ e.fields.lookup "path" = some v.path.text
  reported : ∃ e, r.events = [e] ∧ e.level = "TRACE" ∧
    e.fields.lookup "violations" = some (toString r.value.violations.length)

end Checker

@[simp]
theorem Report.violations_ofFindings (fs : List Finding) :
    (Report.ofFindings fs).violations = fs.map Finding.violation := by
  cases fs <;> rfl

theorem Checker.Settles.faithful {α : Type} {c : Checker α} {x : α} {fs : List Finding}
    (h : c.Settles x fs) : c.Faithful x fs.isEmpty fs (c.outcome fs)
      ⟨.ofFindings fs, [.reported c.description fs.length]⟩ where
  answers := h.answers
  ensures := h.ensure_iff
  reports := h.report_iff
  ok_iff := by cases fs <;> simp [outcome]
  valid_iff := by cases fs <;> simp [Report.ofFindings, Report.passed, Report.failed]
  violations_nil_iff := by simp
  violations := by
    rw [Report.violations_ofFindings, List.forall₂_map_right_iff]
    exact List.forall₂_same.2 fun f _ => ⟨rfl, f.wording.says_message f.toDefect⟩
  passed ha := by
    cases fs with
    | nil => rfl
    | cons => cases ha
  refused v rest hv := by
    rw [Report.violations_ofFindings] at hv
    cases fs with
    | nil => cases hv
    | cons f more =>
      cases hv
      exact ⟨rfl, _, rfl, rfl, rfl⟩
  reported := by
    refine ⟨_, rfl, rfl, ?_⟩
    rw [Report.violations_ofFindings, List.length_map]
    rfl

/-- Ensuring and reporting are faithful to what is found in an input. The message of each violation
is what the wording of its finding says of the defect where it stands in the whole input, and this
is one of the wordings in the schema. Without messages it says what should be there, preceded by the
place unless that is the root. -/
theorem ensure_and_report_faithful {α : Type} {ok : Wording → Prop} {c : Checker α} {x : α}
    (h : c.Finite ok x) : ∃ b fs a r, c.Faithful x b fs a r ∧ (∀ f ∈ fs, ok f.wording) ∧
      ((∀ w, ok w → w = .standard) → ∀ v ∈ r.value.violations, v.message =
        if v.path = [] then v.summary else "'" ++ v.path.text ++ "' " ++ v.summary) := by
  obtain ⟨fs, hsettles, hok⟩ := h.settles
  refine ⟨_, fs, _, _, hsettles.faithful, hok, fun hstandard v hv => ?_⟩
  rw [Report.violations_ofFindings] at hv
  obtain ⟨f, hf, rfl⟩ := List.mem_map.1 hv
  have hsays : f.wording.Says f.toDefect f.message := f.wording.says_message f.toDefect
  rw [hstandard f.wording (hok f hf)] at hsays
  exact hsays.of_standard

/-- Messages that show the place of a defect, two levels below the root, and two documents of which
neither is a list of texts and one is too many. -/
theorem ensure_and_report_faithful_to_texts :
    (let place : Message := .computed fun d => "look at " ++ d.path.text
    let s : Schema := .arrayOf (.arrayOf (.category .string (.custom place)) .standard) .standard
    let v : Value := .array [.array [.string "a", .null]]
    s.checker.Finite (fun _ => True) v ∧ ∃ b fs a r, s.checker.Faithful v b fs a r ∧
      r.value.messages = ["look at 0.1"]) ∧
    let o : SequenceSchema Schema :=
      .both (.each (.arrayOf (.category .string .standard) .standard) .standard)
        (.size .atMost 1 .standard) .standard
    let s : Source Value := .ofList [.array [.null], .null]
    (o.onSource Schema.checker).Finite (· = .standard) s ∧
      ∃ b fs a r, (o.onSource Schema.checker).Faithful s b fs a r ∧
        ∀ v ∈ r.value.violations, v.message =
          if v.path = [] then v.summary else "'" ++ v.path.text ++ "' " ++ v.summary := by
  constructor
  · intro place s v
    have hfinite : s.checker.Finite (fun _ => True) v :=
      .document s v (s.worded_of_forall fun _ => trivial)
    obtain ⟨b, fs, a, r, h, _⟩ := ensure_and_report_faithful hfinite
    have hr : _ = r := (h.reports _).1 ⟨0, rfl⟩
    refine ⟨hfinite, b, fs, a, r, h, ?_⟩
    rw [← hr]
    decide +kernel
  · intro o s
    have hplain : ∀ e ∈ o.elements, e.Worded (· = .standard) := by
      intro e he
      rw [show e = .arrayOf (.category .string .standard) .standard from List.mem_singleton.1 he]
      exact .node rfl (List.forall_mem_singleton.2 (.node rfl fun _ ht => nomatch ht))
    have hfinite : (o.onSource Schema.checker).Finite (· = .standard) s :=
      .source Schema.checker o (Source.ofList_yields _) ⟨rfl, rfl, rfl⟩
        fun e he x _ => .document e x (hplain e he)
    obtain ⟨b, fs, a, r, h, -, hmessage⟩ := ensure_and_report_faithful hfinite
    exact ⟨hfinite, b, fs, a, r, h, hmessage fun _ hw => hw⟩

end Conform
