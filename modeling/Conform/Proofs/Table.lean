import Conform.Table
import Mathlib.Data.List.Basic
import Mathlib.Data.List.Induction

set_option autoImplicit false

namespace Conform.Table

variable {α β : Type}

theorem lookup_cons_eq_ite (n m : String) (a : α) (es : List (String × α)) :
    ((m, a) :: es).lookup n = if n = m then some a else es.lookup n := by
  by_cases h : n = m
  · simp [h]
  · have hb : (n == m) = false := by simpa using h
    simp [List.lookup_cons, hb, h]

@[simp]
theorem ofList_concat (ds : List (String × α)) (d : String × α) :
    ofList (ds ++ [d]) = (ofList ds).insert d.1 d.2 := by
  simp only [ofList, List.foldl_append, List.foldl_cons, List.foldl_nil]

theorem put_map (f : α → β) (name : String) (a : α) (es : List (String × α)) :
    put name (f a) (es.map (Prod.map id f)) = (put name a es).map (Prod.map id f) := by
  induction es with
  | nil => rfl
  | cons e rest ih =>
    obtain ⟨n, b⟩ := e
    by_cases h : n = name
    · simp [put, h]
    · simp [put, h, ih]

theorem entries_ofList_map (f : α → β) (ds : List (String × α)) :
    (ofList (ds.map (Prod.map id f))).entries = (ofList ds).entries.map (Prod.map id f) := by
  induction ds using List.reverseRecOn with
  | nil => rfl
  | append_singleton ds d ih =>
    rw [List.map_append, List.map_singleton, ofList_concat, ofList_concat]
    change put d.1 (f d.2) (ofList (ds.map (Prod.map id f))).entries = _
    rw [ih, put_map]
    rfl

theorem lookup_put (name n : String) (a : α) (es : List (String × α)) :
    (put name a es).lookup n = if n = name then some a else es.lookup n := by
  induction es with
  | nil => exact lookup_cons_eq_ite n name a []
  | cons e rest ih =>
    obtain ⟨m, b⟩ := e
    by_cases hm : m = name
    · subst hm
      simp only [put, if_true, lookup_cons_eq_ite]
      split <;> rfl
    · simp only [put, hm, if_false, lookup_cons_eq_ite, ih]
      by_cases hn : n = m
      · simp [hn, hm]
      · simp [hn]

theorem lookup_reverse_eq_some_iff (ds : List (String × α)) (name : String) (a : α) :
    ds.reverse.lookup name = some a ↔
      ∃ before after, ds = before ++ (name, a) :: after ∧ name ∉ after.map Prod.fst := by
  rw [List.lookup_eq_some_iff]
  constructor
  · rintro ⟨after, before, e, h⟩
    refine ⟨before.reverse, after.reverse, ?_, ?_⟩
    · rw [← List.reverse_reverse ds, e]
      simp
    · rw [List.map_reverse, List.mem_reverse]
      intro hn
      obtain ⟨d, hd, rfl⟩ := List.mem_map.1 hn
      exact absurd (h d hd) (by simp)
  · rintro ⟨before, after, rfl, h⟩
    refine ⟨after.reverse, before.reverse, by simp, fun d hd => ?_⟩
    have hne : name ≠ d.1 := fun e => h (e ▸ List.mem_map_of_mem (List.mem_reverse.1 hd))
    simpa using hne

@[simp]
theorem get?_ofList (ds : List (String × α)) (name : String) :
    (ofList ds).get? name = ds.reverse.lookup name := by
  induction ds using List.reverseRecOn with
  | nil => rfl
  | append_singleton ds d ih =>
    rw [ofList_concat, List.reverse_append, List.reverse_singleton, List.singleton_append]
    change (put d.1 d.2 (ofList ds).entries).lookup name = ((d.1, d.2) :: ds.reverse).lookup name
    rw [lookup_put, lookup_cons_eq_ite, ← ih]
    rfl

@[simp]
theorem names_ofList (ds : List (String × α)) :
    (ofList ds).names = (ds.map Prod.fst).eraseDups := by
  induction ds using List.reverseRecOn with
  | nil => rfl
  | append_singleton ds d ih =>
    rw [ofList_concat, List.map_append, List.map_singleton, List.eraseDups_append]
    change (put d.1 d.2 (ofList ds).entries).map Prod.fst = _
    have hn : (ofList ds).entries.map Prod.fst = (ds.map Prod.fst).eraseDups := ih
    rw [map_fst_put, hn]
    by_cases h : d.1 ∈ ds.map Prod.fst
    · simp [List.mem_eraseDups, h, List.removeAll]
    · simp [List.mem_eraseDups, h, List.removeAll, List.eraseDups_cons]

theorem filterMap_lookup_names {es : List (String × α)} (h : (es.map Prod.fst).Nodup) :
    ((es.map Prod.fst).filterMap fun name => (es.lookup name).map (name, ·)) = es := by
  induction es with
  | nil => rfl
  | cons e rest ih =>
    obtain ⟨m, a⟩ := e
    obtain ⟨hm, hrest⟩ := List.nodup_cons.1 h
    have hskip : ∀ name ∈ rest.map Prod.fst,
        (((m, a) :: rest).lookup name).map (name, ·) = (rest.lookup name).map (name, ·) := by
      intro name hname
      have hne : name ≠ m := fun e => hm (e ▸ hname)
      rw [lookup_cons_eq_ite, if_neg hne]
    rw [List.map_cons, List.filterMap_cons, lookup_cons_eq_ite, if_pos rfl]
    change (m, a) :: _ = _
    rw [List.filterMap_congr hskip, ih hrest]

/-- The declared names in the order in which they first occur, each with its last declaration. -/
def lastDeclared (ds : List (String × α)) : List (String × α) :=
  (ds.map Prod.fst).eraseDups.filterMap fun name => (ds.reverse.lookup name).map (name, ·)

@[simp]
theorem entries_ofList (ds : List (String × α)) : (ofList ds).entries = lastDeclared ds := by
  have h := filterMap_lookup_names (ofList ds).distinct
  change ((ofList ds).names.filterMap fun name => ((ofList ds).get? name).map (name, ·)) = _ at h
  rw [names_ofList] at h
  simp only [get?_ofList] at h
  exact h.symm

@[simp]
theorem lastDeclared_map (f : α → β) (ds : List (String × α)) :
    lastDeclared (ds.map (Prod.map id f)) = (lastDeclared ds).map (Prod.map id f) := by
  rw [← entries_ofList, ← entries_ofList, entries_ofList_map]

theorem mem_lastDeclared (ds : List (String × α)) (name : String) (a : α) :
    (name, a) ∈ lastDeclared ds ↔ ds.reverse.lookup name = some a := by
  constructor
  · intro h
    obtain ⟨n, _, hn⟩ := List.mem_filterMap.1 h
    obtain ⟨b, hb, e⟩ := Option.map_eq_some_iff.1 hn
    cases e
    exact hb
  · intro h
    obtain ⟨before, after, e, _⟩ := List.lookup_eq_some_iff.1 h
    have hmem : (name, a) ∈ ds := List.mem_reverse.1 (by rw [e]; simp)
    refine List.mem_filterMap.2 ⟨name, List.mem_eraseDups.2 (List.mem_map_of_mem hmem), ?_⟩
    rw [h]
    rfl

theorem mem_of_mem_lastDeclared {ds : List (String × α)} {d : String × α}
    (h : d ∈ lastDeclared ds) : d ∈ ds := by
  obtain ⟨before, after, e, _⟩ := List.lookup_eq_some_iff.1 ((mem_lastDeclared ds d.1 d.2).1 h)
  exact List.mem_reverse.1 (by rw [e]; simp)

end Conform.Table
