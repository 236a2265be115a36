set_option autoImplicit false

namespace Conform

structure Table (α : Type) where
  entries : List (String × α)
  distinct : (entries.map Prod.fst).Nodup

namespace Table

variable {α : Type}

def empty : Table α := ⟨[], List.nodup_nil⟩

def names (t : Table α) : List String := t.entries.map Prod.fst

def get? (t : Table α) (name : String) : Option α := t.entries.lookup name

/-- Replaces the entry of `name`, or appends one. -/
def put (name : String) (a : α) : List (String × α) → List (String × α)
  | [] => [(name, a)]
  | (n, b) :: rest => if n = name then (n, a) :: rest else (n, b) :: put name a rest

theorem map_fst_put (name : String) (a : α) (es : List (String × α)) :
    (put name a es).map Prod.fst =
      if name ∈ es.map Prod.fst then es.map Prod.fst else es.map Prod.fst ++ [name] := by
  induction es with
  | nil => rfl
  | cons e rest ih =>
    obtain ⟨n, b⟩ := e
    by_cases h : n = name
    · simp [put, h]
    · simp only [put, h, if_false, List.map_cons, ih, List.mem_cons, Ne.symm h, false_or]
      split <;> rfl

theorem nodup_put {name : String} {a : α} {es : List (String × α)}
    (h : (es.map Prod.fst).Nodup) : ((put name a es).map Prod.fst).Nodup := by
  rw [map_fst_put]
  split
  · exact h
  · next hn =>
    refine List.nodup_append.2 ⟨h, by simp, fun a ha b hb e => hn ?_⟩
    rw [← List.mem_singleton.1 hb, ← e]
    exact ha

def insert (t : Table α) (name : String) (a : α) : Table α :=
  ⟨put name a t.entries, nodup_put t.distinct⟩

def ofList (declarations : List (String × α)) : Table α :=
  declarations.foldl (fun t d => t.insert d.1 d.2) empty

end Table
end Conform
