set_option autoImplicit false

namespace Conform

/-- What a stream has handed over so far. If it has not ended, more may come. -/
structure Delivery (α : Type) where
  items : List α
  ended : Bool

namespace Delivery

variable {α β : Type}

def complete (items : List α) : Delivery α := ⟨items, true⟩

def pending (items : List α) : Delivery α := ⟨items, false⟩

def map (f : α → β) (d : Delivery α) : Delivery β := ⟨d.items.map f, d.ended⟩

@[simp]
theorem items_map (f : α → β) (d : Delivery α) : (d.map f).items = d.items.map f := rfl

@[simp]
theorem ended_map (f : α → β) (d : Delivery α) : (d.map f).ended = d.ended := rfl

def append (d e : Delivery α) : Delivery α :=
  if d.ended then ⟨d.items ++ e.items, e.ended⟩ else d

@[simp]
theorem append_of_ended {d : Delivery α} (h : d.ended = true) (e : Delivery α) :
    d.append e = ⟨d.items ++ e.items, e.ended⟩ := if_pos h

@[simp]
theorem append_of_not_ended {d : Delivery α} (h : d.ended = false) (e : Delivery α) :
    d.append e = d := if_neg (by simp [h])

@[simp]
theorem ended_append (d e : Delivery α) : (d.append e).ended = (d.ended && e.ended) := by
  cases h : d.ended <;> simp [h]

@[simp]
theorem map_append (f : α → β) (d e : Delivery α) :
    (d.append e).map f = (d.map f).append (e.map f) := by
  obtain ⟨items, ended⟩ := d
  cases ended <;> simp [map]

theorem mem_items_of_mem_append {d e : Delivery α} {a : α} (h : a ∈ (d.append e).items) :
    a ∈ d.items ∨ a ∈ e.items := by
  cases hd : d.ended with
  | true => simpa [hd] using h
  | false => exact .inl (by simpa [hd] using h)

/-- Streams one after the other. One that is not there yet holds up those behind it. -/
def concat : List (Option (Delivery α)) → Delivery α
  | [] => complete []
  | none :: _ => pending []
  | some d :: ds => d.append (concat ds)

def isEmpty? (d : Delivery α) : Option Bool :=
  if !d.items.isEmpty then some false else if d.ended then some true else none

end Delivery
end Conform
