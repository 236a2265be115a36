import Conform.Sequence.Delivery

set_option autoImplicit false

namespace Conform

structure Source (α : Type) where
  get? : Nat → Option α
  closed : ∀ n, get? n = none → get? (n + 1) = none

namespace Source

variable {α : Type}

def ofList (items : List α) : Source α where
  get? n := items[n]?
  closed n h := by simp only [List.getElem?_eq_none_iff] at h ⊢; omega

/-- First the items, then the loop over and over; an empty loop ends the source. -/
def cycle (items loop : List α) : Source α where
  get? n := if n < items.length then items[n]? else loop[(n - items.length) % loop.length]?
  closed n h := by
    by_cases hn : n < items.length
    · simp [hn] at h
    · simp only [hn, if_false, List.getElem?_eq_none_iff] at h
      have hl : loop = [] := by
        cases loop with
        | nil => rfl
        | cons x xs => exact absurd h (Nat.not_le.2 (Nat.mod_lt _ (by simp)))
      simp [hl, show ¬ n + 1 < items.length by omega]

/-- What the first `n` draws yield. The source has ended if one of them yields nothing. -/
def draw (s : Source α) (n : Nat) : Delivery α where
  items := (List.range n).filterMap s.get?
  ended := (List.range n).any fun i => (s.get? i).isNone

end Source
end Conform
