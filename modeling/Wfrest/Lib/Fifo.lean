import Mathlib.Data.List.Basic
import Mathlib.Tactic.Common

/-!
# Bounded first-in-first-out channels

A channel of capacity `cap` holds at most `cap` items, the oldest first. The
bound is a field, so a channel with too many items cannot be built.
-/

namespace Wfrest

/-- A channel of capacity `cap`. -/
structure Fifo (cap : Nat) (α : Type*) where
  /-- The items, the oldest first. -/
  items : List α
  length_le : items.length ≤ cap

namespace Fifo

variable {cap : Nat} {α : Type*}

/-- The empty channel. -/
def empty : Fifo cap α := ⟨[], Nat.zero_le cap⟩

/-- Append an item; `none` when the channel is full. -/
def push? (q : Fifo cap α) (x : α) : Option (Fifo cap α) :=
  if h : q.items.length < cap then
    some ⟨q.items ++ [x], by rw [List.length_append]; exact h⟩
  else none

/-- Take the oldest item; `none` when the channel is empty. -/
def pop? (q : Fifo cap α) : Option (α × Fifo cap α) :=
  match q with
  | ⟨[], _⟩ => none
  | ⟨x :: xs, h⟩ => some (x, ⟨xs, Nat.le_of_succ_le h⟩)

@[simp] theorem items_empty : (empty : Fifo cap α).items = [] := rfl

theorem push?_eq_some {q q' : Fifo cap α} {x : α} (h : q.push? x = some q') :
    q'.items = q.items ++ [x] := by
  unfold push? at h
  split at h
  · exact congrArg items (Option.some.inj h).symm
  · cases h

theorem pop?_eq_some {q q' : Fifo cap α} {x : α} (h : q.pop? = some (x, q')) :
    q.items = x :: q'.items := by
  obtain ⟨items, hle⟩ := q
  cases items with
  | nil => cases h
  | cons y ys =>
    obtain ⟨rfl, rfl⟩ : y = x ∧ _ = q' := by simpa [pop?] using h
    rfl

/-- A channel that is not full takes an item. -/
theorem exists_push? (q : Fifo cap α) (x : α) (h : q.items.length < cap) :
    ∃ q', q.push? x = some q' ∧ q'.items = q.items ++ [x] :=
  ⟨_, dif_pos h, rfl⟩

/-- A channel with items gives the oldest one. -/
theorem exists_pop? (q : Fifo cap α) {x : α} {xs : List α} (h : q.items = x :: xs) :
    ∃ q', q.pop? = some (x, q') ∧ q'.items = xs := by
  obtain ⟨items, hle⟩ := q
  obtain rfl : items = x :: xs := h
  exact ⟨_, rfl, rfl⟩

theorem pop?_eq_none_iff {q : Fifo cap α} : q.pop? = none ↔ q.items = [] := by
  obtain ⟨items, hle⟩ := q
  cases items <;> simp [pop?]

end Fifo

end Wfrest
