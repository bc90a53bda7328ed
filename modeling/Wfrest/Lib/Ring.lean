import Mathlib.Data.Fintype.Card
import Mathlib.Data.List.Basic
import Mathlib.Logic.Function.Iterate
import Mathlib.Tactic.Common

/-!
# Cells in a ring

The cells of a bounded buffer stand in a ring: `next` leads from a position to
the position after it. `Segment next buf i xs j` says that the cells from `i` up
to `j`, the cell at `j` not among them, hold the items `xs`. A reader works at
the front of a segment and a writer behind its end, and neither disturbs the
items between them.

* `Segment.snoc`, `Segment.uncons` and `Segment.update` are the rules of a writer
  that moves `j`, of a reader that moves `i` and of a write to the free cell `j`.
* `Segment.length_lt` bounds a segment by the number of positions: one cell is
  always free.
* `walk` reads the cells of a segment back.
* `mod_le_mod_iff` and `mod_sub_mod` compare positions that are counters modulo the number
  of cells.

Of a segment nothing but injectivity of `next` is used, so its positions may be any type.
-/

namespace Wfrest

variable {ι α : Type*} {next : ι → ι} {buf : ι → Option α} {i j : ι} {x : α} {xs : List α}

/-- The cells of `buf` from `i` up to `j` hold the items `xs`. -/
def Segment (next : ι → ι) (buf : ι → Option α) : ι → List α → ι → Prop
  | i, [], j => i = j
  | i, x :: xs, j => i ≠ j ∧ buf i = some x ∧ Segment next buf (next i) xs j

namespace Segment

theorem refl (next : ι → ι) (buf : ι → Option α) (i : ι) : Segment next buf i [] i := rfl

/-- A segment between different positions has a first item. -/
theorem uncons (h : Segment next buf i xs j) (hne : i ≠ j) :
    ∃ x xs', xs = x :: xs' ∧ buf i = some x ∧ Segment next buf (next i) xs' j := by
  cases xs with
  | nil => exact absurd h hne
  | cons x xs => exact ⟨x, xs, rfl, h.2⟩

/-- The item in the cell at `j` joins the segment when `j` moves on, unless `j`
would run into the front. -/
theorem snoc (hnext : next.Injective) (h : Segment next buf i xs j)
    (hx : buf j = some x) (hfree : next j ≠ i) :
    Segment next buf i (xs ++ [x]) (next j) := by
  induction xs generalizing i with
  | nil =>
    obtain rfl : i = j := h
    exact ⟨hfree.symm, hx, rfl⟩
  | cons y ys ih =>
    obtain ⟨hne, hy, htail⟩ := h
    exact ⟨hfree.symm, hy, ih htail fun heq => hne (hnext heq).symm⟩

/-- The cell at `j` is free. -/
theorem update [DecidableEq ι] (h : Segment next buf i xs j) (v : Option α) :
    Segment next (Function.update buf j v) i xs j := by
  induction xs generalizing i with
  | nil => exact h
  | cons y ys ih =>
    obtain ⟨hne, hy, htail⟩ := h
    exact ⟨hne, by rw [Function.update_of_ne hne]; exact hy, ih htail⟩

/-! ### Length -/

/-- Walking on from `i`, the position `j` is met after the last item and not before. -/
theorem iterate (h : Segment next buf i xs j) :
    next^[xs.length] i = j ∧ ∀ m < xs.length, next^[m] i ≠ j := by
  induction xs generalizing i with
  | nil => exact ⟨h, fun m hm => absurd hm (Nat.not_lt_zero m)⟩
  | cons y ys ih =>
    obtain ⟨hend, hbefore⟩ := ih h.2.2
    refine ⟨by rw [List.length_cons, Function.iterate_succ_apply]; exact hend, fun m hm => ?_⟩
    cases m with
    | zero => exact h.1
    | succ m =>
      rw [Function.iterate_succ_apply]
      exact hbefore m (Nat.lt_of_succ_lt_succ hm)

/-- The cells hold the items in order. -/
theorem cell (h : Segment next buf i xs j) {m : Nat} (hm : m < xs.length) :
    buf (next^[m] i) = some (xs.get ⟨m, hm⟩) := by
  induction xs generalizing i m with
  | nil => exact absurd hm (Nat.not_lt_zero m)
  | cons y ys ih =>
    cases m with
    | zero => exact h.2.1
    | succ m =>
      rw [Function.iterate_succ_apply]
      exact ih h.2.2 (Nat.lt_of_succ_lt_succ hm)

/-- One position is always free. -/
theorem length_lt [Fintype ι] (h : Segment next buf i xs j) :
    xs.length < Fintype.card ι := by
  obtain ⟨hend, hbefore⟩ := h.iterate
  -- meeting a position twice before `j` would mean meeting `j` too early
  have hdistinct : ∀ a b, a < b → b ≤ xs.length → next^[a] i ≠ next^[b] i := by
    intro a b hab hb heq
    have hmeet : next^[xs.length - b + a] i = j := by
      calc next^[xs.length - b + a] i = next^[xs.length - b] (next^[b] i) := by
            rw [Function.iterate_add_apply, heq]
        _ = next^[xs.length] i := by
            rw [← Function.iterate_add_apply, Nat.sub_add_cancel hb]
        _ = j := hend
    exact hbefore _ (by omega) hmeet
  have hinj : Function.Injective fun m : Fin (xs.length + 1) => next^[m] i := by
    intro a b heq
    rcases Nat.lt_trichotomy a b with hab | hab | hab
    · exact absurd heq (hdistinct a b hab (Nat.le_of_lt_succ b.2))
    · exact Fin.ext hab
    · exact absurd heq.symm (hdistinct b a hab (Nat.le_of_lt_succ a.2))
  have := Fintype.card_le_of_injective _ hinj
  rwa [Fintype.card_fin] at this

end Segment

/-! ### Reading the cells back -/

/-- The cells from `i` up to `j`, at most `n` of them. -/
def walk [DecidableEq ι] (next : ι → ι) (buf : ι → Option α) : Nat → ι → ι → List (Option α)
  | 0, _, _ => []
  | n + 1, i, j => if i = j then [] else buf i :: walk next buf n (next i) j

theorem Segment.walk_eq [DecidableEq ι] (h : Segment next buf i xs j) {n : Nat}
    (hn : xs.length ≤ n) : walk next buf n i j = xs.map some := by
  induction xs generalizing i n with
  | nil =>
    obtain rfl : i = j := h
    cases n with
    | zero => rfl
    | succ n => exact if_pos rfl
  | cons y ys ih =>
    obtain ⟨hne, hy, htail⟩ := h
    cases n with
    | zero => exact absurd hn (Nat.not_succ_le_zero _)
    | succ n =>
      rw [walk, if_neg hne, hy, ih htail (Nat.le_of_succ_le_succ hn), List.map_cons]

/-! ### Positions that count modulo the number of cells -/

/-- Two numbers less than `n` apart have the order of their remainders exactly if they have
the same quotient. -/
theorem mod_le_mod_iff {n a b : Nat} (hab : a ≤ b) (hlt : b - a < n) :
    a % n ≤ b % n ↔ b / n = a / n := by
  have ha := Nat.div_add_mod a n
  have hb := Nat.div_add_mod b n
  constructor
  · intro hle
    refine le_antisymm (le_of_not_gt fun hquot => ?_) (Nat.div_le_div_right hab)
    -- the quotients differ by one at least, and so the numbers by `n`
    have hround : n * (a / n) + n ≤ n * (b / n) := Nat.mul_le_mul_left n hquot
    omega
  · intro hquot
    rw [hquot] at hb
    omega

theorem mod_sub_mod {n a b : Nat} (hab : a ≤ b) (hquot : b / n = a / n) :
    b % n - a % n = b - a := by
  have ha := Nat.div_add_mod a n
  have hb := Nat.div_add_mod b n
  rw [hquot] at hb
  omega

end Wfrest
