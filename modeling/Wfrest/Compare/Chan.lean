import Mathlib.Algebra.Ring.Nat
import Wfrest.Lib.Fifo
import Wfrest.Lib.Parties
import Wfrest.Lib.Ring

/-!
# The task channels

A `task_chan_t` is an `SPSCQueue<void *>`: a ring of `cap_` slots with the atomic
positions `head_`, where the next item goes, and `tail_`, where the oldest item is.
`push` and `read_once` take several steps, each one load or store of a position or
one access to a slot, and steps of other calls may come between them. Where a call
stands and what its locals hold is a `Push` or a `ReadOnce`.

* `push` and `readOnce` do the next step of a call.
* `Fits` says what a call that stands somewhere may rely on, and `Sound` that all
  the calls on a channel may, with at most one writer and one reader in the part of
  the code that works on a position it has loaded.
* `Sound.push` and `Sound.readOnce` are the steps under this discipline: the items
  are those of a bounded first-in-first-out channel (`Sound.fifo_push`,
  `Sound.fifo_pop`).
-/

namespace Wfrest

variable {cap : Nat} {α : Type*}

/-- `cap_` of a queue that is constructed with `cap`. -/
def spscCap (cap : Nat) : Nat := max (cap + 1) 4

instance (cap : Nat) : NeZero (spscCap cap) where
  out := by unfold spscCap; omega

/-- `SPSCQueue<T>`. A slot that was never written holds no value. -/
structure SPSCQueue (cap : Nat) (α : Type*) where
  buf : Fin cap → Option α
  head : Fin cap
  tail : Fin cap

/-- Where a call of `push` stands. -/
inductive Push (cap : Nat) where
  /-- Before the load of `head_`. -/
  | loadHead
  /-- In the loop that waits for a free slot. -/
  | spin (head : Fin cap)
  /-- Before the slot is written. -/
  | construct (head : Fin cap)
  /-- Before the store to `head_`. -/
  | storeHead (head : Fin cap)
  | returned
  deriving DecidableEq

/-- Where a call of `read_once` stands. -/
inductive ReadOnce (cap : Nat) (α : Type*) where
  /-- Before `if (q_.front())`, which loads `tail_`. -/
  | front
  /-- Before the load of `head_` in this `front`. -/
  | frontHead (tail : Fin cap)
  /-- Before `*q_.front()`, which loads `tail_` again. -/
  | deref
  /-- Before the load of `head_` in this `front`. -/
  | derefHead (tail : Fin cap)
  /-- Before the slot is read. -/
  | copy (tail : Fin cap)
  /-- Before `pop`, which loads `tail_`. -/
  | pop (v : α)
  /-- Before the store to `tail_`. -/
  | storeTail (v : α) (tail : Fin cap)
  /-- `none` for `false`. -/
  | returned (r : Option α)
  deriving DecidableEq

namespace SPSCQueue

/-- The position after a position: `if (next == cap_) next = 0`. -/
def next (i : Fin cap) : Fin cap :=
  if h : i.val + 1 = cap then ⟨0, Nat.zero_lt_of_lt i.2⟩ else ⟨i.val + 1, by omega⟩

/-- A queue without items. -/
def empty [NeZero cap] : SPSCQueue cap α := ⟨fun _ => none, 0, 0⟩

/-- The next step of a call `push(x)`; `none` when it has returned. -/
def push (q : SPSCQueue cap α) (x : α) : Push cap → Option (SPSCQueue cap α × Push cap)
  | .loadHead => some (q, .spin q.head)
  | .spin head => some (q, if next head = q.tail then .spin head else .construct head)
  | .construct head =>
    some ({ q with buf := Function.update q.buf head (some x) }, .storeHead head)
  | .storeHead head => some ({ q with head := next head }, .returned)
  | .returned => none

/-- The next step of a call of `read_once`; `none` when it has returned, and when
the step is undefined: `front` is null, or the slot was never written. -/
def readOnce (q : SPSCQueue cap α) :
    ReadOnce cap α → Option (SPSCQueue cap α × ReadOnce cap α)
  | .front => some (q, .frontHead q.tail)
  | .frontHead tail => some (q, if q.head = tail then .returned none else .deref)
  | .deref => some (q, .derefHead q.tail)
  | .derefHead tail => if q.head = tail then none else some (q, .copy tail)
  | .copy tail => (q.buf tail).map fun v => (q, .pop v)
  | .pop v => some (q, .storeTail v q.tail)
  | .storeTail v tail => some ({ q with tail := next tail }, .returned (some v))
  | .returned _ => none

/-- The slots from `tail_` up to `head_`, the oldest item first. -/
def items (q : SPSCQueue cap α) : List (Option α) := walk next q.buf cap q.tail q.head

theorem next_injective : (next : Fin cap → Fin cap).Injective := by
  intro i j heq
  unfold next at heq
  split at heq <;> split at heq <;> (rw [Fin.mk.injEq] at heq; omega)

end SPSCQueue

open SPSCQueue

variable {q q' : SPSCQueue cap α} {x : α} {xs : List α} {c c' : Push cap} {r r' : ReadOnce cap α}

/-! ### What a call relies on -/

/-- The call works with the position that it has loaded from `head_`. -/
def Push.Active : Push cap → Prop
  | .spin _ | .construct _ | .storeHead _ => True
  | .loadHead | .returned => False

/-- The call works with the position from which it reads the item. -/
def ReadOnce.Active : ReadOnce cap α → Prop
  | .derefHead _ | .copy _ | .pop _ | .storeTail _ _ => True
  | .front | .frontHead _ | .deref | .returned _ => False

instance : DecidablePred (@Push.Active cap)
  | .spin _ | .construct _ | .storeHead _ => isTrue trivial
  | .loadHead | .returned => isFalse id

instance : DecidablePred (@ReadOnce.Active cap α)
  | .derefHead _ | .copy _ | .pop _ | .storeTail _ _ => isTrue trivial
  | .front | .frontHead _ | .deref | .returned _ => isFalse id

/-- What `push(x)` relies on: the position it loaded is still `head_`, a slot it
found free is free, and the item it wrote is there. -/
def Push.Fits (q : SPSCQueue cap α) (x : α) : Push cap → Prop
  | .loadHead | .returned => True
  | .spin head => head = q.head
  | .construct head => head = q.head ∧ next head ≠ q.tail
  | .storeHead head => head = q.head ∧ next head ≠ q.tail ∧ q.buf head = some x

/-- What `read_once` relies on: the position it loaded is still `tail_`, and the
item it read is still the oldest. -/
def ReadOnce.Fits (q : SPSCQueue cap α) : ReadOnce cap α → Prop
  | .front | .frontHead _ | .deref | .returned _ => True
  | .derefHead tail => tail = q.tail
  | .copy tail => tail = q.tail ∧ q.tail ≠ q.head
  | .pop v => q.tail ≠ q.head ∧ q.buf q.tail = some v
  | .storeTail v tail => tail = q.tail ∧ q.tail ≠ q.head ∧ q.buf q.tail = some v

/-- The item that a call of `read_once` returned. -/
def ReadOnce.taken : ReadOnce cap α → Option α
  | .returned r => r
  | _ => none

theorem Push.fits_of_not_active (h : ¬ c.Active) : c.Fits q x := by
  cases c with
  | loadHead | returned => trivial
  | spin | construct | storeHead => exact absurd trivial h

theorem ReadOnce.fits_of_not_active (h : ¬ r.Active) : r.Fits q := by
  cases r with
  | front | frontHead | deref | returned => trivial
  | derefHead | copy | pop | storeTail => exact absurd trivial h

namespace SPSCQueue

/-! ### One step of one call -/

/-- A step of `push` that fits: the item joins the others when the call returns. -/
theorem push_spec (hseg : Segment next q.buf q.tail xs q.head) (hfits : c.Fits q x)
    (hstep : q.push x c = some (q', c')) :
    ∃ xs', Segment next q'.buf q'.tail xs' q'.head ∧ c'.Fits q' x ∧
      ((c' = .returned ∧ xs' = xs ++ [x]) ∨ (c' ≠ .returned ∧ xs' = xs)) := by
  cases c with
  | loadHead =>
    cases hstep
    exact ⟨xs, hseg, rfl, .inr ⟨nofun, rfl⟩⟩
  | spin head =>
    cases hstep
    by_cases hfull : next head = q.tail
    · rw [if_pos hfull]
      exact ⟨xs, hseg, hfits, .inr ⟨nofun, rfl⟩⟩
    · rw [if_neg hfull]
      exact ⟨xs, hseg, ⟨hfits, hfull⟩, .inr ⟨nofun, rfl⟩⟩
  | construct head =>
    obtain ⟨rfl, hfree⟩ := hfits
    cases hstep
    -- the slot at `head_` is outside the segment, so writing it changes no item
    exact ⟨xs, hseg.update _, ⟨rfl, hfree, Function.update_self ..⟩, .inr ⟨nofun, rfl⟩⟩
  | storeHead head =>
    obtain ⟨rfl, hfree, hx⟩ := hfits
    cases hstep
    -- the store publishes the slot: the segment grows by the item written there
    exact ⟨xs ++ [x], hseg.snoc next_injective hx hfree, trivial, .inl ⟨rfl, rfl⟩⟩
  | returned => cases hstep

/-- A step of `read_once` that fits: the oldest item leaves when the call returns it. -/
theorem readOnce_spec (hseg : Segment next q.buf q.tail xs q.head) (hfits : r.Fits q)
    (hstep : q.readOnce r = some (q', r')) :
    ∃ xs', Segment next q'.buf q'.tail xs' q'.head ∧ r'.Fits q' ∧
      xs = r'.taken.toList ++ xs' := by
  cases r with
  | front =>
    cases hstep
    exact ⟨xs, hseg, trivial, rfl⟩
  | frontHead tail =>
    cases hstep
    by_cases hempty : q.head = tail
    · rw [if_pos hempty]
      exact ⟨xs, hseg, trivial, rfl⟩
    · rw [if_neg hempty]
      exact ⟨xs, hseg, trivial, rfl⟩
  | deref =>
    cases hstep
    exact ⟨xs, hseg, rfl, rfl⟩
  | derefHead tail =>
    -- the second `front()`: where it is null, the source dereferences null and the run ends
    simp only [readOnce] at hstep
    split at hstep
    · cases hstep
    next hne =>
      obtain rfl : tail = q.tail := hfits
      cases hstep
      exact ⟨xs, hseg, ⟨rfl, fun heq => hne heq.symm⟩, rfl⟩
  | copy tail =>
    obtain ⟨rfl, hne⟩ := hfits
    -- the item is copied but stays in the segment until `tail_` is stored
    obtain ⟨v, hv, heq⟩ := Option.map_eq_some_iff.mp hstep
    cases heq
    exact ⟨xs, hseg, ⟨hne, hv⟩, rfl⟩
  | pop v =>
    cases hstep
    exact ⟨xs, hseg, ⟨rfl, hfits⟩, rfl⟩
  | storeTail v tail =>
    obtain ⟨rfl, hne, hv⟩ := hfits
    obtain ⟨y, ys, rfl, hy, htail⟩ := hseg.uncons hne
    obtain rfl : v = y := Option.some.inj (hv.symm.trans hy)
    cases hstep
    exact ⟨ys, htail, trivial, rfl⟩
  | returned => cases hstep

/-- A call of `read_once` does not notice the step of a `push`. -/
theorem fits_of_push (hfits : c.Fits q x) (hstep : q.push x c = some (q', c'))
    (hr : r.Fits q) : r.Fits q' := by
  cases c with
  | loadHead | spin =>
    cases hstep
    exact hr
  | construct head =>
    obtain ⟨rfl, hfree⟩ := hfits
    cases hstep
    -- the slot that is written is not the one at `tail_`
    cases r with
    | front | frontHead | deref | returned => trivial
    | derefHead | copy => exact hr
    | pop v => exact ⟨hr.1, by rw [← hr.2]; exact Function.update_of_ne hr.1 ..⟩
    | storeTail v tail =>
      exact ⟨hr.1, hr.2.1, by rw [← hr.2.2]; exact Function.update_of_ne hr.2.1 ..⟩
  | storeHead head =>
    obtain ⟨rfl, hfree, -⟩ := hfits
    cases hstep
    -- `head_` does not run into `tail_`
    cases r with
    | front | frontHead | deref | returned => trivial
    | derefHead => exact hr
    | copy => exact ⟨hr.1, hfree.symm⟩
    | pop => exact ⟨hfree.symm, hr.2⟩
    | storeTail => exact ⟨hr.1, hfree.symm, hr.2.2⟩
  | returned => cases hstep

/-- A call of `push` does not notice the step of a `read_once`. -/
theorem fits_of_readOnce (hr : r.Fits q) (hstep : q.readOnce r = some (q', r'))
    (hc : c.Fits q x) : c.Fits q' x := by
  cases r with
  | front | frontHead | deref | pop =>
    cases hstep
    exact hc
  | derefHead tail =>
    simp only [readOnce] at hstep
    split at hstep
    · cases hstep
    · cases hstep
      exact hc
  | copy tail =>
    obtain ⟨v, -, heq⟩ := Option.map_eq_some_iff.mp hstep
    cases heq
    exact hc
  | storeTail v tail =>
    obtain ⟨rfl, hne, -⟩ := hr
    cases hstep
    -- a slot that was free is still free when `tail_` moves on
    have hfree : next q.head ≠ next q.tail := fun heq => hne (next_injective heq).symm
    cases c with
    | loadHead | returned => trivial
    | spin => exact hc
    | construct head =>
      obtain ⟨rfl, -⟩ := hc
      exact ⟨rfl, hfree⟩
    | storeHead head =>
      obtain ⟨rfl, -, hx⟩ := hc
      exact ⟨rfl, hfree, hx⟩
  | returned => cases hstep

/-- Before a call works with a position it changes nothing. -/
theorem push_eq_of_not_active (hc : ¬ c.Active) (hstep : q.push x c = some (q', c')) :
    c = .loadHead ∧ q' = q := by
  cases c with
  | loadHead =>
    cases hstep
    exact ⟨rfl, rfl⟩
  | returned => cases hstep
  | spin | construct | storeHead => exact absurd trivial hc

theorem readOnce_eq_of_not_active (hr : ¬ r.Active) (hstep : q.readOnce r = some (q', r')) :
    q' = q ∧ (r'.Active → r = .deref) := by
  cases r with
  | front =>
    cases hstep
    exact ⟨rfl, fun h => absurd h id⟩
  | deref =>
    cases hstep
    exact ⟨rfl, fun _ => rfl⟩
  | frontHead tail =>
    cases hstep
    refine ⟨rfl, fun h => ?_⟩
    split at h <;> exact absurd h id
  | returned => cases hstep
  | derefHead | copy | pop | storeTail => exact absurd trivial hr

/-! ### All calls on a queue -/

variable {pushes : List (α × Push cap)} {reads : List (ReadOnce cap α)} {i : Nat}

/-- The queue holds `xs` and the calls on it fit, at most one `push` and at most one
`read_once` of them working with a position. -/
structure Sound (q : SPSCQueue cap α) (xs : List α) (pushes : List (α × Push cap))
    (reads : List (ReadOnce cap α)) : Prop where
  segment : Segment next q.buf q.tail xs q.head
  push_fits : ∀ p ∈ pushes, p.2.Fits q p.1
  push_alone : AtMostOne (fun p => p.2.Active) pushes
  read_fits : ∀ r ∈ reads, r.Fits q
  read_alone : AtMostOne ReadOnce.Active reads

/-- A new queue is sound for any calls that have not begun to work on it. -/
theorem sound_empty [NeZero cap] : (empty : SPSCQueue cap α).Sound [] [] [] where
  segment := .refl ..
  push_fits := nofun
  push_alone := atMostOne_of_forall_not nofun
  read_fits := nofun
  read_alone := atMostOne_of_forall_not nofun

namespace Sound

theorem length_lt (h : q.Sound xs pushes reads) : xs.length < cap := by
  simpa using h.segment.length_lt

/-- The slots between the positions hold the items. -/
theorem items_eq (h : q.Sound xs pushes reads) : q.items = xs.map some :=
  h.segment.walk_eq h.length_lt.le

/-- **A step of a `push`.** The load of `head_` has to find no other `push` at work. -/
theorem push (h : q.Sound xs pushes reads) (hi : pushes[i]? = some (x, c))
    (hstart : c = .loadHead → ∀ p ∈ pushes, ¬ p.2.Active)
    (hstep : q.push x c = some (q', c')) :
    ∃ xs', q'.Sound xs' (pushes.set i (x, c')) reads ∧
      ((c' = .returned ∧ xs' = xs ++ [x]) ∨ (c' ≠ .returned ∧ xs' = xs)) := by
  have hfits := h.push_fits _ (List.mem_of_getElem? hi)
  obtain ⟨xs', hseg, hfits', hxs⟩ := push_spec h.segment hfits hstep
  have hothers : ∀ (j : Nat) p, j ≠ i → pushes[j]? = some p → ¬ p.2.Active := by
    intro j p hne hj
    by_cases hc : c.Active
    · exact h.push_alone.not_of_ne hi hc hne hj
    · exact hstart (push_eq_of_not_active hc hstep).1 p (List.mem_of_getElem? hj)
  refine ⟨xs', ⟨hseg, fun p hp => ?_, h.push_alone.set fun _ => hothers, fun r hr => ?_,
    h.read_alone⟩, hxs⟩
  · rcases mem_set_cases hp with rfl | ⟨j, hne, hj⟩
    · exact hfits'
    · exact Push.fits_of_not_active (hothers j p hne hj)
  · exact fits_of_push hfits hstep (h.read_fits r hr)

/-- **A step of a `read_once`.** The load of `tail_` for the item has to find no
other `read_once` at work. -/
theorem readOnce (h : q.Sound xs pushes reads) (hi : reads[i]? = some r)
    (hstart : r = .deref → ∀ s ∈ reads, ¬ s.Active)
    (hstep : q.readOnce r = some (q', r')) :
    ∃ xs', q'.Sound xs' pushes (reads.set i r') ∧ xs = r'.taken.toList ++ xs' := by
  have hfits := h.read_fits _ (List.mem_of_getElem? hi)
  obtain ⟨xs', hseg, hfits', hxs⟩ := readOnce_spec h.segment hfits hstep
  refine ⟨xs', ⟨hseg, fun p hp => ?_, h.push_alone, fun s hs => ?_,
    h.read_alone.set fun hr' j s hne hj => ?_⟩, hxs⟩
  · exact fits_of_readOnce hfits hstep (h.push_fits p hp)
  · rcases mem_set_cases hs with rfl | ⟨j, hne, hj⟩
    · exact hfits'
    by_cases hr : r.Active
    · exact ReadOnce.fits_of_not_active (h.read_alone.not_of_ne hi hr hne hj)
    · obtain ⟨rfl, -⟩ := readOnce_eq_of_not_active hr hstep
      exact h.read_fits s (List.mem_of_getElem? hj)
  · by_cases hr : r.Active
    · exact h.read_alone.not_of_ne hi hr hne hj
    · exact hstart ((readOnce_eq_of_not_active hr hstep).2 hr') s (List.mem_of_getElem? hj)

/-! With one call on its side there is no other at work. -/

theorem push_single (h : q.Sound xs [(x, c)] reads) (hstep : q.push x c = some (q', c')) :
    ∃ xs', q'.Sound xs' [(x, c')] reads ∧
      ((c' = .returned ∧ xs' = xs ++ [x]) ∨ (c' ≠ .returned ∧ xs' = xs)) := by
  refine h.push (i := 0) rfl (fun hload => List.forall_mem_singleton.mpr ?_) hstep
  rw [hload]
  exact id

theorem readOnce_single (h : q.Sound xs pushes [r]) (hstep : q.readOnce r = some (q', r')) :
    ∃ xs', q'.Sound xs' pushes [r'] ∧ xs = r'.taken.toList ++ xs' := by
  refine h.readOnce (i := 0) rfl (fun hderef => List.forall_mem_singleton.mpr ?_) hstep
  rw [hderef]
  exact id

/-! Calls that do not work with a position come and go. -/

theorem pushes_of_not_active (h : q.Sound xs pushes reads) {pushes' : List (α × Push cap)}
    (hidle : ∀ p ∈ pushes', ¬ p.2.Active) : q.Sound xs pushes' reads :=
  { h with
    push_fits := fun p hp => Push.fits_of_not_active (hidle p hp)
    push_alone := atMostOne_of_forall_not hidle }

theorem reads_of_not_active (h : q.Sound xs pushes reads) {reads' : List (ReadOnce cap α)}
    (hidle : ∀ r ∈ reads', ¬ r.Active) : q.Sound xs pushes reads' :=
  { h with
    read_fits := fun r hr => ReadOnce.fits_of_not_active (hidle r hr)
    read_alone := atMostOne_of_forall_not hidle }

theorem no_pushes (h : q.Sound xs pushes reads) : q.Sound xs [] reads :=
  h.pushes_of_not_active (List.forall_mem_nil _)

theorem no_reads (h : q.Sound xs pushes reads) : q.Sound xs pushes [] :=
  h.reads_of_not_active (List.forall_mem_nil _)

theorem call_push (h : q.Sound xs pushes reads) (x : α) :
    q.Sound xs (pushes ++ [(x, .loadHead)]) reads :=
  { h with
    push_fits := fun p hp => by
      rcases List.mem_append.mp hp with hp | hp
      · exact h.push_fits p hp
      · obtain rfl := List.mem_singleton.mp hp
        trivial
    push_alone := h.push_alone.concat id }

theorem call_readOnce (h : q.Sound xs pushes reads) : q.Sound xs pushes (reads ++ [.front]) :=
  { h with
    read_fits := fun r hr => by
      rcases List.mem_append.mp hr with hr | hr
      · exact h.read_fits r hr
      · obtain rfl := List.mem_singleton.mp hr
        trivial
    read_alone := h.read_alone.concat id }

/-! ### The channel as a bounded queue -/

/-- The items as a channel of the capacity that the constructor was given. -/
def fifo {n : Nat} {q : SPSCQueue (n + 1) α} {pushes : List (α × Push (n + 1))}
    {reads : List (ReadOnce (n + 1) α)} (h : q.Sound xs pushes reads) : Fifo n α :=
  ⟨xs, Nat.le_of_lt_succ h.length_lt⟩

/-- The returning step of a `push` is the `push?` of the channel: there was room. -/
theorem fifo_push {n : Nat} {q q' : SPSCQueue (n + 1) α}
    {pushes pushes' : List (α × Push (n + 1))} {reads reads' : List (ReadOnce (n + 1) α)}
    (h : q.Sound xs pushes reads) (h' : q'.Sound (xs ++ [x]) pushes' reads') :
    h.fifo.push? x = some h'.fifo := by
  have hroom : xs.length < n := by simpa using h'.length_lt
  exact dif_pos hroom

/-- The returning step of a `read_once` is the `pop?` of the channel. -/
theorem fifo_pop {n : Nat} {q q' : SPSCQueue (n + 1) α}
    {pushes pushes' : List (α × Push (n + 1))} {reads reads' : List (ReadOnce (n + 1) α)}
    (h : q.Sound (x :: xs) pushes reads) (h' : q'.Sound xs pushes' reads') :
    h.fifo.pop? = some (x, h'.fifo) := rfl

end Sound

end SPSCQueue

end Wfrest
