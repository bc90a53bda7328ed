import Wfrest.Compare.BoundedQueue

/-!
# The size of a queue

`SPSCQueue::size` takes the difference of the positions and adds `cap_` if it is negative.
The difference is stored in a `size_t`, so it never is, and what `head_` has wrapped around
more often than `tail_` is missing: the size is right exactly while both have wrapped around
equally often (`countsItems_iff`). The channels turn the `size_t` into an `int`, which is
negative then.
-/

namespace Wfrest

open SPSCQueue

variable {n : Nat} {α : Type*}

namespace SPSCQueue

/-- `SPSCQueue::size` -/
def size (q : SPSCQueue n α) : Nat :=
  let diff := toSize ((q.head.val : Int) - q.tail.val)
  if diff < 0 then (diff + n) % 2 ^ 64 else diff

/-- `msg_chan_t::size` and `task_chan_t::size` -/
def chanSize (q : SPSCQueue n α) : Int := toInt q.size

/-- The branch that is to correct the difference is never taken. -/
theorem size_eq (q : SPSCQueue n α) : q.size = toSize ((q.head.val : Int) - q.tail.val) := by
  rw [size]
  exact if_neg (Nat.not_lt_zero _)

/-- The number of slots from the tail up to the head, if they do not go around. -/
theorem size_of_le {q : SPSCQueue n α} (hn : n < 2 ^ 31) (h : q.tail ≤ q.head) :
    q.size = q.head.val - q.tail.val := by
  have hle : q.tail.val ≤ q.head.val := h
  have hlt := q.head.2
  have hdiff := toSize_of_nonneg (n := (q.head.val : Int) - q.tail.val) (by omega) (by omega)
  rw [size_eq]
  omega

/-- A negative difference, modulo `2 ^ 64`. -/
theorem size_of_lt {q : SPSCQueue n α} (hn : n < 2 ^ 31) (h : q.head < q.tail) :
    q.size = 2 ^ 64 - (q.tail.val - q.head.val) := by
  have hlt : q.head.val < q.tail.val := h
  have htail := q.tail.2
  have hdiff := toSize_of_neg (n := (q.head.val : Int) - q.tail.val) (by omega) (by omega)
  rw [size_eq]
  omega

/-- The channels give the difference. -/
theorem chanSize_eq {q : SPSCQueue n α} (hn : n < 2 ^ 31) :
    q.chanSize = (q.head.val : Int) - q.tail.val := by
  have hhead := q.head.2
  have htail := q.tail.2
  rcases lt_or_ge q.head q.tail with hlt | hle
  · have hlt' : q.head.val < q.tail.val := hlt
    rw [chanSize, size_of_lt hn hlt]
    exact toInt_eq_of (q := 2 ^ 32) (by omega) (by omega) (by omega)
  · have hle' : q.tail.val ≤ q.head.val := hle
    rw [chanSize, size_of_le hn hle]
    exact toInt_eq_of (q := 0) (by omega) (by omega) (by omega)

end SPSCQueue

namespace Spsc

/-- What the sizes are for: the number of the values that are pushed and not yet popped. -/
structure CountsItems (cap : Int) (os : List (Note α)) (s : Spsc (slots cap) α) : Prop where
  spsc : s.q.size = (unpopped os).length
  chan : s.q.chanSize = (unpopped os).length
  range : ((unpopped os).length : Int) ≤ capField cap - 1

/-- Whatever the constructor gets, `cap_` is an `int` and at least 4. -/
theorem slots_bounds (cap : Int) :
    4 ≤ slots cap ∧ slots cap < 2 ^ 31 ∧ (slots cap : Int) = capField cap := by
  obtain ⟨q, -, hlow, hhigh⟩ := toInt_spec (cap + 1)
  unfold slots capField
  omega

variable {cap : Int} {values : List α} {h : List (SpscEvent × Note α)} {s : Spsc (slots cap) α}

/-- The positions of a run are its numbers of pushes and pops, modulo `cap_`. -/
theorem positions_of_reach (hr : (machine cap values).Reach h s) :
    (popped (h.map Prod.snd)).length ≤ (published (h.map Prod.snd)).length ∧
      (unpopped (h.map Prod.snd)).length < slots cap ∧
      s.q.head.val = (published (h.map Prod.snd)).length % slots cap ∧
      s.q.tail.val = (popped (h.map Prod.snd)).length % slots cap := by
  obtain ⟨hfour, -, -⟩ := slots_bounds cap
  obtain ⟨k, hk⟩ : ∃ k, slots cap = k + 1 := ⟨slots cap - 1, by omega⟩
  obtain ⟨f, hinv, hrun, htrail⟩ := fifoRun_of_reach hk hr
  have hitems : f.items = unpopped (h.map Prod.snd) := by
    rw [unpopped, hrun.published_eq, List.drop_left]
  refine ⟨?_, ?_, ?_, ?_⟩
  · rw [hrun.published_eq, List.length_append]
    exact Nat.le_add_right _ _
  · rw [← hitems]
    simpa using hinv.segment.length_lt
  · rw [htrail.head_eq, val_iterate_next]
    simp
  · rw [htrail.tail_eq, val_iterate_next]
    simp

/-- The head is not behind the tail exactly if both have gone around equally often. -/
theorem tail_le_head_iff (hr : (machine cap values).Reach h s) :
    s.q.tail ≤ s.q.head ↔
      (published (h.map Prod.snd)).length / slots cap =
        (popped (h.map Prod.snd)).length / slots cap := by
  obtain ⟨hle, hlt, hhead, htail⟩ := positions_of_reach hr
  rw [unpopped, List.length_drop] at hlt
  rw [Fin.le_def, hhead, htail]
  exact mod_le_mod_iff hle hlt

theorem countsItems_iff_tail_le_head (hr : (machine cap values).Reach h s) :
    CountsItems cap (h.map Prod.snd) s ↔ s.q.tail ≤ s.q.head := by
  obtain ⟨-, hsmall, hfield⟩ := slots_bounds cap
  obtain ⟨hle, hlt, hhead, htail⟩ := positions_of_reach hr
  constructor
  · intro hcounts
    have hchan := hcounts.chan
    rw [chanSize_eq hsmall] at hchan
    rw [Fin.le_def]
    omega
  · intro hord
    have hsize : s.q.head.val - s.q.tail.val = (unpopped (h.map Prod.snd)).length := by
      rw [hhead, htail, unpopped, List.length_drop]
      exact mod_sub_mod hle ((tail_le_head_iff hr).mp hord)
    have hord' : s.q.tail.val ≤ s.q.head.val := hord
    refine ⟨(size_of_le hsmall hord).trans hsize, ?_, by omega⟩
    rw [chanSize_eq hsmall]
    omega

/-- **The size is the number of items** exactly while the positions have gone around equally
often, in a state and in all states of a run. -/
theorem countsItems_iff (hr : (machine cap values).Reach h s) :
    (CountsItems cap (h.map Prod.snd) s ↔ s.q.tail ≤ s.q.head) ∧
      (s.q.tail ≤ s.q.head ↔
        (published (h.map Prod.snd)).length / slots cap =
          (popped (h.map Prod.snd)).length / slots cap) ∧
      ((machine cap values).Always
          (fun h _ e o s' => CountsItems cap ((h ++ [(e, o)]).map Prod.snd) s') h ↔
        (machine cap values).Always (fun _ _ _ _ s' => s'.q.tail ≤ s'.q.head) h) := by
  refine ⟨countsItems_iff_tail_le_head hr, tail_le_head_iff hr, ?_⟩
  exact Machine.always_congr
    (fun _ _ _ _ _ hr hstep => countsItems_iff_tail_le_head (hr.snoc hstep)) h

/-- Three values are pushed and the first one of them is popped. -/
theorem countsItems_two : ∃ (h : List (SpscEvent × Note Nat)) (s : Spsc (slots 0) Nat),
    (machine 0 [5, 6, 7, 8]).Reach h s ∧ published (h.map Prod.snd) = [5, 6, 7] ∧
      popped (h.map Prod.snd) = [5] ∧ CountsItems 0 (h.map Prod.snd) s := by
  have hrun : ((machine 0 [5, 6, 7, 8]).run? (List.replicate 12 SpscEvent.produce ++
      SpscEvent.front :: List.replicate 5 .consume)).any (fun r => decide
        (published (r.1.map Prod.snd) = [5, 6, 7] ∧ popped (r.1.map Prod.snd) = [5] ∧
          r.2.q.tail ≤ r.2.q.head)) = true := by
    decide +kernel
  obtain ⟨h, s, hr, hcheck⟩ := Machine.exists_reach_of_run? hrun
  obtain ⟨hpublished, hpopped, hord⟩ := of_decide_eq_true hcheck
  exact ⟨h, s, hr, hpublished, hpopped, (countsItems_iff hr).1.mpr hord⟩

/-- Three pushes, three pops, and a fourth push, with which `head_` goes around. -/
def aroundOnce : List SpscEvent :=
  List.replicate 12 .produce ++
    (List.replicate 3 (SpscEvent.front :: List.replicate 5 .consume)).flatten ++
    List.replicate 4 .produce

/-- The size of one value is `2 ^ 64 - 3`. -/
theorem not_countsItems_aroundOnce :
    ¬ ∀ (cap : Int) (values : List Nat) (h : List (SpscEvent × Note Nat))
      (s : Spsc (slots cap) Nat), (machine cap values).Reach h s →
        CountsItems cap (h.map Prod.snd) s := by
  intro hall
  have hrun : ((machine 0 [5, 6, 7, 8]).run? aroundOnce).any (fun r => decide
      ((unpopped (r.1.map Prod.snd)).length = 1 ∧ r.2.q.size = 2 ^ 64 - 3)) = true := by
    decide +kernel
  obtain ⟨h, s, hr, hcheck⟩ := Machine.exists_reach_of_run? hrun
  obtain ⟨hlen, hsize⟩ := of_decide_eq_true hcheck
  have hcounts := (hall 0 _ h s hr).spsc
  rw [hlen, hsize] at hcounts
  exact absurd hcounts (by decide)

end Spsc

end Wfrest
