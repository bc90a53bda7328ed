import Wfrest.Base.Bytes
import Wfrest.Compare.Chan
import Wfrest.Lib.Run

/-!
# A queue with one producer and one consumer

`SPSCQueue` is used by one thread that calls `push` and one that calls `front` and `pop`.
Each load or store of a position and each access to a slot is a step here, and the steps of
the two come in any order. In every run (`boundedFifo`):

* the steps are those of a bounded first-in-first-out channel (`FifoRun`);
* the positions are what the `int`s of the source count, and stay in the buffer;
* a push writes a free slot, `front` is null only when everything is popped, and a push
  waits exactly while the channel is full.

One slot is always free, so a queue constructed with `cap` holds `max cap 3` values.
-/

namespace Wfrest

open SPSCQueue

variable {n : Nat} {α : Type*}

/-! ### Positions -/

/-- `cap_`, as the constructor computes it from an `int`. -/
def capField (cap : Int) : Int := max (toInt (cap + 1)) 4

/-- The number of slots. -/
def slots (cap : Int) : Nat := (capField cap).toNat

instance (cap : Int) : NeZero (slots cap) where
  out := by unfold slots capField; omega

/-- `next_head` from `head`, and `next_tail` from `tail`. -/
def nextInt (cap_ i : Int) : Int :=
  let next := toInt (i + 1)
  if next = cap_ then 0 else next

theorem capField_eq {cap : Int} (hlow : -2 ^ 31 ≤ cap) (hcap : cap < 2 ^ 31 - 1) :
    capField cap = max cap 3 + 1 := by
  have hself : toInt (cap + 1) = cap + 1 :=
    toInt_eq_of (q := 0) (by omega) (by omega) (by omega)
  unfold capField
  rw [hself]
  omega

namespace SPSCQueue

theorem val_next (i : Fin n) : (next i).val = (i.val + 1) % n := by
  unfold next
  split
  next h =>
    rw [h, Nat.mod_self]
  next h =>
    have hlt := i.2
    rw [Nat.mod_eq_of_lt (by omega)]

theorem val_iterate_next (m : Nat) (i : Fin n) : (next^[m] i).val = (i.val + m) % n := by
  induction m with
  | zero => exact (Nat.mod_eq_of_lt i.2).symm
  | succ m ih => rw [Function.iterate_succ_apply', val_next, ih, Nat.mod_add_mod, Nat.add_assoc]

/-- The `int` of the source is the position. -/
theorem nextInt_val (hn : n < 2 ^ 31) (i : Fin n) : nextInt n i.val = (next i).val := by
  have hlt := i.2
  have hself : toInt (i.val + 1) = i.val + 1 :=
    toInt_eq_of (q := 0) (by omega) (by omega) (by omega)
  unfold nextInt next
  rw [hself]
  by_cases h : i.val + 1 = n
  · rw [if_pos (by omega), dif_pos h]
    rfl
  · rw [if_neg (by omega), dif_neg h]
    rfl

theorem iterate_nextInt_val (hn : n < 2 ^ 31) (m : Nat) (i : Fin n) :
    (nextInt n)^[m] i.val = (next^[m] i).val := by
  induction m with
  | zero => rfl
  | succ m ih => rw [Function.iterate_succ_apply', Function.iterate_succ_apply', ih, nextInt_val hn]

variable {q q' : SPSCQueue n α} {u : List α}

/-- **The free slot is the last one** exactly if all the others hold values. -/
theorem next_head_eq_tail_iff (hseg : Segment next q.buf q.tail u q.head) :
    next q.head = q.tail ↔ u.length + 1 = n := by
  have hlt : u.length < n := by simpa using hseg.length_lt
  have htail := q.tail.2
  rw [← hseg.iterate.1, ← Function.iterate_succ_apply' next, ← Fin.val_inj, val_iterate_next]
  by_cases hwrap : q.tail.val + u.length.succ < n
  · rw [Nat.mod_eq_of_lt hwrap]
    omega
  · rw [Nat.mod_eq_sub_mod (by omega), Nat.mod_eq_of_lt (by omega)]
    omega

theorem tail_eq_head_iff (hseg : Segment next q.buf q.tail u q.head) :
    q.head = q.tail ↔ u = [] := by
  cases u with
  | nil => exact iff_of_true (Eq.symm hseg) rfl
  | cons x xs => exact iff_of_false (fun heq => hseg.1 heq.symm) (List.cons_ne_nil x xs)

end SPSCQueue

/-! ### The two threads -/

/-- Where the consumer stands. -/
inductive Consumer (n : Nat) (α : Type*) where
  | idle
  /-- In `front`, before the load of `head_`. -/
  | frontHead (tail : Fin n)
  /-- `front` has returned `&buf_[tail]`. -/
  | found (tail : Fin n)
  /-- The value is read; before `pop`, which loads `tail_`. -/
  | popTail (v : α)
  /-- Before `buf_[tail].~T()`. -/
  | destroy (v : α) (tail : Fin n)
  /-- Before the store to `tail_`. -/
  | storeTail (v : α) (tail : Fin n)

/-- The value that the consumer has read and not yet popped. -/
def Consumer.held : Consumer n α → Option α
  | .popTail v | .destroy v _ | .storeTail v _ => some v
  | .idle | .frontHead _ | .found _ => none

/-- The same place in a call of `read_once`. -/
def Consumer.call : Consumer n α → ReadOnce n α
  | .idle => .returned none
  | .frontHead tail => .derefHead tail
  | .found tail => .copy tail
  | .popTail v => .pop v
  | .destroy v tail | .storeTail v tail => .storeTail v tail

/-- The queue with its two threads. The first of the values that remain is being pushed. -/
structure Spsc (n : Nat) (α : Type*) where
  q : SPSCQueue n α
  todo : List α
  producer : Push n
  consumer : Consumer n α

inductive SpscEvent where
  /-- A step of the producer. -/
  | produce
  /-- The consumer calls `front`. -/
  | front
  /-- Any other step of the consumer. -/
  | consume
  deriving DecidableEq, Repr

/-- What a step shows. -/
inductive Note (α : Type*) where
  | silent
  /-- The push waits for a free slot. -/
  | waits
  | published (x : α)
  /-- `front` returns null. -/
  | null
  /-- The consumer reads a value. -/
  | obtained (v : α)
  | popped (v : α)

/-- The values whose push has been published, in order. -/
def published (os : List (Note α)) : List α :=
  os.filterMap fun o => match o with
    | .published x => some x
    | _ => none

/-- The values that the consumer has read. -/
def obtained (os : List (Note α)) : List α :=
  os.filterMap fun o => match o with
    | .obtained v => some v
    | _ => none

/-- The values that have been popped. -/
def popped (os : List (Note α)) : List α :=
  os.filterMap fun o => match o with
    | .popped v => some v
    | _ => none

@[simp] theorem published_append (os os' : List (Note α)) :
    published (os ++ os') = published os ++ published os' := List.filterMap_append

@[simp] theorem obtained_append (os os' : List (Note α)) :
    obtained (os ++ os') = obtained os ++ obtained os' := List.filterMap_append

@[simp] theorem popped_append (os os' : List (Note α)) :
    popped (os ++ os') = popped os ++ popped os' := List.filterMap_append

/-- A note that shows no value. -/
def Note.Quiet : Note α → Prop
  | .silent | .waits | .null => True
  | .published _ | .obtained _ | .popped _ => False

theorem Note.Quiet.lists {o : Note α} (h : o.Quiet) :
    Wfrest.published [o] = [] ∧ Wfrest.obtained [o] = [] ∧ Wfrest.popped [o] = [] := by
  cases o with
  | silent | waits | null => exact ⟨rfl, rfl, rfl⟩
  | published | obtained | popped => exact absurd h id

variable {k : Nat}

/-- **The bounded channel.** What a note says about a channel of capacity `k`. -/
inductive FifoStep : Fifo k α → Note α → Fifo k α → Prop
  | silent {f : Fifo k α} : FifoStep f .silent f
  | waits {f : Fifo k α} (hfull : f.items.length = k) : FifoStep f .waits f
  | published {f f' : Fifo k α} {x : α} (hpush : f.push? x = some f') :
      FifoStep f (.published x) f'
  | null {f : Fifo k α} (hpop : f.pop? = none) : FifoStep f .null f
  | obtained {f : Fifo k α} {v : α} (hhead : f.items.head? = some v) : FifoStep f (.obtained v) f
  | popped {f f' : Fifo k α} {v : α} (hpop : f.pop? = some (v, f')) : FifoStep f (.popped v) f'

inductive FifoRun : List (Note α) → Fifo k α → Prop
  | nil : FifoRun [] .empty
  | snoc {os : List (Note α)} {o : Note α} {f f' : Fifo k α} (hrun : FifoRun os f)
      (hstep : FifoStep f o f') : FifoRun (os ++ [o]) f'

/-- A channel holds what was published and not popped. -/
theorem FifoRun.published_eq {os : List (Note α)} {f : Fifo k α} (h : FifoRun os f) :
    published os = popped os ++ f.items := by
  induction h with
  | nil => rfl
  | snoc hrun hstep ih =>
    rw [published_append, popped_append, ih]
    cases hstep with
    | silent | waits | null | obtained => simp [published, popped]
    | published hpush =>
      rw [Fifo.push?_eq_some hpush]
      simp [published, popped]
    | popped hpop =>
      rw [Fifo.pop?_eq_some hpop]
      simp [published, popped]

namespace Spsc

/-- A step of `push`, or the first one of the next call. A loop that waits stays where it
is. -/
def produce (s : Spsc n α) : Option (Spsc n α × Note α) :=
  match s.todo with
  | [] => none
  | x :: rest =>
    (s.q.push x s.producer).map fun r =>
      if r.2 = .returned then
        ({ s with q := r.1, todo := rest, producer := .loadHead }, .published x)
      else ({ s with q := r.1, producer := r.2 }, if r.2 = s.producer then .waits else .silent)

/-- `front` loads `tail_`. The consumer may ask again before it pops. -/
def front (s : Spsc n α) : Option (Spsc n α × Note α) :=
  match s.consumer with
  | .idle | .found _ => some ({ s with consumer := .frontHead s.q.tail }, .silent)
  | .frontHead _ | .popTail _ | .destroy _ _ | .storeTail _ _ => none

/-- The next step of the consumer. `T` is an `int` or a pointer, so destroying a value leaves
the slot as it is. -/
def consume (s : Spsc n α) : Option (Spsc n α × Note α) :=
  match s.consumer with
  | .idle => none
  | .frontHead tail =>
    if s.q.head = tail then some ({ s with consumer := .idle }, .null)
    else some ({ s with consumer := .found tail }, .silent)
  | .found tail => (s.q.buf tail).map fun v => ({ s with consumer := .popTail v }, .obtained v)
  | .popTail v => some ({ s with consumer := .destroy v s.q.tail }, .silent)
  | .destroy v tail => some ({ s with consumer := .storeTail v tail }, .silent)
  | .storeTail v tail =>
    some ({ s with q := { s.q with tail := next tail }, consumer := .idle }, .popped v)

def step (s : Spsc n α) : SpscEvent → Option (Spsc n α × Note α)
  | .produce => s.produce
  | .front => s.front
  | .consume => s.consume

/-- A queue that is constructed with `cap`, and the values that will be pushed. -/
def machine (cap : Int) (values : List α) : Machine (Spsc (slots cap) α) SpscEvent (Note α) where
  init := { q := .empty, todo := values, producer := .loadHead, consumer := .idle }
  step := step

/-! ### What a step does -/

variable {s s' : Spsc n α} {e : SpscEvent} {o : Note α}

inductive StepCase (s : Spsc n α) : SpscEvent → Note α → Spsc n α → Prop
  | pushing {x : α} {rest : List α} {q' : SPSCQueue n α} {c' : Push n} (htodo : s.todo = x :: rest)
      (hpush : s.q.push x s.producer = some (q', c')) (hc : c' ≠ .returned) :
      StepCase s .produce (if c' = s.producer then .waits else .silent)
        { s with q := q', producer := c' }
  | published {x : α} {rest : List α} {q' : SPSCQueue n α} (htodo : s.todo = x :: rest)
      (hpush : s.q.push x s.producer = some (q', .returned)) :
      StepCase s .produce (.published x) { s with q := q', todo := rest, producer := .loadHead }
  | front (hfree : s.consumer.held = none) :
      StepCase s .front .silent { s with consumer := .frontHead s.q.tail }
  | null {tail : Fin n} (hat : s.consumer = .frontHead tail) (heq : s.q.head = tail) :
      StepCase s .consume .null { s with consumer := .idle }
  | found {tail : Fin n} (hat : s.consumer = .frontHead tail) (hne : s.q.head ≠ tail) :
      StepCase s .consume .silent { s with consumer := .found tail }
  | obtained {tail : Fin n} {v : α} (hat : s.consumer = .found tail)
      (hv : s.q.buf tail = some v) :
      StepCase s .consume (.obtained v) { s with consumer := .popTail v }
  | popping {v : α} (hat : s.consumer = .popTail v) :
      StepCase s .consume .silent { s with consumer := .destroy v s.q.tail }
  | destroying {v : α} {tail : Fin n} (hat : s.consumer = .destroy v tail) :
      StepCase s .consume .silent { s with consumer := .storeTail v tail }
  | popped {v : α} {tail : Fin n} (hat : s.consumer = .storeTail v tail) :
      StepCase s .consume (.popped v)
        { s with q := { s.q with tail := next tail }, consumer := .idle }

/-- **Inversion.** -/
theorem step_cases (hstep : s.step e = some (s', o)) : StepCase s e o s' := by
  cases e with
  | produce =>
    simp only [step, produce] at hstep
    split at hstep
    · cases hstep
    next x rest htodo =>
      obtain ⟨⟨q', c'⟩, hpush, heq⟩ := Option.map_eq_some_iff.mp hstep
      -- the last step of a call publishes the value, and the next call begins
      dsimp only at heq
      split at heq
      next hc =>
        obtain ⟨rfl, rfl⟩ := Prod.mk.inj heq
        rw [hc] at hpush
        exact .published htodo hpush
      next hc =>
        obtain ⟨rfl, rfl⟩ := Prod.mk.inj heq
        exact .pushing htodo hpush hc
  | front =>
    simp only [step, front] at hstep
    split at hstep
    next hat =>
      obtain ⟨rfl, rfl⟩ := Prod.mk.inj (Option.some.inj hstep)
      exact .front (by rw [hat]; rfl)
    next hat =>
      obtain ⟨rfl, rfl⟩ := Prod.mk.inj (Option.some.inj hstep)
      exact .front (by rw [hat]; rfl)
    -- in the other states a `pop` has to come first
    all_goals cases hstep
  | consume =>
    simp only [step, consume] at hstep
    split at hstep
    · cases hstep
    next tail hat =>
      split at hstep
      next heq =>
        obtain ⟨rfl, rfl⟩ := Prod.mk.inj (Option.some.inj hstep)
        exact .null hat heq
      next hne =>
        obtain ⟨rfl, rfl⟩ := Prod.mk.inj (Option.some.inj hstep)
        exact .found hat hne
    next tail hat =>
      obtain ⟨v, hv, heq⟩ := Option.map_eq_some_iff.mp hstep
      obtain ⟨rfl, rfl⟩ := Prod.mk.inj heq
      exact .obtained hat hv
    next v hat =>
      obtain ⟨rfl, rfl⟩ := Prod.mk.inj (Option.some.inj hstep)
      exact .popping hat
    next v tail hat =>
      obtain ⟨rfl, rfl⟩ := Prod.mk.inj (Option.some.inj hstep)
      exact .destroying hat
    next v tail hat =>
      obtain ⟨rfl, rfl⟩ := Prod.mk.inj (Option.some.inj hstep)
      exact .popped hat

/-! ### The invariant -/

/-- The queue holds the values of `f`, and both threads know the positions that they work
with. -/
structure Inv (s : Spsc n α) (f : Fifo k α) : Prop where
  segment : Segment next s.q.buf s.q.tail f.items s.q.head
  producer : ∀ x rest, s.todo = x :: rest → s.producer.Fits s.q x
  consumer : s.consumer.call.Fits s.q
  running : s.producer ≠ .returned
  resting : s.todo = [] → s.producer = .loadHead

variable {f : Fifo k α}

/-- A value that has been read is the oldest one. -/
theorem Inv.head_eq (hinv : Inv s f) {v : α} (hheld : s.consumer.held = some v) :
    f.items.head? = some v := by
  have hfits := hinv.consumer
  have hfirst : ∀ w, s.q.tail ≠ s.q.head → s.q.buf s.q.tail = some w →
      f.items.head? = some w := by
    intro w hne hw
    obtain ⟨y, u, hu, hy, -⟩ := hinv.segment.uncons hne
    rw [hu, List.head?_cons, ← hw, hy]
  -- only between `front` and the end of `pop` is a value held
  cases hat : s.consumer with
  | idle | frontHead | found =>
    rw [hat] at hheld
    cases hheld
  | popTail w =>
    rw [hat] at hheld hfits
    obtain rfl := Option.some.inj hheld
    exact hfirst w hfits.1 hfits.2
  | destroy w tail | storeTail w tail =>
    rw [hat] at hheld hfits
    obtain rfl := Option.some.inj hheld
    exact hfirst w hfits.2.1 hfits.2.2

theorem Inv.held_le (hinv : Inv s f) : s.consumer.held.toList <+: f.items := by
  cases hheld : s.consumer.held with
  | none => exact List.nil_prefix
  | some v =>
    obtain ⟨u, hu⟩ := List.head?_eq_some_iff.mp (hinv.head_eq hheld)
    rw [hu]
    exact List.prefix_append [v] u

/-- A step of `push` that leads back to its place is one that waits. -/
theorem push_eq_self {q q' : SPSCQueue n α} {x : α} {c : Push n}
    (hpush : q.push x c = some (q', c)) : ∃ head, c = .spin head ∧ next head = q.tail := by
  cases c with
  | loadHead | construct | storeHead | returned => cases hpush
  | spin head =>
    have hc := congrArg Prod.snd (Option.some.inj hpush)
    dsimp only at hc
    split at hc
    next hfull => exact ⟨head, rfl, hfull⟩
    · cases hc

/-- **Every step is one of the channel.** -/
theorem Inv.step (hn : n = k + 1) (hinv : Inv s f) (hstep : StepCase s e o s') :
    ∃ f', Inv s' f' ∧ FifoStep f o f' := by
  have hfits := hinv.consumer
  cases hstep with
  | @pushing x rest q' c' htodo hpush hc =>
    have hproducer := hinv.producer x rest htodo
    obtain ⟨u', hseg, hfits', hcase⟩ := push_spec hinv.segment hproducer hpush
    obtain rfl : u' = f.items := by
      rcases hcase with ⟨hret, -⟩ | ⟨-, heq⟩
      · exact absurd hret hc
      · exact heq
    refine ⟨f, ⟨hseg, fun y rest' hy => ?_, fits_of_push hproducer hpush hfits, hc, fun hnil => ?_⟩,
      ?_⟩
    · obtain ⟨rfl, -⟩ := List.cons.inj (htodo.symm.trans hy)
      exact hfits'
    · exact nomatch htodo.symm.trans hnil
    -- a wait shows as a step that changes nothing
    · split
      next hsame =>
        subst hsame
        obtain ⟨head, hspin, hfull⟩ := push_eq_self hpush
        rw [hspin] at hproducer
        obtain rfl : head = s.q.head := hproducer
        have hlen := (next_head_eq_tail_iff hinv.segment).mp hfull
        exact .waits (by omega)
      · exact .silent
  | @published x rest q' htodo hpush =>
    have hproducer := hinv.producer x rest htodo
    obtain ⟨u', hseg, -, hcase⟩ := push_spec hinv.segment hproducer hpush
    obtain rfl : u' = f.items ++ [x] := by
      rcases hcase with ⟨-, heq⟩ | ⟨hne, -⟩
      · exact heq
      · exact absurd rfl hne
    -- the segment does not fill the ring, so the channel has room
    have hlt := hseg.length_lt
    rw [Fintype.card_fin, List.length_append, List.length_singleton, hn] at hlt
    obtain ⟨f', hf', hitems⟩ := f.exists_push? x (Nat.lt_of_succ_lt_succ hlt)
    rw [← hitems] at hseg
    exact ⟨f', ⟨hseg, fun _ _ _ => trivial, fits_of_push hproducer hpush hfits, nofun,
      fun _ => rfl⟩, .published hf'⟩
  | front => exact ⟨f, ⟨hinv.segment, hinv.producer, rfl, hinv.running, hinv.resting⟩, .silent⟩
  | @null tail hat heq =>
    rw [hat] at hfits
    have hnil := (tail_eq_head_iff hinv.segment).mp (heq.trans hfits)
    exact ⟨f, ⟨hinv.segment, hinv.producer, trivial, hinv.running, hinv.resting⟩,
      .null (Fifo.pop?_eq_none_iff.mpr hnil)⟩
  | @found tail hat hne =>
    rw [hat] at hfits
    refine ⟨f, ⟨hinv.segment, hinv.producer, ⟨hfits, fun heq => hne ?_⟩, hinv.running,
      hinv.resting⟩, .silent⟩
    rw [← heq]
    exact hfits.symm
  | @obtained tail v hat hv =>
    rw [hat] at hfits
    obtain ⟨rfl, hne⟩ := hfits
    have hinv' : Inv { s with consumer := .popTail v } f :=
      ⟨hinv.segment, hinv.producer, ⟨hne, hv⟩, hinv.running, hinv.resting⟩
    exact ⟨f, hinv', .obtained (hinv'.head_eq rfl)⟩
  | @popping v hat =>
    rw [hat] at hfits
    exact ⟨f, ⟨hinv.segment, hinv.producer, ⟨rfl, hfits⟩, hinv.running, hinv.resting⟩, .silent⟩
  | @destroying v tail hat =>
    rw [hat] at hfits
    exact ⟨f, ⟨hinv.segment, hinv.producer, hfits, hinv.running, hinv.resting⟩, .silent⟩
  | @popped v tail hat =>
    rw [hat] at hfits
    -- the value was read before, so it is the one that the channel pops
    have hread : s.q.readOnce (.storeTail v tail) =
        some ({ s.q with tail := next tail }, .returned (some v)) := rfl
    obtain ⟨u', hseg, -, hu⟩ := readOnce_spec hinv.segment hfits hread
    have hitems : f.items = v :: u' := hu
    obtain ⟨f', hf', hitems⟩ := f.exists_pop? hitems
    rw [← hitems] at hseg
    exact ⟨f', ⟨hseg, fun x rest hx => fits_of_readOnce hfits hread (hinv.producer x rest hx),
      trivial, hinv.running, hinv.resting⟩, .popped hf'⟩

/-- `front` is null exactly if the channel is empty. -/
theorem Inv.consume_eq_null_iff (hinv : Inv s f) {i : Fin n} (hat : s.consumer = .frontHead i) :
    s.consume = some ({ s with consumer := .idle }, .null) ↔ f.items = [] := by
  have hfits := hinv.consumer
  rw [hat] at hfits
  obtain rfl : i = s.q.tail := hfits
  rw [← tail_eq_head_iff hinv.segment]
  simp only [consume, hat]
  split
  next heq => exact iff_of_true rfl heq
  next hne =>
    refine iff_of_false (fun h => ?_) hne
    have := congrArg Prod.snd (Option.some.inj h)
    cases this

/-- A push waits exactly if the channel is full. -/
theorem Inv.produce_eq_waits_iff (hn : n = k + 1) (hinv : Inv s f) {i : Fin n}
    (hat : s.producer = .spin i) : s.produce = some (s, .waits) ↔ f.items.length = k := by
  have hfull := next_head_eq_tail_iff hinv.segment
  cases htodo : s.todo with
  | nil =>
    have hload := hinv.resting htodo
    rw [hat] at hload
    cases hload
  | cons x rest =>
    have hfits := hinv.producer x rest htodo
    rw [hat] at hfits
    obtain rfl : i = s.q.head := hfits
    simp only [produce, htodo, hat, push, Option.map_some]
    -- full is that the position behind the head is the tail
    by_cases heq : next s.q.head = s.q.tail
    · refine iff_of_true ?_ (by have := hfull.mp heq; omega)
      rw [if_pos heq, if_neg (by simp), if_pos rfl, ← hat, ← htodo]
    · refine iff_of_false (fun h => ?_) fun hlen => heq (hfull.mpr (by omega))
      rw [if_neg heq, if_neg (by simp), if_neg (by simp)] at h
      cases congrArg Prod.snd (Option.some.inj h)

/-- A push in progress has a next step. -/
theorem Inv.isSome_produce (hinv : Inv s f) (h : s.todo ≠ []) : s.produce.isSome := by
  obtain ⟨x, rest, htodo⟩ := List.exists_cons_of_ne_nil h
  have hrunning := hinv.running
  simp only [produce, htodo, Option.isSome_map]
  cases hat : s.producer with
  | loadHead | spin | construct | storeHead => rfl
  | returned => exact absurd hat hrunning

/-- A call of the consumer in progress has a next step: it reads a slot that was written. -/
theorem Inv.isSome_consume (hinv : Inv s f) (h : s.consumer.call ≠ .returned none) :
    s.consume.isSome := by
  have hfits := hinv.consumer
  cases hat : s.consumer with
  | idle =>
    rw [hat] at h
    exact absurd rfl h
  | frontHead i =>
    simp only [consume, hat]
    split <;> rfl
  | found i =>
    rw [hat] at hfits
    obtain ⟨rfl, hne⟩ := hfits
    obtain ⟨y, u, -, hy, -⟩ := hinv.segment.uncons hne
    simp only [consume, hat, hy]
    rfl
  | popTail | destroy | storeTail =>
    simp only [consume, hat]
    rfl

/-! ### Runs -/

/-- The positions after a step of `push`. -/
theorem positions_push {q q' : SPSCQueue n α} {x : α} {c c' : Push n} (hfits : c.Fits q x)
    (hpush : q.push x c = some (q', c')) :
    q'.tail = q.tail ∧ q'.head = if c' = .returned then next q.head else q.head := by
  cases c with
  | loadHead | construct =>
    cases hpush
    exact ⟨rfl, rfl⟩
  | spin head =>
    cases hpush
    refine ⟨rfl, ?_⟩
    split <;> rfl
  | storeHead head =>
    obtain ⟨rfl, -⟩ := hfits
    cases hpush
    exact ⟨rfl, rfl⟩
  | returned => cases hpush

/-- What the notes of a run say about its state. -/
structure Trail [NeZero n] (values : List α) (os : List (Note α)) (s : Spsc n α) : Prop where
  obtained_eq : obtained os = popped os ++ s.consumer.held.toList
  values_eq : published os ++ s.todo = values
  head_eq : s.q.head = next^[(published os).length] 0
  tail_eq : s.q.tail = next^[(popped os).length] 0

/-- A quiet step that leaves the positions and the values alone. -/
theorem Trail.quiet [NeZero n] {values : List α} {os : List (Note α)} (h : Trail values os s)
    (ho : o.Quiet) (hheld : s'.consumer.held = s.consumer.held) (htodo : s'.todo = s.todo)
    (hhead : s'.q.head = s.q.head) (htail : s'.q.tail = s.q.tail) :
    Trail values (os ++ [o]) s' := by
  obtain ⟨hpublished, hobtained, hpopped⟩ := ho.lists
  constructor
  · rw [obtained_append, popped_append, hobtained, hpopped, List.append_nil, List.append_nil,
      hheld]
    exact h.obtained_eq
  · rw [published_append, hpublished, List.append_nil, htodo]
    exact h.values_eq
  · rw [published_append, hpublished, List.append_nil, hhead]
    exact h.head_eq
  · rw [popped_append, hpopped, List.append_nil, htail]
    exact h.tail_eq

theorem Trail.step [NeZero n] {values : List α} {os : List (Note α)} (h : Trail values os s)
    (hinv : Inv s f) (hstep : StepCase s e o s') : Trail values (os ++ [o]) s' := by
  have hfits := hinv.consumer
  cases hstep with
  | @pushing x rest q' c' htodo hpush hc =>
    obtain ⟨htail, hhead⟩ := positions_push (hinv.producer x rest htodo) hpush
    rw [if_neg hc] at hhead
    refine h.quiet ?_ rfl rfl hhead htail
    split <;> trivial
  | @published x rest q' htodo hpush =>
    obtain ⟨htail, hhead⟩ := positions_push (hinv.producer x rest htodo) hpush
    rw [if_pos rfl] at hhead
    -- one value more is published, and the head is one position further
    constructor
    · simpa [obtained, popped] using h.obtained_eq
    · rw [← h.values_eq, htodo]
      simp [published]
    · rw [hhead, h.head_eq, ← Function.iterate_succ_apply' next]
      simp [published]
    · rw [htail, h.tail_eq]
      simp [popped]
  | front hfree => exact h.quiet trivial hfree.symm rfl rfl rfl
  | null hat | found hat => exact h.quiet trivial (by rw [hat]; rfl) rfl rfl rfl
  | @obtained tail v hat hv =>
    have hobtained := h.obtained_eq
    rw [hat] at hobtained
    constructor
    · rw [obtained_append, popped_append, hobtained]
      simp [obtained, popped, Consumer.held]
    · simpa [published] using h.values_eq
    · simpa [published] using h.head_eq
    · simpa [popped] using h.tail_eq
  | popping hat | destroying hat => exact h.quiet trivial (by rw [hat]; rfl) rfl rfl rfl
  | @popped v tail hat =>
    rw [hat] at hfits
    have hobtained := h.obtained_eq
    rw [hat] at hobtained
    -- the value was obtained before, so it moves from the held to the popped ones
    constructor
    · rw [obtained_append, popped_append, hobtained]
      simp [obtained, popped, Consumer.held]
    · simpa [published] using h.values_eq
    · simpa [published] using h.head_eq
    · obtain rfl : tail = s.q.tail := hfits.1
      dsimp only
      rw [h.tail_eq, ← Function.iterate_succ_apply' next]
      simp [popped]

/-- **Every run is one of the channel.** -/
theorem fifoRun_of_reach {cap : Int} {values : List α} (hslots : slots cap = k + 1)
    {h : List (SpscEvent × Note α)} {s : Spsc (slots cap) α}
    (hr : (machine cap values).Reach h s) :
    ∃ f : Fifo k α, Inv s f ∧ FifoRun (h.map Prod.snd) f ∧
      Trail values (h.map Prod.snd) s := by
  induction hr with
  | init =>
    refine ⟨.empty, ⟨rfl, fun _ _ _ => trivial, trivial, nofun, fun _ => rfl⟩, .nil, ?_⟩
    exact ⟨rfl, rfl, rfl, rfl⟩
  | snoc hr hstep ih =>
    obtain ⟨f, hinv, hrun, htrail⟩ := ih
    have hcase := step_cases hstep
    obtain ⟨f', hinv', hfifo⟩ := hinv.step hslots hcase
    refine ⟨f', hinv', ?_, ?_⟩
    · rw [List.map_append]
      exact hrun.snoc hfifo
    · rw [List.map_append]
      exact htrail.step hinv hcase

/-- The values in the queue: published and not popped. -/
def unpopped (os : List (Note α)) : List α := (published os).drop (popped os).length

/-- **What the notes `os` of a run and its state say about the queue.** -/
structure BoundedFifo (cap : Int) (values : List α) (os : List (Note α))
    (s : Spsc (slots cap) α) : Prop where
  /-- The steps are those of a channel that holds `max cap 3` values. -/
  fifo : ∃ f : Fifo (max cap 3).toNat α, FifoRun os f ∧ f.items = unpopped os
  in_order : obtained os <+: published os
  pushed : published os <+: values
  /-- The positions are what the `int`s of the source count from 0. -/
  head : (s.q.head.val : Int) = (nextInt (capField cap))^[(published os).length] 0
  tail : (s.q.tail.val : Int) = (nextInt (capField cap))^[(popped os).length] 0
  head_range : 0 ≤ (s.q.head.val : Int) ∧ (s.q.head.val : Int) < capField cap
  tail_range : 0 ≤ (s.q.tail.val : Int) ∧ (s.q.tail.val : Int) < capField cap
  /-- The values stand in the slots from `tail_` on, and a push writes none of these. -/
  stored : ∀ m < (unpopped os).length, s.q.buf (next^[m] s.q.tail) = (unpopped os)[m]?
  write : ∀ i, s.producer = .construct i → ∀ m < (unpopped os).length, next^[m] s.q.tail ≠ i
  /-- `front` is null exactly if everything that is published has been popped. -/
  front : ∀ i, s.consumer = .frontHead i →
    (s.consume = some ({ s with consumer := .idle }, .null) ↔ popped os = published os)
  /-- A push waits exactly while the channel is full. -/
  waits : ∀ i, s.producer = .spin i →
    (s.produce = some (s, .waits) ↔ ((unpopped os).length : Int) = max cap 3)
  /-- No step is undefined. -/
  produces : s.todo ≠ [] → s.produce.isSome
  consumes : s.consumer.call ≠ .returned none → s.consume.isSome

theorem slots_eq {cap : Int} (hlow : -2 ^ 31 ≤ cap) (hcap : cap < 2 ^ 31 - 1) :
    slots cap = (max cap 3).toNat + 1 ∧ (slots cap : Int) = capField cap ∧ slots cap < 2 ^ 31 := by
  unfold slots
  rw [capField_eq hlow hcap]
  omega

/-- **A bounded FIFO.** -/
theorem boundedFifo {cap : Int} (hlow : -2 ^ 31 ≤ cap) (hcap : cap < 2 ^ 31 - 1)
    {values : List α} {h : List (SpscEvent × Note α)} {s : Spsc (slots cap) α}
    (hr : (machine cap values).Reach h s) : BoundedFifo cap values (h.map Prod.snd) s := by
  obtain ⟨hslots, hfield, hlt⟩ := slots_eq hlow hcap
  obtain ⟨f, hinv, hrun, htrail⟩ := fifoRun_of_reach hslots hr
  generalize h.map Prod.snd = os at hrun htrail
  have hpublished := hrun.published_eq
  have hitems : f.items = unpopped os := by
    unfold unpopped
    rw [hpublished, List.drop_left]
  have hseg := hinv.segment
  -- the positions as numbers
  have hposition : ∀ m, ((next^[m] (0 : Fin (slots cap))).val : Int) =
      (nextInt (capField cap))^[m] 0 := by
    intro m
    rw [← hfield, ← iterate_nextInt_val hlt]
    rfl
  have hrange : ∀ i : Fin (slots cap), 0 ≤ (i.val : Int) ∧ (i.val : Int) < capField cap := by
    intro i
    have := i.2
    omega
  obtain ⟨hcell, hfree⟩ : (∀ m < f.items.length, s.q.buf (next^[m] s.q.tail) = f.items[m]?) ∧
      ∀ m < f.items.length, next^[m] s.q.tail ≠ s.q.head :=
    ⟨fun m hm => (hseg.cell hm).trans (List.getElem?_eq_getElem hm).symm, hseg.iterate.2⟩
  rw [hitems] at hcell hfree
  constructor
  · exact ⟨f, hrun, hitems⟩
  · rw [htrail.obtained_eq, hpublished]
    exact (List.prefix_append_right_inj _).mpr hinv.held_le
  · exact ⟨s.todo, htrail.values_eq⟩
  · rw [htrail.head_eq, hposition]
  · rw [htrail.tail_eq, hposition]
  · exact hrange _
  · exact hrange _
  · exact hcell
  -- the slot that is written is the one at the head, which no value is in
  · intro i hat m hm
    obtain ⟨x, rest, htodo⟩ := List.exists_cons_of_ne_nil fun hnil : s.todo = [] => by
      have hload := hinv.resting hnil
      rw [hat] at hload
      cases hload
    have hfits := hinv.producer x rest htodo
    rw [hat] at hfits
    rw [hfits.1]
    exact hfree m hm
  · intro i hat
    rw [hinv.consume_eq_null_iff hat, hpublished, List.self_eq_append_right]
  · intro i hat
    rw [hinv.produce_eq_waits_iff hslots hat, hitems]
    omega
  · exact hinv.isSome_produce
  · exact hinv.isSome_consume

/-- A queue constructed with 0 holds three values: the fourth push waits. -/
theorem boundedFifo_four : ∃ (h : List (SpscEvent × Note Nat)) (s : Spsc (slots 0) Nat),
    (machine 0 [5, 6, 7, 8]).Reach h s ∧ published (h.map Prod.snd) = [5, 6, 7] ∧
      obtained (h.map Prod.snd) = [5] ∧ BoundedFifo 0 [5, 6, 7, 8] (h.map Prod.snd) s := by
  have hrun : ((machine 0 [5, 6, 7, 8]).run? (List.replicate 14 SpscEvent.produce ++
      [SpscEvent.front, .consume, .consume, .consume])).any (fun r => decide
        (published (r.1.map Prod.snd) = [5, 6, 7] ∧ obtained (r.1.map Prod.snd) = [5])) =
      true := by
    decide +kernel
  obtain ⟨h, s, hr, hcheck⟩ := Machine.exists_reach_of_run? hrun
  obtain ⟨hpublished, hobtained⟩ := of_decide_eq_true hcheck
  exact ⟨h, s, hr, hpublished, hobtained, boundedFifo (by decide) (by decide) hr⟩

end Spsc

end Wfrest
