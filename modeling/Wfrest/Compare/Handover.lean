import Wfrest.Compare.Chan
import Wfrest.Lib.Run

/-!
# Handing tasks over between threads

`dc_compare_t` passes a task from the handler that adds it to its worker thread
through `task_q_`, and from the worker to the handler that gets the result through
`out_q_`. The handlers run on many threads. Here a step is one load, store or slot
access of one call of `add` or `get` or of the worker, and the steps interleave in
any order.

* A task is a `new dc_api_task_t`, so no task is passed to `add` twice. What it
  contains is of no concern, and `exe_sql_job` is one step.
* `exit_` is set by the destructor, when no handler is left. A worker that has left
  its loop takes no step.
* A step that is undefined (a null `front` is dereferenced) does not happen, and the
  run stops there.

The channels are made for one writer and one reader. With several handlers at work
on one of them two writers may take the same slot and a task is lost
(`not_one_place_two_adds`). When the handlers enter their part of a channel one at
a time, every task is in exactly one place, in every state of every run
(`one_place_of_serial`).
-/

namespace Wfrest

/-- The `q_(64)` of a `task_chan_t`. -/
abbrev TaskQ (τ : Type*) := SPSCQueue (spscCap 64) τ

/-- Where the worker thread stands in `execute`. -/
inductive Execute (τ : Type*) where
  /-- In `task_q_.read_once`. -/
  | readOnce (r : ReadOnce (spscCap 64) τ)
  /-- Before `exe_sql_job`. -/
  | exeSqlJob (task : τ)
  /-- In `out_q_.write`. -/
  | write (task : τ) (c : Push (spscCap 64))

/-- The threads that share a `dc_compare_t`: all calls of `add` and of `get` that were
ever made, the worker, and the channels. -/
structure Handover (τ : Type*) where
  adds : List (τ × Push (spscCap 64))
  taskQ : TaskQ τ
  worker : Execute τ
  outQ : TaskQ τ
  gets : List (ReadOnce (spscCap 64) τ)

variable {τ : Type*}

/-- The loop of `execute` goes on after a step of `task_q_.read_once`. -/
def Execute.afterRead : ReadOnce (spscCap 64) τ → Execute τ
  | .returned (some task) => .exeSqlJob task
  | .returned none => .readOnce .front
  | r => .readOnce r

/-- The loop of `execute` goes on after a step of `out_q_.write`. -/
def Execute.afterWrite (task : τ) : Push (spscCap 64) → Execute τ
  | .returned => .readOnce .front
  | c => .write task c

/-- The task that the worker holds. -/
def Execute.held : Execute τ → Option τ
  | .readOnce _ => none
  | .exeSqlJob task | .write task _ => some task

namespace Handover

def start : Handover τ := ⟨[], .empty, .readOnce .front, .empty, []⟩

/-- The next step of the worker. -/
def work (s : Handover τ) : Option (Handover τ) :=
  match s.worker with
  | .readOnce r =>
    (s.taskQ.readOnce r).map fun p => { s with taskQ := p.1, worker := .afterRead p.2 }
  | .exeSqlJob task => some { s with worker := .write task .loadHead }
  | .write task c =>
    (s.outQ.push task c).map fun p => { s with outQ := p.1, worker := .afterWrite task p.2 }

/-- The steps of the threads. -/
inductive Event (τ : Type*) where
  /-- A handler calls `add(task)`. -/
  | add (task : τ)
  /-- The next step of the `i`-th call of `add`. -/
  | push (i : Nat)
  | work
  /-- A handler calls `get`. -/
  | get
  /-- The next step of the `j`-th call of `get`. -/
  | readOnce (j : Nat)

/-- One step. -/
def step [DecidableEq τ] (s : Handover τ) : Event τ → Option (Handover τ)
  | .add task =>
    -- every call of `add` has a task of its own
    if task ∈ s.adds.map Prod.fst then none
    else some { s with adds := s.adds ++ [(task, .loadHead)] }
  | .push i =>
    match s.adds[i]? with
    | none => none
    | some (task, c) =>
      (s.taskQ.push task c).map fun p =>
        { s with taskQ := p.1, adds := s.adds.set i (task, p.2) }
  | .work => s.work
  | .get => some { s with gets := s.gets ++ [.front] }
  | .readOnce j =>
    match s.gets[j]? with
    | none => none
    | some r =>
      (s.outQ.readOnce r).map fun p => { s with outQ := p.1, gets := s.gets.set j p.2 }

/-- The threads from the start of the service. A step shows nothing. -/
def machine (τ : Type*) [DecidableEq τ] : Machine (Handover τ) (Event τ) Unit where
  init := start
  step s e := (s.step e).map fun s' => (s', ())

/-! ### Where the tasks are -/

/-- A place that a task can be in. -/
inductive Place where
  /-- The `i`-th call of `add` is still pushing it. -/
  | pushing (i : Nat)
  /-- It is the `k`-th item of `task_q_`. -/
  | taskQ (k : Nat)
  /-- The worker holds it. -/
  | worker
  /-- It is the `k`-th item of `out_q_`. -/
  | outQ (k : Nat)
  /-- The `j`-th call of `get` returned it. -/
  | returned (j : Nat)
  deriving DecidableEq

/-- The task that a call of `add` is pushing. -/
def pending (p : τ × Push (spscCap 64)) : Option τ :=
  if p.2 = .returned then none else some p.1

/-- The tasks with the places they are in. -/
def places (s : Handover τ) : List (Place × τ) :=
  tag .pushing (s.adds.map pending) ++ tag .taskQ s.taskQ.items ++
    tag (fun _ => .worker) [s.worker.held] ++ tag .outQ s.outQ.items ++
    tag .returned (s.gets.map ReadOnce.taken)

/-- The tasks that were passed to `add`. -/
def passed (h : List (Event τ × Unit)) : List τ :=
  h.filterMap fun
    | (.add task, _) => some task
    | _ => none

/-- The handlers enter their part of a channel one at a time: when a call of `add`
loads `head_` no other call of `add` is past this load, and when a call of `get`
loads the `tail_` it reads from no other call of `get` is past that. -/
def Serial (s : Handover τ) : Event τ → Prop
  | .push i => s.adds[i]?.map Prod.snd = some .loadHead → ∀ p ∈ s.adds, ¬ p.2.Active
  | .readOnce j => s.gets[j]? = some .deref → ∀ r ∈ s.gets, ¬ r.Active
  | _ => True

instance [DecidableEq τ] (s : Handover τ) (e : Event τ) : Decidable (s.Serial e) :=
  match e with
  | .push i => inferInstanceAs (Decidable
      (s.adds[i]?.map Prod.snd = some .loadHead → ∀ p ∈ s.adds, ¬ p.2.Active))
  | .readOnce j => inferInstanceAs (Decidable
      (s.gets[j]? = some .deref → ∀ r ∈ s.gets, ¬ r.Active))
  | .add _ | .work | .get => isTrue trivial

/-! ### One step -/

/-- What one step can do. The steps of the worker are those of `work`. -/
inductive StepCase (s : Handover τ) : Event τ → Handover τ → Prop
  | add {task : τ} (hnew : task ∉ s.adds.map Prod.fst) :
      StepCase s (.add task) { s with adds := s.adds ++ [(task, .loadHead)] }
  | push {i : Nat} {task : τ} {c c' : Push (spscCap 64)} {q : TaskQ τ}
      (hi : s.adds[i]? = some (task, c)) (hpush : s.taskQ.push task c = some (q, c')) :
      StepCase s (.push i) { s with taskQ := q, adds := s.adds.set i (task, c') }
  | work {s' : Handover τ} (hwork : s.work = some s') : StepCase s .work s'
  | get : StepCase s .get { s with gets := s.gets ++ [.front] }
  | readOnce {j : Nat} {r r' : ReadOnce (spscCap 64) τ} {q : TaskQ τ}
      (hj : s.gets[j]? = some r) (hread : s.outQ.readOnce r = some (q, r')) :
      StepCase s (.readOnce j) { s with outQ := q, gets := s.gets.set j r' }

/-- **Inversion.** A step does one of the things above. -/
theorem step_cases [DecidableEq τ] {s s' : Handover τ} {e : Event τ} {o : Unit}
    (hstep : (machine τ).step s e = some (s', o)) : StepCase s e s' := by
  obtain ⟨s₁, hs₁, heq⟩ := Option.map_eq_some_iff.mp hstep
  cases heq
  cases e with
  | add task =>
    simp only [step] at hs₁
    split at hs₁
    · cases hs₁
    next hnew =>
      cases hs₁
      exact .add hnew
  | push i =>
    simp only [step] at hs₁
    split at hs₁
    · cases hs₁
    next task c hi =>
      obtain ⟨⟨q, c'⟩, hpush, rfl⟩ := Option.map_eq_some_iff.mp hs₁
      exact .push hi hpush
  | work => exact .work hs₁
  | get =>
    cases hs₁
    exact .get
  | readOnce j =>
    simp only [step] at hs₁
    split at hs₁
    · cases hs₁
    next r hj =>
      obtain ⟨⟨q, r'⟩, hread, rfl⟩ := Option.map_eq_some_iff.mp hs₁
      exact .readOnce hj hread

/-- The worker does not call `add`. -/
theorem adds_of_work {s s' : Handover τ} (hwork : s.work = some s') : s'.adds = s.adds := by
  unfold work at hwork
  split at hwork
  · obtain ⟨p, -, rfl⟩ := Option.map_eq_some_iff.mp hwork
    rfl
  · cases hwork
    rfl
  · obtain ⟨p, -, rfl⟩ := Option.map_eq_some_iff.mp hwork
    rfl

/-! ### The calls of the worker -/

end Handover

section Execute

variable {q : TaskQ τ} {xs : List τ}

/-- The call of `read_once` that the worker is in. -/
def Execute.reads : Execute τ → List (ReadOnce (spscCap 64) τ)
  | .readOnce r => [r]
  | _ => []

/-- The call of `push` that the worker is in. -/
def Execute.pushes : Execute τ → List (τ × Push (spscCap 64))
  | .write task c => [(task, c)]
  | _ => []

/-- After a step of `task_q_.read_once` the worker holds what the call returned. -/
theorem Execute.held_afterRead (r : ReadOnce (spscCap 64) τ) :
    (Execute.afterRead r).held = r.taken := by
  cases r with
  | returned task => cases task <;> rfl
  | _ => rfl

theorem Execute.pushes_afterRead (r : ReadOnce (spscCap 64) τ) :
    (Execute.afterRead r).pushes = [] := by
  unfold Execute.afterRead
  split <;> rfl

theorem sound_afterRead {pushes : List (τ × Push (spscCap 64))} {r : ReadOnce (spscCap 64) τ}
    (h : q.Sound xs pushes [r]) : q.Sound xs pushes (Execute.afterRead r).reads := by
  cases r with
  | returned task =>
    refine h.reads_of_not_active fun s hs => ?_
    cases task with
    | none => exact List.mem_singleton.mp hs ▸ id
    | some task => cases hs
  | _ => exact h

/-- After a step of `out_q_.write` the worker holds the task unless the call returned. -/
theorem Execute.held_afterWrite (task : τ) (c : Push (spscCap 64)) :
    (Execute.afterWrite task c).held = Handover.pending (task, c) := by
  cases c <;> rfl

theorem Execute.reads_afterWrite {task : τ} {c : Push (spscCap 64)}
    {r : ReadOnce (spscCap 64) τ} (hr : r ∈ (Execute.afterWrite task c).reads) :
    ¬ r.Active := by
  cases c with
  | returned => exact List.mem_singleton.mp hr ▸ id
  | _ => cases hr

theorem sound_afterWrite {task : τ} {c : Push (spscCap 64)}
    {reads : List (ReadOnce (spscCap 64) τ)} (h : q.Sound xs [(task, c)] reads) :
    q.Sound xs (Execute.afterWrite task c).pushes reads := by
  cases c with
  | returned => exact h.pushes_of_not_active nofun
  | _ => exact h

end Execute

namespace Handover

/-! ### The invariant -/

/-- A call that takes a step has not returned its item yet. -/
theorem taken_eq_none_of_readOnce {cap : Nat} {q q' : SPSCQueue cap τ} {r r' : ReadOnce cap τ}
    (hstep : q.readOnce r = some (q', r')) : r.taken = none := by
  cases r with
  | returned => cases hstep
  | _ => rfl

theorem pending_of_push {q q' : TaskQ τ} {task : τ} {c c' : Push (spscCap 64)}
    (hstep : q.push task c = some (q', c')) : pending (task, c) = some task := by
  cases c with
  | returned => cases hstep
  | _ => rfl

section Inv

variable [DecidableEq τ] {s s' : Handover τ} {h : List (Event τ × Unit)} {xs ys : List τ}
  {e : Event τ} {o : Unit}

/-- How often a task is pushed, queued in `task_q_` as one of `xs`, held by the
worker, queued in `out_q_` as one of `ys`, or returned. -/
def account (s : Handover τ) (xs ys : List τ) (t : τ) : Nat :=
  (s.adds.map pending).count (some t) + xs.count t + [s.worker.held].count (some t) +
    ys.count t + (s.gets.map ReadOnce.taken).count (some t)

/-- The invariant: the channels are sound for the calls on them and hold `xs` and
`ys`, and the account of every task is balanced. -/
structure Inv (s : Handover τ) (xs ys : List τ) : Prop where
  taskQ : s.taskQ.Sound xs s.adds s.worker.reads
  outQ : s.outQ.Sound ys s.worker.pushes s.gets
  nodup : (s.adds.map Prod.fst).Nodup
  balanced : ∀ t, account s xs ys t = (s.adds.map Prod.fst).count t

theorem inv_start : Inv (start : Handover τ) [] [] where
  taskQ := SPSCQueue.sound_empty.reads_of_not_active fun _ hr => List.mem_singleton.mp hr ▸ id
  outQ := SPSCQueue.sound_empty
  nodup := List.nodup_nil
  balanced := fun _ => rfl

@[simp] theorem count_none (t : τ) : [(none : Option τ)].count (some t) = 0 := rfl

/-- What a step of `push` takes from the call it gives to the queue. -/
theorem count_push {task : τ} {c' : Push (spscCap 64)} {xs xs' : List τ}
    (hxs : (c' = .returned ∧ xs' = xs ++ [task]) ∨ (c' ≠ .returned ∧ xs' = xs)) (t : τ) :
    [pending (task, c')].count (some t) + xs'.count t =
      [some task].count (some t) + xs.count t := by
  obtain ⟨rfl, rfl⟩ | ⟨hne, rfl⟩ := hxs
  · have hcall : [some task].count (some t) = [task].count t := by
      simp [List.count_singleton]
    have hreturned : [pending (task, (.returned : Push (spscCap 64)))].count (some t) = 0 := rfl
    rw [List.count_append]
    omega
  · rw [pending, if_neg hne]

/-- What a step of `read_once` takes from the queue it gives to the call. -/
theorem count_readOnce (o : Option τ) (xs : List τ) (t : τ) :
    (o.toList ++ xs).count t = [o].count (some t) + xs.count t := by
  cases o with
  | none => simp
  | some v => simp [List.count_cons, Nat.add_comm]

theorem inv_add (hinv : Inv s xs ys) {task : τ} (hnew : task ∉ s.adds.map Prod.fst) :
    Inv { s with adds := s.adds ++ [(task, .loadHead)] } xs ys where
  taskQ := hinv.taskQ.call_push task
  outQ := hinv.outQ
  nodup := by
    rw [List.map_append, List.nodup_append']
    exact ⟨hinv.nodup, List.nodup_singleton _, by simpa using hnew⟩
  balanced := fun t => by
    have := hinv.balanced t
    simp only [account, List.map_append, List.count_append] at this ⊢
    simp [pending, List.count_singleton] at this ⊢
    omega

theorem inv_push (hinv : Inv s xs ys) {i : Nat} {task : τ} {c c' : Push (spscCap 64)}
    {q : TaskQ τ} (hi : s.adds[i]? = some (task, c))
    (hserial : c = .loadHead → ∀ p ∈ s.adds, ¬ p.2.Active)
    (hstep : s.taskQ.push task c = some (q, c')) :
    ∃ xs', Inv { s with taskQ := q, adds := s.adds.set i (task, c') } xs' ys := by
  obtain ⟨xs', hsound, hxs⟩ := hinv.taskQ.push hi hserial hstep
  have hpassed : (s.adds.set i (task, c')).map Prod.fst = s.adds.map Prod.fst := by
    rw [List.map_set]
    exact set_eq_self (by rw [List.getElem?_map, hi]; rfl)
  refine ⟨xs', hsound, hinv.outQ, hpassed ▸ hinv.nodup, fun t => ?_⟩
  -- the task leaves the call when it enters the queue
  have hadds := count_map_set pending hi (task, c') (some t)
  have hqueue := count_push hxs t
  have := hinv.balanced t
  rw [pending_of_push hstep] at hadds
  simp only [account, hpassed] at this ⊢
  omega

theorem inv_work (hinv : Inv s xs ys) (hstep : s.work = some s') :
    ∃ xs' ys', Inv s' xs' ys' := by
  unfold work at hstep
  have htask := hinv.taskQ
  have hout := hinv.outQ
  have hbal := hinv.balanced
  unfold account at hbal
  split at hstep
  next r hw =>
    obtain ⟨⟨q, r'⟩, hread, rfl⟩ := Option.map_eq_some_iff.mp hstep
    rw [hw] at htask hout hbal
    obtain ⟨xs', hsound, rfl⟩ := htask.readOnce (i := 0) rfl
      (fun hr s hs => by rw [List.mem_singleton.mp hs, hr]; exact id) hread
    refine ⟨xs', ys, sound_afterRead hsound, ?_, hinv.nodup, fun t => ?_⟩
    · rw [Execute.pushes_afterRead]
      exact hout
    -- the task leaves `task_q_` when the worker holds it
    have hqueue := count_readOnce r'.taken xs' t
    have := hbal t
    simp only [account, Execute.held_afterRead]
    simp only [Execute.held, count_none] at this
    omega
  next task hw =>
    cases hstep
    rw [hw] at htask hout hbal
    refine ⟨xs, ys, htask, hout.pushes_of_not_active fun p hp => ?_, hinv.nodup, hbal⟩
    exact List.mem_singleton.mp hp ▸ id
  next task c hw =>
    obtain ⟨⟨q, c'⟩, hpush, rfl⟩ := Option.map_eq_some_iff.mp hstep
    rw [hw] at htask hout hbal
    obtain ⟨ys', hsound, hys⟩ := hout.push (i := 0) rfl
      (fun hc p hp => by rw [List.mem_singleton.mp hp, hc]; exact id) hpush
    refine ⟨xs, ys', htask.reads_of_not_active fun _ => Execute.reads_afterWrite,
      sound_afterWrite hsound, hinv.nodup, fun t => ?_⟩
    -- the worker lets go of the task when it enters `out_q_`
    have hqueue := count_push hys t
    have := hbal t
    simp only [account, Execute.held_afterWrite]
    simp only [Execute.held] at this
    omega

theorem inv_get (hinv : Inv s xs ys) : Inv { s with gets := s.gets ++ [.front] } xs ys where
  taskQ := hinv.taskQ
  outQ := hinv.outQ.call_readOnce
  nodup := hinv.nodup
  balanced := fun t => by
    have := hinv.balanced t
    simp only [account, List.map_append, List.count_append] at this ⊢
    simpa [ReadOnce.taken] using this

theorem inv_readOnce (hinv : Inv s xs ys) {j : Nat} {r r' : ReadOnce (spscCap 64) τ}
    {q : TaskQ τ} (hj : s.gets[j]? = some r)
    (hserial : r = .deref → ∀ g ∈ s.gets, ¬ g.Active)
    (hstep : s.outQ.readOnce r = some (q, r')) :
    ∃ ys', Inv { s with outQ := q, gets := s.gets.set j r' } xs ys' := by
  obtain ⟨ys', hsound, rfl⟩ := hinv.outQ.readOnce hj hserial hstep
  refine ⟨ys', hinv.taskQ, hsound, hinv.nodup, fun t => ?_⟩
  -- the task leaves `out_q_` when the call returns it
  have hgets := count_map_set ReadOnce.taken hj r' (some t)
  have hqueue := count_readOnce r'.taken ys' t
  have := hinv.balanced t
  rw [taken_eq_none_of_readOnce hstep, count_none] at hgets
  simp only [account] at this ⊢
  omega

/-- Every serial step keeps the invariant. -/
theorem inv_step (hinv : Inv s xs ys) (hserial : s.Serial e)
    (hstep : (machine τ).step s e = some (s', o)) : ∃ xs' ys', Inv s' xs' ys' := by
  cases step_cases hstep with
  | add hnew => exact ⟨xs, ys, inv_add hinv hnew⟩
  | push hi hpush =>
    obtain ⟨xs', hinv'⟩ :=
      inv_push hinv hi (fun hc => hserial (by rw [hi]; exact congrArg some hc)) hpush
    exact ⟨xs', ys, hinv'⟩
  | work hwork => exact inv_work hinv hwork
  | get => exact ⟨xs, ys, inv_get hinv⟩
  | readOnce hj hread =>
    obtain ⟨ys', hinv'⟩ := inv_readOnce hinv hj (fun hr => hserial (by rw [hj, hr])) hread
    exact ⟨xs, ys', hinv'⟩

theorem inv_of_serial (hr : (machine τ).Reach h s)
    (hserial : (machine τ).Always (fun _ s e _ _ => s.Serial e) h) :
    ∃ xs ys, Inv s xs ys := by
  refine hr.invariant
    (I := fun h s => (machine τ).Always (fun _ s e _ _ => s.Serial e) h → ∃ xs ys, Inv s xs ys)
    (fun _ => ⟨[], [], inv_start⟩) (fun h s e s' o hr ih hstep hall => ?_) hserial
  obtain ⟨hbefore, hlast⟩ := (Machine.always_snoc hr hstep).mp hall
  obtain ⟨xs, ys, hinv⟩ := ih hbefore
  exact inv_step hinv hlast hstep

/-! ### One place for every task -/

/-- The calls of `add` are those of the history. -/
theorem passed_eq (hr : (machine τ).Reach h s) : passed h = s.adds.map Prod.fst := by
  refine hr.invariant (I := fun h s => passed h = s.adds.map Prod.fst) rfl
    fun h s e s' o _ ih hstep => ?_
  have hpassed : passed (h ++ [(e, o)]) = s.adds.map Prod.fst ++ passed [(e, o)] := by
    rw [← ih]
    exact List.filterMap_append
  rw [hpassed]
  cases step_cases hstep with
  | add =>
    rw [List.map_append]
    rfl
  | push hi =>
    rw [List.map_set, set_eq_self (by rw [List.getElem?_map, hi]; rfl)]
    exact List.append_nil _
  | work hwork =>
    rw [adds_of_work hwork]
    exact List.append_nil _
  | get => exact List.append_nil _
  | readOnce => exact List.append_nil _

/-- The account counts the places. -/
theorem count_places (hinv : Inv s xs ys) (t : τ) :
    (s.places.map Prod.snd).count t = account s xs ys t := by
  have hcount : ∀ l : List (Option τ), l.reduceOption.count t = l.count (some t) := by
    intro l
    induction l with
    | nil => rfl
    | cons o l ih => cases o <;> simp [ih, List.count_cons]
  have hitems : ∀ l : List τ, (l.map some).count (some t) = l.count t :=
    fun l => List.count_map_of_injective l some (Option.some_injective τ) t
  simp only [places, List.map_append, tag_map_snd, List.count_append, hcount,
    hinv.taskQ.items_eq, hinv.outQ.items_eq, hitems, account]

end Inv

/-- **Nothing is lost or duplicated when the handlers enter the channels one at a
time.** In every state of such a run every task that was passed to `add` is in
exactly one place: it is still pushed by its call of `add`, in `task_q_`, held by the
worker, in `out_q_`, or returned by one call of `get`. -/
theorem one_place_of_serial [DecidableEq τ] {h : List (Event τ × Unit)} {s : Handover τ}
    (hr : (machine τ).Reach h s) (hserial : (machine τ).Always (fun _ s e _ _ => s.Serial e) h)
    {task : τ} (htask : task ∈ passed h) :
    ∃! p : Place, (p, task) ∈ s.places := by
  obtain ⟨xs, ys, hinv⟩ := inv_of_serial hr hserial
  rw [passed_eq hr] at htask
  have hcount : ∀ t, (s.places.map Prod.snd).count t = (s.adds.map Prod.fst).count t :=
    fun t => (count_places hinv t).trans (hinv.balanced t)
  have hmem : task ∈ s.places.map Prod.snd := by
    rw [← List.count_pos_iff, hcount]
    exact List.count_pos_iff.mpr htask
  have hnodup : (s.places.map Prod.snd).Nodup :=
    List.nodup_iff_count_le_one.mpr fun t =>
      (hcount t).trans_le (List.nodup_iff_count_le_one.mp hinv.nodup t)
  obtain ⟨⟨p, t⟩, hp, rfl⟩ := List.mem_map.mp hmem
  refine ⟨p, hp, fun p' hp' => ?_⟩
  exact congrArg Prod.fst (List.inj_on_of_nodup_map hnodup hp' hp rfl)

/-- Two tasks are added, the worker takes the first, gives it to `out_q_`, and a
handler gets it, while the other task waits. -/
def serialEvents : List (Event Nat) :=
  [.add 1, .add 2] ++ List.replicate 4 (.push 0) ++ List.replicate 4 (.push 1) ++
    List.replicate 12 .work ++ [.get] ++ List.replicate 7 (.readOnce 0)

theorem one_place_of_serial_sample :
    ∃ h s, (machine Nat).Reach h s ∧
      s.places = [(.taskQ 0, 2), (.returned 0, 1)] ∧ ∃! p : Place, (p, 1) ∈ s.places := by
  have hrun : (((machine Nat).restrict Serial).run? serialEvents).any (fun r =>
      decide (1 ∈ passed r.1 ∧ r.2.places = [(.taskQ 0, 2), (.returned 0, 1)])) = true := by
    decide +kernel
  obtain ⟨h, s, hr, hcheck⟩ := Machine.exists_reach_of_run? hrun
  obtain ⟨hpassed, hplaces⟩ := of_decide_eq_true hcheck
  obtain ⟨hreach, hserial⟩ := hr.of_restrict
  exact ⟨h, s, hreach, hplaces, one_place_of_serial hreach hserial hpassed⟩

/-- Two calls of `add` load `head_` before either of them stores it. -/
def overlappingEvents : List (Event Nat) :=
  [.add 1, .add 2, .push 0, .push 1] ++ List.replicate 3 (.push 0) ++ List.replicate 3 (.push 1)

/-- With two handlers in `add` a task is lost: both write the same slot. -/
theorem not_one_place_two_adds :
    ¬ ∀ (h : List (Event Nat × Unit)) (s : Handover Nat) (task : Nat),
      (machine Nat).Reach h s → task ∈ passed h → ∃! p : Place, (p, task) ∈ s.places := by
  intro hunique
  have hrun : ((machine Nat).run? overlappingEvents).any (fun r =>
      decide (1 ∈ passed r.1 ∧ r.2.places = [(.taskQ 0, 2)])) = true := by
    decide +kernel
  obtain ⟨h, s, hr, hcheck⟩ := Machine.exists_reach_of_run? hrun
  obtain ⟨hpassed, hplaces⟩ := of_decide_eq_true hcheck
  obtain ⟨p, hp, -⟩ := hunique h s 1 hr hpassed
  rw [hplaces] at hp
  simp at hp

end Handover

end Wfrest
