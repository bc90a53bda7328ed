import Wfrest.Compare.Executor
import Wfrest.Lib.Mutex

/-!
# The lock of the internal executor

`Executor` lets a handler or the worker of `dc_internal_executor_t` do what it does to
`task_list_` in one step. Here are the steps that the code takes: `add` and `get` take
`mutex_`, walk the list and give it back, the worker walks the list twice, waits on `cond_`,
and writes the answer of its task without the lock, while any number of calls stand anywhere
between their entry and their return.

`step_cases` says what one step of one of the threads can do. What follows from it is in
`Wfrest.Compare.Linearizable` and `Wfrest.Compare.AtRest`.

* A notification wakes the worker when it waits, and is lost when it does not. The worker may
  also wake up without one.
* A failed assertion ends the process: no step follows. So does an exception that leaves the
  worker.
* `exit_` has no initializer, so its first value is a parameter.
-/

namespace Wfrest

/-! ### The calls -/

/-- A call of a handler. -/
inductive ExecRequest where
  | add (uuid : Bytes) (json : Json)
  | get (uuid : Bytes)

/-- What the call asks of the executor. -/
def ExecRequest.event : ExecRequest → ExecEvent
  | add uuid json => .add uuid json
  | get uuid => .get uuid

/-- Where a call stands. -/
inductive CallPc where
  /-- Before the `lock_guard`. -/
  | enter
  /-- `add`, before `push_back`. -/
  | push
  /-- `add`, before `notify_one`. -/
  | notify (o : ExecOutput)
  /-- `get`, with the iterator at the element `k`. -/
  | scan (k : Nat)
  /-- Before the `lock_guard` ends. -/
  | leave (o : ExecOutput)
  | returned (o : ExecOutput)

/-- Does the call hold `mutex_` there? -/
def CallPc.inside : CallPc → Bool
  | enter => false
  | returned _ => false
  | _ => true

/-- What the call is going to return. -/
def CallPc.out? : CallPc → Option ExecOutput
  | notify o => some o
  | leave o => some o
  | returned o => some o
  | _ => none

/-- What follows the `lock_guard`. -/
def ExecRequest.first : ExecRequest → CallPc
  | add _ _ => .push
  | get _ => .scan 0

structure ExecCall where
  request : ExecRequest
  pc : CallPc

/-! ### The worker -/

/-- Where the worker stands. -/
inductive ExecThread where
  /-- `while (!exit_)` of `thd_worker_execute`. -/
  | loop
  /-- Before the `unique_lock` of `thd_worker_pick_task_to_run`. -/
  | enter
  /-- `!exit_` of the loop around `wait`. -/
  | testExit
  /-- `thd_worker_has_task_to_run`, at the element `k`. -/
  | testTask (k : Nat)
  /-- In `cond_.wait`. -/
  | asleep
  /-- `wait` has to lock `mutex_` again. -/
  | woken
  /-- The loop that picks, at the element `k`. -/
  | choose (k : Nat)
  /-- Before the `unique_lock` ends. -/
  | leavePick (id : Nat)
  /-- `thd_worker_pick_task_to_run` has returned a reference to the task `id`. -/
  | picked (id : Nat)
  /-- It has `rest` left to write to the answer of the task `id`. -/
  | filling (id : Nat) (rest : List OutWrite)
  /-- `thd_worker_set_task_over`, with the lock. -/
  | setOver (id : Nat)
  /-- Before the `lock_guard` ends. -/
  | leaveOver
  /-- The thread has returned. -/
  | done
  /-- The process is gone; `held` is the task that the worker had a reference to. -/
  | failed (held : Option Nat)

namespace ExecThread

/-- Does the worker hold `mutex_` there? -/
def inside : ExecThread → Bool
  | testExit => true
  | testTask _ => true
  | choose _ => true
  | leavePick _ => true
  | setOver _ => true
  | leaveOver => true
  | failed none => true
  | _ => false

/-- What is left of this in `Executor`. -/
def worker : ExecThread → ExecWorker
  | leavePick id => .picked id
  | picked id => .picked id
  | filling id rest => .filling id rest
  | setOver id => .filling id []
  | failed (some id) => .picked id
  | _ => .idle

/-- Has the process ended? -/
def aborted : ExecThread → Bool
  | failed _ => true
  | _ => false

/-- What `notify_one` does to it. -/
def notified : ExecThread → ExecThread
  | asleep => woken
  | t => t

end ExecThread

/-! ### The steps -/

/-- A thread of the process. -/
inductive Party where
  | worker
  | call (i : Nat)
  deriving DecidableEq

/-- `dc_internal_executor_t`, with its worker and every call that was ever made. -/
structure LockedExecutor where
  taskList : List Entry
  /-- The number of tasks that were added. -/
  added : Nat
  exit : Bool
  mutex : Mutex Party
  calls : List ExecCall
  thread : ExecThread

namespace LockedExecutor

inductive Event where
  /-- A handler calls. -/
  | call (request : ExecRequest)
  /-- The next step of a call. -/
  | handler (i : Nat)
  /-- The next step of the worker. -/
  | worker
  /-- The worker asserts, changes the directory and reads it; `os` is what it finds. -/
  | begin (os : Os)
  /-- `wait` returns without a notification. -/
  | spurious
  /-- The destructor sets `exit_`. What is left of it is to join the worker. -/
  | destroy

inductive Output where
  | quiet
  /-- A thread does to the list what `Executor` does in a step. -/
  | acts (p : Party) (e : ExecEvent) (o : ExecOutput)

/-- The call `i` goes on. -/
def goCall (s : LockedExecutor) (i : Nat) (request : ExecRequest) (pc : CallPc) :
    LockedExecutor := { s with calls := s.calls.set i ⟨request, pc⟩ }

/-- The worker goes on. -/
def go (s : LockedExecutor) (thread : ExecThread) : LockedExecutor := { s with thread }

def withMutex (s : LockedExecutor) (mutex : Mutex Party) : LockedExecutor := { s with mutex }

def withList (s : LockedExecutor) (taskList : List Entry) : LockedExecutor :=
  { s with taskList }

/-- The task of an `add`, behind the others. -/
def pushBack (s : LockedExecutor) (uuid : Bytes) (json : Json) : LockedExecutor :=
  { s with
    taskList := s.taskList ++ [⟨s.added, { iUuid := uuid, iJson := json }⟩]
    added := s.added + 1 }

/-- `get`, at the element `k`. -/
def scanStep (s : LockedExecutor) (i : Nat) (uuid : Bytes) (k : Nat) :
    LockedExecutor × Output :=
  match s.taskList[k]? with
  | none =>
    let o := .got .E_NOT_FOUND .null none
    (s.goCall i (.get uuid) (.leave o), .acts (.call i) (.get uuid) o)
  | some e =>
    if e.task.iUuid = uuid then
      if e.task.iTaskStatus = .T_TASK_OVER then
        let o := .got .S_SUCCESS e.task.iOutJson (some e.id)
        ((s.withList (s.taskList.eraseIdx k)).goCall i (.get uuid) (.leave o),
          .acts (.call i) (.get uuid) o)
      else
        let o := .got .E_DC_CONTENT_RETRY .null none
        (s.goCall i (.get uuid) (.leave o), .acts (.call i) (.get uuid) o)
    else (s.goCall i (.get uuid) (.scan (k + 1)), .quiet)

/-- `dc_internal_executor_t::add` and `dc_internal_executor_t::get` -/
def callStep (s : LockedExecutor) (i : Nat) (c : ExecCall) : Option (LockedExecutor × Output) :=
  match c.pc, c.request with
  | .enter, request =>
    (s.mutex.lock? (.call i)).map fun m =>
      ((s.withMutex m).goCall i request request.first, .quiet)
  | .push, .add uuid json =>
    some ((s.pushBack uuid json).goCall i (.add uuid json) (.notify (.added s.added)),
      .acts (.call i) (.add uuid json) (.added s.added))
  | .notify o, request => some ((s.go s.thread.notified).goCall i request (.leave o), .quiet)
  | .scan k, .get uuid => some (s.scanStep i uuid k)
  | .leave o, request => some ((s.withMutex .free).goCall i request (.returned o), .quiet)
  | _, _ => none

/-- `thd_worker_execute`, with `thd_worker_pick_task_to_run` and what follows the reading of
the directories in `thd_worker_task_dir_attr_list`. -/
def workerStep (s : LockedExecutor) : Option (LockedExecutor × Output) :=
  match s.thread with
  | .loop => some (s.go (if s.exit then .done else .enter), .quiet)
  | .enter => (s.mutex.lock? .worker).map fun m => ((s.withMutex m).go .testExit, .quiet)
  | .testExit => some (s.go (if s.exit then .choose 0 else .testTask 0), .quiet)
  | .testTask k =>
    match s.taskList[k]? with
    | none => some ((s.withMutex .free).go .asleep, .quiet)
    | some e =>
      some (s.go (if e.task.iTaskStatus = .T_TASK_INIT then .choose 0 else .testTask (k + 1)),
        .quiet)
  | .woken => (s.mutex.lock? .worker).map fun m => ((s.withMutex m).go .testExit, .quiet)
  | .choose k =>
    match s.taskList[k]? with
    | none => some (s.go (.failed none), .quiet)
    | some e =>
      if e.task.iTaskStatus = .T_TASK_INIT then
        some ((s.withList (Executor.update e.id InternalTask.picked s.taskList)).go
          (.leavePick e.id), .acts .worker .pick (.picked e.id))
      else some (s.go (.choose (k + 1)), .quiet)
  | .leavePick id => some ((s.withMutex .free).go (.picked id), .quiet)
  | .filling id (w :: rest) =>
    some ((s.withList (Executor.update id
          (fun task => { task with iOutJson := w.apply task.iOutJson }) s.taskList)).go
        (.filling id rest), .acts .worker .write .written)
  | .filling id [] =>
    (s.mutex.lock? .worker).map fun m => ((s.withMutex m).go (.setOver id), .quiet)
  | .setOver id =>
    some ((s.withList (Executor.update id
          (fun task => { task with iTaskStatus := .T_TASK_OVER }) s.taskList)).go .leaveOver,
      .acts .worker .setOver (.setOver id))
  | .leaveOver => some ((s.withMutex .free).go .loop, .quiet)
  | .asleep => none
  | .picked _ => none
  | .done => none
  | .failed _ => none

/-- The first part of `thd_worker_task_dir_attr_list`. -/
def beginStep (s : LockedExecutor) (os : Os) : Option (LockedExecutor × Output) :=
  match s.thread with
  | .picked id =>
    (s.taskList.find? fun e => e.id = id).map fun e =>
      match e.task.outWrites os with
      | .error _ => (s.go (.failed (some id)), .quiet)
      | .ok writes => (s.go (.filling id writes), .acts .worker (.begin os) (.begun id))
  | _ => none

/-- `wait` may return at any time. -/
def spuriousStep (s : LockedExecutor) : Option (LockedExecutor × Output) :=
  match s.thread with
  | .asleep => some (s.go .woken, .quiet)
  | _ => none

/-- One step of one of the threads. -/
def step (s : LockedExecutor) (e : Event) : Option (LockedExecutor × Output) :=
  if s.thread.aborted then none
  else
    match e with
    | .call request => some ({ s with calls := s.calls ++ [⟨request, .enter⟩] }, .quiet)
    | .handler i => s.calls[i]?.bind (s.callStep i)
    | .worker => s.workerStep
    | .begin os => s.beginStep os
    | .spurious => s.spuriousStep
    | .destroy => some ({ s with exit := true }, .quiet)

/-- The executor as it is created. -/
def start (exit : Bool) : LockedExecutor := ⟨[], 0, exit, .free, [], .loop⟩

/-- The handlers and the worker, step by step. -/
def machine (exit : Bool) : Machine LockedExecutor Event Output := ⟨start exit, step⟩

/-- The executor without its lock. -/
def executor (s : LockedExecutor) : Executor := ⟨s.taskList, s.thread.worker, s.added⟩

/-- The threads that hold `mutex_`. -/
def inside (s : LockedExecutor) : Party → Prop
  | .worker => s.thread.inside = true
  | .call i => ∃ c, s.calls[i]? = some c ∧ c.pc.inside = true

/-! ### One step -/

variable {exit : Bool} {h : List (Event × Output)} {s s' : LockedExecutor} {e : Event}
  {o : Output} {i : Nat} {t : ExecThread}

/-- What a `get` can find at the element `k`, when it is not another uuid: the list after it
and what it returns. -/
inductive Answer (l : List Entry) (uuid : Bytes) (k : Nat) : List Entry → ExecOutput → Prop
  | notFound (hend : l[k]? = none) : Answer l uuid k l (.got .E_NOT_FOUND .null none)
  | retry {e : Entry} (he : l[k]? = some e) (huuid : e.task.iUuid = uuid)
      (hstatus : e.task.iTaskStatus ≠ .T_TASK_OVER) :
      Answer l uuid k l (.got .E_DC_CONTENT_RETRY .null none)
  | erased {e : Entry} (he : l[k]? = some e) (huuid : e.task.iUuid = uuid)
      (hstatus : e.task.iTaskStatus = .T_TASK_OVER) :
      Answer l uuid k (l.eraseIdx k) (.got .S_SUCCESS e.task.iOutJson (some e.id))

/-- The steps of the worker that leave the lock and the list alone. -/
inductive Move (exit : Bool) (l : List Entry) : ExecThread → Event → ExecThread → Prop
  | returns (hexit : exit = true) : Move exit l .loop .worker .done
  | again (hexit : exit = false) : Move exit l .loop .worker .enter
  | exits (hexit : exit = true) : Move exit l .testExit .worker (.choose 0)
  | tests (hexit : exit = false) : Move exit l .testExit .worker (.testTask 0)
  | found {k : Nat} {e : Entry} (he : l[k]? = some e)
      (hstatus : e.task.iTaskStatus = .T_TASK_INIT) :
      Move exit l (.testTask k) .worker (.choose 0)
  | passedTest {k : Nat} {e : Entry} (he : l[k]? = some e)
      (hstatus : e.task.iTaskStatus ≠ .T_TASK_INIT) :
      Move exit l (.testTask k) .worker (.testTask (k + 1))
  | passedChoice {k : Nat} {e : Entry} (he : l[k]? = some e)
      (hstatus : e.task.iTaskStatus ≠ .T_TASK_INIT) :
      Move exit l (.choose k) .worker (.choose (k + 1))
  | asserts {k : Nat} (hend : l[k]? = none) : Move exit l (.choose k) .worker (.failed none)
  | begins {os : Os} {id : Nat} {e : Entry} {f : Fault}
      (he : (l.find? fun e => e.id = id) = some e) (hfault : e.task.outWrites os = .error f) :
      Move exit l (.picked id) (.begin os) (.failed (some id))
  | spurious : Move exit l .asleep .spurious .woken

/-- The steps of the worker that take the lock. -/
inductive Locks : ExecThread → ExecThread → Prop
  | enter : Locks .enter .testExit
  | woken : Locks .woken .testExit
  | setOver {id : Nat} : Locks (.filling id []) (.setOver id)

/-- The steps of the worker that give it back. -/
inductive Unlocks (l : List Entry) : ExecThread → ExecThread → Prop
  | waits {k : Nat} (hend : l[k]? = none) : Unlocks l (.testTask k) .asleep
  | picked {id : Nat} : Unlocks l (.leavePick id) (.picked id)
  | setOver : Unlocks l .leaveOver .loop

/-- What a step can do. -/
inductive StepCase (s : LockedExecutor) : Event → Output → LockedExecutor → Prop
  | called {request : ExecRequest} :
      StepCase s (.call request) .quiet { s with calls := s.calls ++ [⟨request, .enter⟩] }
  | locked {i : Nat} {request : ExecRequest} (hi : s.calls[i]? = some ⟨request, .enter⟩)
      (hfree : s.mutex.holder = none) :
      StepCase s (.handler i) .quiet
        ((s.withMutex ⟨some (.call i)⟩).goCall i request request.first)
  | pushed {i : Nat} {uuid : Bytes} {json : Json}
      (hi : s.calls[i]? = some ⟨.add uuid json, .push⟩) :
      StepCase s (.handler i) (.acts (.call i) (.add uuid json) (.added s.added))
        ((s.pushBack uuid json).goCall i (.add uuid json) (.notify (.added s.added)))
  | notified {i : Nat} {request : ExecRequest} {o : ExecOutput}
      (hi : s.calls[i]? = some ⟨request, .notify o⟩) :
      StepCase s (.handler i) .quiet ((s.go s.thread.notified).goCall i request (.leave o))
  | passed {i : Nat} {uuid : Bytes} {k : Nat} {e : Entry}
      (hi : s.calls[i]? = some ⟨.get uuid, .scan k⟩) (he : s.taskList[k]? = some e)
      (hne : e.task.iUuid ≠ uuid) :
      StepCase s (.handler i) .quiet (s.goCall i (.get uuid) (.scan (k + 1)))
  | answered {i : Nat} {uuid : Bytes} {k : Nat} {l : List Entry} {o : ExecOutput}
      (hi : s.calls[i]? = some ⟨.get uuid, .scan k⟩) (hanswer : Answer s.taskList uuid k l o) :
      StepCase s (.handler i) (.acts (.call i) (.get uuid) o)
        ((s.withList l).goCall i (.get uuid) (.leave o))
  | left {i : Nat} {request : ExecRequest} {o : ExecOutput}
      (hi : s.calls[i]? = some ⟨request, .leave o⟩) :
      StepCase s (.handler i) .quiet ((s.withMutex .free).goCall i request (.returned o))
  | moved {e : Event} {t : ExecThread} (hmove : Move s.exit s.taskList s.thread e t) :
      StepCase s e .quiet (s.go t)
  | workerLocked {t : ExecThread} (hlocks : Locks s.thread t) (hfree : s.mutex.holder = none) :
      StepCase s .worker .quiet ((s.withMutex ⟨some .worker⟩).go t)
  | workerUnlocked {t : ExecThread} (hunlocks : Unlocks s.taskList s.thread t) :
      StepCase s .worker .quiet ((s.withMutex .free).go t)
  | chosen {k : Nat} {e : Entry} (ht : s.thread = .choose k) (he : s.taskList[k]? = some e)
      (hstatus : e.task.iTaskStatus = .T_TASK_INIT) :
      StepCase s .worker (.acts .worker .pick (.picked e.id))
        ((s.withList (Executor.update e.id InternalTask.picked s.taskList)).go (.leavePick e.id))
  | begun {os : Os} {id : Nat} {e : Entry} {writes : List OutWrite} (ht : s.thread = .picked id)
      (he : (s.taskList.find? fun e => e.id = id) = some e)
      (hwrites : e.task.outWrites os = .ok writes) :
      StepCase s (.begin os) (.acts .worker (.begin os) (.begun id)) (s.go (.filling id writes))
  | written {id : Nat} {w : OutWrite} {rest : List OutWrite}
      (ht : s.thread = .filling id (w :: rest)) :
      StepCase s .worker (.acts .worker .write .written)
        ((s.withList (Executor.update id
          (fun task => { task with iOutJson := w.apply task.iOutJson }) s.taskList)).go
          (.filling id rest))
  | setOver {id : Nat} (ht : s.thread = .setOver id) :
      StepCase s .worker (.acts .worker .setOver (.setOver id))
        ((s.withList (Executor.update id
          (fun task => { task with iTaskStatus := .T_TASK_OVER }) s.taskList)).go .leaveOver)
  | destroyed : StepCase s .destroy .quiet { s with exit := true }

/-- A step of a call. -/
theorem callStep_cases {c : ExecCall} (hi : s.calls[i]? = some c)
    (hstep : s.callStep i c = some (s', o)) : StepCase s (.handler i) o s' := by
  obtain ⟨request, pc⟩ := c
  unfold callStep at hstep
  split at hstep
  next hpc =>
    obtain ⟨m, hlock, heq⟩ := Option.map_eq_some_iff.mp hstep
    obtain ⟨rfl, rfl⟩ := Prod.mk.inj heq
    obtain ⟨hfree, rfl⟩ := Mutex.lock?_eq_some hlock
    obtain rfl : pc = .enter := hpc
    exact .locked hi hfree
  next uuid json hpc hrequest =>
    obtain ⟨rfl, rfl⟩ := Prod.mk.inj (Option.some.inj hstep)
    obtain rfl : pc = .push := hpc
    obtain rfl : request = .add uuid json := hrequest
    exact .pushed hi
  next o' hpc =>
    obtain ⟨rfl, rfl⟩ := Prod.mk.inj (Option.some.inj hstep)
    obtain rfl : pc = .notify o' := hpc
    exact .notified hi
  next k uuid hpc hrequest =>
    obtain rfl : pc = .scan k := hpc
    obtain rfl : request = .get uuid := hrequest
    have heq := Option.some.inj hstep
    unfold scanStep at heq
    split at heq
    next hend =>
      obtain ⟨rfl, rfl⟩ := Prod.mk.inj heq
      exact .answered hi (.notFound hend)
    next e he =>
      split_ifs at heq with huuid hstatus
      · obtain ⟨rfl, rfl⟩ := Prod.mk.inj heq
        exact .answered hi (.erased he huuid hstatus)
      · obtain ⟨rfl, rfl⟩ := Prod.mk.inj heq
        exact .answered hi (.retry he huuid hstatus)
      · obtain ⟨rfl, rfl⟩ := Prod.mk.inj heq
        exact .passed hi he huuid
  next o' hpc =>
    obtain ⟨rfl, rfl⟩ := Prod.mk.inj (Option.some.inj hstep)
    obtain rfl : pc = .leave o' := hpc
    exact .left hi
  · cases hstep

/-- A step of the worker. -/
theorem workerStep_cases (hstep : s.workerStep = some (s', o)) : StepCase s .worker o s' := by
  unfold workerStep at hstep
  -- the worker takes the lock
  have hlock : ∀ {t : ExecThread}, Locks s.thread t →
      ((s.mutex.lock? .worker).map fun m => ((s.withMutex m).go t, Output.quiet)) =
        some (s', o) → StepCase s .worker o s' := by
    intro t hlocks hmap
    obtain ⟨m, hlock, heq⟩ := Option.map_eq_some_iff.mp hmap
    obtain ⟨rfl, rfl⟩ := Prod.mk.inj heq
    obtain ⟨hfree, rfl⟩ := Mutex.lock?_eq_some hlock
    exact .workerLocked hlocks hfree
  split at hstep
  next ht =>
    obtain ⟨rfl, rfl⟩ := Prod.mk.inj (Option.some.inj hstep)
    split_ifs with hexit
    · exact .moved (ht ▸ .returns hexit)
    · exact .moved (ht ▸ .again (Bool.eq_false_of_not_eq_true hexit))
  next ht => exact hlock (ht ▸ .enter) hstep
  next ht =>
    obtain ⟨rfl, rfl⟩ := Prod.mk.inj (Option.some.inj hstep)
    split_ifs with hexit
    · exact .moved (ht ▸ .exits hexit)
    · exact .moved (ht ▸ .tests (Bool.eq_false_of_not_eq_true hexit))
  next k ht =>
    split at hstep
    next hend =>
      obtain ⟨rfl, rfl⟩ := Prod.mk.inj (Option.some.inj hstep)
      exact .workerUnlocked (ht ▸ .waits hend)
    next e he =>
      obtain ⟨rfl, rfl⟩ := Prod.mk.inj (Option.some.inj hstep)
      split_ifs with hstatus
      · exact .moved (ht ▸ .found he hstatus)
      · exact .moved (ht ▸ .passedTest he hstatus)
  next ht => exact hlock (ht ▸ .woken) hstep
  next k ht =>
    split at hstep
    next hend =>
      obtain ⟨rfl, rfl⟩ := Prod.mk.inj (Option.some.inj hstep)
      exact .moved (ht ▸ .asserts hend)
    next e he =>
      split_ifs at hstep with hstatus
      · obtain ⟨rfl, rfl⟩ := Prod.mk.inj (Option.some.inj hstep)
        exact .chosen ht he hstatus
      · obtain ⟨rfl, rfl⟩ := Prod.mk.inj (Option.some.inj hstep)
        exact .moved (ht ▸ .passedChoice he hstatus)
  next id ht =>
    obtain ⟨rfl, rfl⟩ := Prod.mk.inj (Option.some.inj hstep)
    exact .workerUnlocked (ht ▸ .picked)
  next id w rest ht =>
    obtain ⟨rfl, rfl⟩ := Prod.mk.inj (Option.some.inj hstep)
    exact .written ht
  next id ht => exact hlock (ht ▸ .setOver) hstep
  next id ht =>
    obtain ⟨rfl, rfl⟩ := Prod.mk.inj (Option.some.inj hstep)
    exact .setOver ht
  next ht =>
    obtain ⟨rfl, rfl⟩ := Prod.mk.inj (Option.some.inj hstep)
    exact .workerUnlocked (ht ▸ .setOver)
  all_goals cases hstep

/-- **Inversion.** A step does one of the things above, in a process that has not ended. -/
theorem step_cases (hstep : s.step e = some (s', o)) :
    s.thread.aborted = false ∧ StepCase s e o s' := by
  unfold step at hstep
  split_ifs at hstep with habort
  refine ⟨Bool.eq_false_of_not_eq_true habort, ?_⟩
  cases e with
  | call request =>
    obtain ⟨rfl, rfl⟩ := Prod.mk.inj (Option.some.inj hstep)
    exact .called
  | handler i =>
    obtain ⟨c, hi, hcall⟩ := Option.bind_eq_some_iff.mp hstep
    exact callStep_cases hi hcall
  | worker => exact workerStep_cases hstep
  | begin os =>
    dsimp only at hstep
    unfold beginStep at hstep
    split at hstep
    next id ht =>
      obtain ⟨e, he, heq⟩ := Option.map_eq_some_iff.mp hstep
      split at heq
      next f hfault =>
        obtain ⟨rfl, rfl⟩ := Prod.mk.inj heq
        exact .moved (ht ▸ .begins he hfault)
      next writes hwrites =>
        obtain ⟨rfl, rfl⟩ := Prod.mk.inj heq
        exact .begun ht he hwrites
    · cases hstep
  | spurious =>
    dsimp only at hstep
    unfold spuriousStep at hstep
    split at hstep
    next ht =>
      obtain ⟨rfl, rfl⟩ := Prod.mk.inj (Option.some.inj hstep)
      exact .moved (ht ▸ .spurious)
    · cases hstep
  | destroy =>
    obtain ⟨rfl, rfl⟩ := Prod.mk.inj (Option.some.inj hstep)
    exact .destroyed

end LockedExecutor

end Wfrest
