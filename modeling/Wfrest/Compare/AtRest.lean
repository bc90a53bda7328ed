import Wfrest.Compare.Linearizable

/-!
# The internal executor comes to rest

When no call is made any more, the calls that there are and the worker come to an end: they
take finitely many steps (`acc_internalStep`), and where none of them can take another one,
every call has returned and the worker has left no task behind (`comes_to_rest`). So no
notification is lost, and nobody waits for the lock for ever.

The destructor does not notify the worker. If it finds him waiting for a task, `join` never
returns (`join_never_returns`): the worker sleeps on, and if he wakes up after all, he fails
the assertion behind the loop that picks.
-/

namespace Wfrest

namespace LockedExecutor

variable {exit : Bool} {h h' : List (Event × Output)} {s s' : LockedExecutor} {e : Event}
  {o : Output} {i : Nat}

/-! ### The steps that are left -/

/-- A step of a call that was made or of the worker. -/
def Event.internal : Event → Prop
  | handler _ => True
  | worker => True
  | begin _ => True
  | _ => False

/-- A step of the threads among themselves. -/
def InternalStep (s' s : LockedExecutor) : Prop :=
  ∃ e o, e.internal ∧ s.step e = some (s', o)

/-- May the call have a task to add? -/
def unpushed : CallPc → Nat
  | .enter => 1
  | .push => 1
  | _ => 0

/-- Has the worker picked a task that it has not begun? -/
def unbegun : ExecThread → Nat
  | .leavePick _ => 1
  | .picked _ => 1
  | _ => 0

/-- How many tasks may be in the list, now or later. -/
def span (s : LockedExecutor) : Nat :=
  s.taskList.length + (s.calls.map fun c => unpushed c.pc).sum

/-- How many tasks may still have to be begun. -/
def toBegin (s : LockedExecutor) : Nat :=
  (s.calls.map fun c => unpushed c.pc).sum +
    s.taskList.countP (fun e => e.task.iTaskStatus = .T_TASK_INIT) + unbegun s.thread

/-- How far a call is from its return, when the list has at most `n` tasks. Its notification
may cost a walk of the worker. -/
def callCost (n : Nat) : CallPc → Nat
  | .enter => 2 * n + 10
  | .push => 2 * n + 9
  | .notify _ => 2 * n + 8
  | .scan k => (n - k) + 2
  | .leave _ => 1
  | .returned _ => 0

/-- How far the worker is from the next task, or from waiting. -/
def threadCost (n : Nat) : ExecThread → Nat
  | .filling _ rest => 2 * n + 10 + rest.length
  | .setOver _ => 2 * n + 9
  | .leaveOver => 2 * n + 8
  | .loop => 2 * n + 7
  | .enter => 2 * n + 6
  | .woken => 2 * n + 6
  | .testExit => 2 * n + 5
  | .testTask k => (n - k) + n + 4
  | .choose k => (n - k) + 3
  | .leavePick _ => 2
  | .picked _ => 1
  | .asleep => 0
  | .done => 0
  | .failed _ => 0

/-- The steps that are left until the next task is begun. -/
def work (s : LockedExecutor) : Nat :=
  (s.calls.map fun c => callCost s.span c.pc).sum + threadCost s.span s.thread

/-- Fewer tasks to begin, or as many and less to do before the next. -/
def Less (s' s : LockedExecutor) : Prop :=
  s'.toBegin < s.toBegin ∨ s'.toBegin ≤ s.toBegin ∧ s'.work < s.work

theorem callCost_mono {n n' : Nat} (hn : n' ≤ n) (pc : CallPc) : callCost n' pc ≤ callCost n pc := by
  cases pc <;> simp only [callCost] <;> omega

theorem threadCost_mono {n n' : Nat} (hn : n' ≤ n) (t : ExecThread) :
    threadCost n' t ≤ threadCost n t := by
  cases t <;> simp only [threadCost] <;> omega

theorem sum_callCost_mono {n n' : Nat} (hn : n' ≤ n) (calls : List ExecCall) :
    (calls.map fun c => callCost n' c.pc).sum ≤ (calls.map fun c => callCost n c.pc).sum := by
  induction calls with
  | nil => exact le_rfl
  | cons c calls ih =>
    rw [List.map_cons, List.map_cons, List.sum_cons, List.sum_cons]
    exact Nat.add_le_add (callCost_mono hn _) ih

/-- A step of the call `i`. -/
theorem less_of_call {c c' : ExecCall} (hi : s.calls[i]? = some c)
    (hcalls : s'.calls = s.calls.set i c')
    (hlength : s'.taskList.length + unpushed c'.pc ≤ s.taskList.length + unpushed c.pc)
    (hwaiting : s'.taskList.countP (fun e => e.task.iTaskStatus = .T_TASK_INIT) +
        unpushed c'.pc ≤
      s.taskList.countP (fun e => e.task.iTaskStatus = .T_TASK_INIT) + unpushed c.pc)
    (hthread : unbegun s'.thread = unbegun s.thread)
    (hcost : callCost s'.span c'.pc + threadCost s'.span s'.thread <
      callCost s'.span c.pc + threadCost s'.span s.thread) : Less s' s := by
  have hsum := sum_map_set (fun c : ExecCall => unpushed c.pc) hi c'
  rw [← hcalls] at hsum
  have hspan : s'.span ≤ s.span := by
    unfold span
    omega
  have hset := sum_map_set (fun c : ExecCall => callCost s'.span c.pc) hi c'
  rw [← hcalls] at hset
  have hmono := sum_callCost_mono hspan s.calls
  have hmonoThread := threadCost_mono hspan s.thread
  refine .inr ⟨?_, ?_⟩
  · unfold toBegin
    omega
  · unfold work
    omega

/-- A step of the worker that begins no task. -/
theorem less_of_worker (hcalls : s'.calls = s.calls)
    (hlength : s'.taskList.length = s.taskList.length)
    (hwaiting : s'.taskList.countP (fun e => e.task.iTaskStatus = .T_TASK_INIT) +
        unbegun s'.thread ≤
      s.taskList.countP (fun e => e.task.iTaskStatus = .T_TASK_INIT) + unbegun s.thread)
    (hcost : threadCost s.span s'.thread < threadCost s.span s.thread) : Less s' s := by
  have hspan : s'.span = s.span := by
    unfold span
    rw [hcalls, hlength]
  refine .inr ⟨?_, ?_⟩
  · unfold toBegin
    rw [hcalls]
    omega
  · unfold work
    rw [hcalls, hspan]
    omega

/-- A write keeps the length of the list. -/
theorem length_update (id : Nat) (f : InternalTask → InternalTask) (l : List Entry) :
    (Executor.update id f l).length = l.length := List.length_map _

/-- A write that leaves no task waiting that was not brings no waiting task. -/
theorem countP_update_le (id : Nat) (f : InternalTask → InternalTask)
    (hf : ∀ task, (f task).iTaskStatus = .T_TASK_INIT → task.iTaskStatus = .T_TASK_INIT)
    (l : List Entry) :
    (Executor.update id f l).countP (fun e => e.task.iTaskStatus = .T_TASK_INIT) ≤
      l.countP (fun e => e.task.iTaskStatus = .T_TASK_INIT) := by
  unfold Executor.update
  rw [List.countP_map]
  refine List.countP_mono_left fun e _ he => ?_
  rw [Function.comp_apply] at he
  by_cases hid : e.id = id
  · rw [if_pos hid] at he
    exact decide_eq_true (hf _ (of_decide_eq_true he))
  · rwa [if_neg hid] at he

/-- To pick a task leaves one less waiting. -/
theorem countP_picked_lt {l : List Entry} {k : Nat} {e : Entry} (he : l[k]? = some e)
    (hstatus : e.task.iTaskStatus = .T_TASK_INIT) :
    (Executor.update e.id InternalTask.picked l).countP
        (fun e => e.task.iTaskStatus = .T_TASK_INIT) <
      l.countP (fun e => e.task.iTaskStatus = .T_TASK_INIT) := by
  have hle := countP_update_le e.id InternalTask.picked (fun _ h => nomatch h)
  have hself : Executor.update e.id InternalTask.picked [e] = [⟨e.id, e.task.picked⟩] :=
    congrArg (fun x => [x]) (if_pos rfl)
  have hpicked : [(⟨e.id, e.task.picked⟩ : Entry)].countP
      (fun e => e.task.iTaskStatus = .T_TASK_INIT) = 0 := rfl
  have hinit : [e].countP (fun e => e.task.iTaskStatus = .T_TASK_INIT) = 1 :=
    List.countP_singleton.trans (if_pos (decide_eq_true hstatus))
  have hbefore := hle (l.take k)
  have hafter := hle (l.drop (k + 1))
  have happend : ∀ l₁ l₂, Executor.update e.id InternalTask.picked (l₁ ++ l₂) =
      Executor.update e.id InternalTask.picked l₁ ++ Executor.update e.id InternalTask.picked l₂ :=
    fun l₁ l₂ => List.map_append
  rw [eq_take_append he, ← List.singleton_append, happend, happend, hself]
  simp only [List.countP_append, hpicked, hinit]
  omega

/-- The worker writes to the task `id`. -/
theorem less_of_update (id : Nat) (f : InternalTask → InternalTask) {t : ExecThread}
    (hf : ∀ task, (f task).iTaskStatus = .T_TASK_INIT → task.iTaskStatus = .T_TASK_INIT)
    (hunbegun : unbegun t ≤ unbegun s.thread)
    (hcost : threadCost s.span t < threadCost s.span s.thread) :
    Less ((s.withList (Executor.update id f s.taskList)).go t) s :=
  less_of_worker rfl (length_update id f _) (Nat.add_le_add (countP_update_le id f hf _) hunbegun)
    hcost

/-- The worker moves on, or fails to begin its task. -/
theorem Move.less {l : List Entry} {n : Nat} {t t' : ExecThread} (hmove : Move exit l t e t')
    (hl : l.length ≤ n) (hinternal : e.internal) :
    unbegun t' < unbegun t ∨ unbegun t' = unbegun t ∧ threadCost n t' < threadCost n t := by
  cases hmove with
  | returns => exact .inr ⟨rfl, Nat.zero_lt_succ _⟩
  | again => exact .inr ⟨rfl, Nat.lt_succ_self _⟩
  | exits =>
    refine .inr ⟨rfl, ?_⟩
    show (n - 0) + 3 < 2 * n + 5
    omega
  | tests =>
    refine .inr ⟨rfl, ?_⟩
    show (n - 0) + n + 4 < 2 * n + 5
    omega
  | @found k =>
    refine .inr ⟨rfl, ?_⟩
    show (n - 0) + 3 < (n - k) + n + 4
    omega
  | @passedTest k _ he =>
    have hk := (List.getElem?_eq_some_iff.mp he).1
    refine .inr ⟨rfl, ?_⟩
    show (n - (k + 1)) + n + 4 < (n - k) + n + 4
    omega
  | @passedChoice k _ he =>
    have hk := (List.getElem?_eq_some_iff.mp he).1
    refine .inr ⟨rfl, ?_⟩
    show (n - (k + 1)) + 3 < (n - k) + 3
    omega
  | asserts => exact .inr ⟨rfl, Nat.zero_lt_succ _⟩
  | begins => exact .inl Nat.zero_lt_one
  | spurious => exact hinternal.elim

theorem Locks.less {t t' : ExecThread} (h : Locks t t') (n : Nat) :
    unbegun t' = unbegun t ∧ threadCost n t' < threadCost n t := by
  cases h with
  | enter => exact ⟨rfl, Nat.lt_succ_self _⟩
  | woken => exact ⟨rfl, Nat.lt_succ_self _⟩
  | setOver => exact ⟨rfl, Nat.lt_succ_self _⟩

theorem Unlocks.less {l : List Entry} {t t' : ExecThread} (h : Unlocks l t t') (n : Nat) :
    unbegun t' = unbegun t ∧ threadCost n t' < threadCost n t := by
  cases h with
  | waits => exact ⟨rfl, Nat.zero_lt_succ _⟩
  | picked => exact ⟨rfl, Nat.lt_succ_self _⟩
  | setOver => exact ⟨rfl, Nat.lt_succ_self _⟩

/-- What a notification costs at most. -/
theorem threadCost_notified_le (n : Nat) (t : ExecThread) :
    threadCost n t.notified ≤ threadCost n t + (2 * n + 6) := by
  cases t with
  | asleep => exact Nat.le_add_left _ _
  | _ => exact Nat.le_add_right _ _

theorem length_le_span (s : LockedExecutor) : s.taskList.length ≤ s.span := Nat.le_add_right _ _

/-- Every step of the threads among themselves leaves less to do. -/
theorem less_of_step (hinternal : e.internal) (hstep : s.step e = some (s', o)) : Less s' s := by
  obtain ⟨-, hcase⟩ := step_cases hstep
  cases hcase with
  | called => exact hinternal.elim
  | destroyed => exact hinternal.elim
  | @locked i request hi hfree =>
    cases request with
    | add uuid json =>
      refine less_of_call hi rfl le_rfl le_rfl rfl (Nat.add_lt_add_right ?_ _)
      exact Nat.lt_succ_self _
    | get uuid =>
      refine less_of_call hi rfl (Nat.le_succ _) (Nat.le_succ _) rfl (Nat.add_lt_add_right ?_ _)
      show (_ - 0) + 2 < 2 * _ + 10
      omega
  | @pushed i uuid json hi =>
    refine less_of_call hi rfl (List.length_append).le ?_ rfl
      (Nat.add_lt_add_right (Nat.lt_succ_self _) _)
    show (s.taskList ++ [_]).countP _ + 0 ≤ _
    rw [List.countP_append]
    exact le_rfl
  | @notified i request o hi =>
    have hunbegun : unbegun s.thread.notified = unbegun s.thread := by
      cases s.thread <;> rfl
    refine less_of_call hi rfl le_rfl le_rfl hunbegun ?_
    show 1 + threadCost _ s.thread.notified < 2 * _ + 8 + threadCost _ s.thread
    have hnotified := threadCost_notified_le
      ((s.go s.thread.notified).goCall i request (.leave o)).span s.thread
    omega
  | @passed i uuid k e hi he hne =>
    refine less_of_call hi rfl le_rfl le_rfl rfl (Nat.add_lt_add_right ?_ _)
    show (_ - (k + 1)) + 2 < (_ - k) + 2
    have hk := (List.getElem?_eq_some_iff.mp he).1
    have hspan := length_le_span (s.goCall i (.get uuid) (.scan (k + 1)))
    have hlist : (s.goCall i (.get uuid) (.scan (k + 1))).taskList = s.taskList := rfl
    rw [hlist] at hspan
    omega
  | @answered i uuid k l o hi hanswer =>
    have hsub : l.Sublist s.taskList := by
      cases hanswer with
      | notFound => exact List.Sublist.refl _
      | retry => exact List.Sublist.refl _
      | erased => exact List.eraseIdx_sublist _ _
    refine less_of_call hi rfl hsub.length_le hsub.countP_le rfl (Nat.add_lt_add_right ?_ _)
    show 1 < (_ - k) + 2
    omega
  | @left i request o hi =>
    exact less_of_call hi rfl le_rfl le_rfl rfl (Nat.add_lt_add_right Nat.zero_lt_one _)
  | @moved e t hmove =>
    obtain hlt | ⟨heq, hlt⟩ := hmove.less (length_le_span s) hinternal
    · refine .inl ?_
      unfold toBegin
      exact Nat.add_lt_add_left hlt _
    · exact less_of_worker rfl rfl (Nat.add_le_add_left heq.le _) hlt
  | workerLocked hlocks hfree =>
    obtain ⟨heq, hlt⟩ := hlocks.less s.span
    exact less_of_worker rfl rfl (Nat.add_le_add_left heq.le _) hlt
  | workerUnlocked hunlocks =>
    obtain ⟨heq, hlt⟩ := hunlocks.less s.span
    exact less_of_worker rfl rfl (Nat.add_le_add_left heq.le _) hlt
  | @chosen k e ht he hstatus =>
    refine less_of_worker rfl (length_update _ _ _) ?_ ?_
    · rw [ht]
      exact countP_picked_lt he hstatus
    · rw [ht]
      show 2 < (_ - k) + 3
      omega
  | @begun os id e writes ht he hwrites =>
    refine .inl ?_
    unfold toBegin
    rw [ht]
    exact Nat.lt_succ_self _
  | written ht =>
    refine less_of_update _ _ (fun _ hinit => hinit) (Nat.zero_le _) ?_
    rw [ht]
    exact Nat.lt_succ_self _
  | setOver ht =>
    refine less_of_update _ _ (fun _ hinit => ?_) (Nat.zero_le _) ?_
    · cases hinit
    · rw [ht]
      exact Nat.lt_succ_self _

/-- **The threads come to an end**: from any state they take finitely many steps. -/
theorem acc_internalStep (s : LockedExecutor) : Acc InternalStep s := by
  have hwf : WellFounded fun s' s : LockedExecutor =>
      Prod.Lex (· < ·) (· < ·) (s'.toBegin, s'.work) (s.toBegin, s.work) :=
    InvImage.wf (fun s : LockedExecutor => (s.toBegin, s.work))
      (WellFounded.prod_lex Nat.lt_wfRel.wf Nat.lt_wfRel.wf)
  refine Subrelation.accessible (fun {s' s} hstep => ?_) (hwf.apply s)
  obtain ⟨e, o, hinternal, hstep⟩ := hstep
  obtain hlt | ⟨hle, hlt⟩ := less_of_step hinternal hstep
  · exact .left _ _ hlt
  · obtain heq | hlt' := Nat.eq_or_lt_of_le hle
    · rw [heq]
      exact .right _ hlt
    · exact .left _ _ hlt'

/-! ### Where they stop -/

/-- No thread can take another step by itself. -/
def Stuck (s : LockedExecutor) : Prop := ∀ e, e.internal → s.step e = none

theorem step_handler (habort : s.thread.aborted = false) (i : Nat) :
    s.step (.handler i) = s.calls[i]?.bind (s.callStep i) := by
  unfold step
  rw [habort]
  rfl

theorem step_worker (habort : s.thread.aborted = false) : s.step .worker = s.workerStep := by
  unfold step
  rw [habort]
  rfl

theorem step_begin (habort : s.thread.aborted = false) (os : Os) :
    s.step (.begin os) = s.beginStep os := by
  unfold step
  rw [habort]
  rfl

/-- A call that holds the lock can go on. -/
theorem callStep_isSome {ks : List (Bytes × TaskStatus)} {c : ExecCall}
    {acts : List (ExecEvent × ExecOutput)} (hok : CallOk ks c acts) (hin : c.pc.inside = true) :
    s.callStep i c ≠ none := by
  cases hok with
  | enter => cases hin
  | returned => cases hin
  | push | notify | scan | leave => exact nofun

/-- So can the worker. -/
theorem workerStep_isSome (hin : s.thread.inside = true) (habort : s.thread.aborted = false) :
    s.workerStep ≠ none := by
  unfold workerStep
  generalize ht : s.thread = t at hin habort
  cases t with
  | testTask k =>
    dsimp only
    cases s.taskList[k]? <;> exact Option.some_ne_none _
  | choose k =>
    dsimp only
    cases s.taskList[k]? with
    | none => exact Option.some_ne_none _
    | some e =>
      show (if _ then some _ else some _) ≠ none
      split_ifs <;> exact Option.some_ne_none _
  | failed held => cases habort
  | testExit | leavePick | setOver | leaveOver => exact Option.some_ne_none _
  | loop | enter | asleep | woken | picked | filling | done => cases hin

/-- Who holds the lock can go on, so in the end nobody does. -/
theorem Inv.free_of_stuck (hinv : Inv h s) (hstuck : Stuck s)
    (habort : s.thread.aborted = false) : s.mutex.holder = none := by
  by_contra hheld
  obtain ⟨p, hp⟩ := Option.ne_none_iff_exists'.mp hheld
  have hin := (hinv.guards p).mpr hp
  cases p with
  | worker =>
    have hstep := hstuck .worker trivial
    rw [step_worker habort] at hstep
    exact workerStep_isSome hin habort hstep
  | call i =>
    obtain ⟨c, hi, hin⟩ := hin
    have hstep := hstuck (.handler i) trivial
    rw [step_handler habort, hi] at hstep
    exact callStep_isSome (hinv.calls i c hi) hin hstep

/-- With the lock free, every call has returned. -/
theorem Inv.returned_of_stuck (hinv : Inv h s) (hstuck : Stuck s)
    (habort : s.thread.aborted = false) {c : ExecCall} (hi : s.calls[i]? = some c) :
    ∃ o, c.pc = .returned o := by
  have hfree := hinv.free_of_stuck hstuck habort
  have hout : ¬ c.pc.inside = true := fun hin =>
    hinv.guards.outside hfree (show s.inside (.call i) from ⟨c, hi, hin⟩)
  obtain ⟨request, pc⟩ := c
  cases pc with
  | returned o => exact ⟨o, rfl⟩
  | enter =>
    -- it could take the lock
    have hstep := hstuck (.handler i) trivial
    rw [step_handler habort, hi] at hstep
    have hmap : ((s.mutex.lock? (.call i)).map fun m =>
      ((s.withMutex m).goCall i request request.first, Output.quiet)) = none := hstep
    obtain ⟨q, hq⟩ := Mutex.lock?_eq_none (Option.map_eq_none_iff.mp hmap)
    rw [hfree] at hq
    cases hq
  | push | notify | scan | leave => exact absurd rfl hout

/-- With the lock free, the worker has returned or waits. -/
theorem Inv.worker_of_stuck (hinv : Inv h s) (hstuck : Stuck s)
    (habort : s.thread.aborted = false) : s.thread = .done ∨ s.thread = .asleep := by
  have hfree := hinv.free_of_stuck hstuck habort
  have hout : ¬ s.inside .worker := hinv.guards.outside hfree
  have hstep := hstuck .worker trivial
  rw [step_worker habort] at hstep
  -- he could take the lock
  have hlock : ∀ {t : ExecThread}, ((s.mutex.lock? .worker).map fun m =>
      ((s.withMutex m).go t, Output.quiet)) ≠ none := by
    intro t hmap
    obtain ⟨q, hq⟩ := Mutex.lock?_eq_none (Option.map_eq_none_iff.mp hmap)
    rw [hfree] at hq
    cases hq
  unfold workerStep at hstep
  change ¬ s.thread.inside = true at hout
  generalize ht : s.thread = t at hstep hout habort
  cases t with
  | done => exact .inl rfl
  | asleep => exact .inr rfl
  | enter | woken => exact absurd hstep hlock
  | loop => cases hstep
  | filling id rest =>
    cases rest with
    | nil => exact absurd hstep hlock
    | cons w rest => cases hstep
  | picked id =>
    -- the task is in the list, and he could begin it
    have hheld : s.executor.worker.held = some id :=
      congrArg (fun t : ExecThread => t.worker.held) ht
    obtain ⟨e, he, hid⟩ := (Executor.inv_of_reach hinv.linear).held id hheld
    have hbegin := hstuck (.begin Os.directories) trivial
    rw [step_begin (by rw [ht]; exact habort)] at hbegin
    unfold beginStep at hbegin
    rw [ht] at hbegin
    have hfind := List.find?_eq_none.mp (Option.map_eq_none_iff.mp hbegin) e he
    exact absurd (decide_eq_true hid) hfind
  | failed held => cases habort
  | testExit | testTask | choose | leavePick | setOver | leaveOver => exact absurd rfl hout

/-- The executor at rest. -/
structure AtRest (s : LockedExecutor) : Prop where
  returned : ∀ (i : Nat) (c : ExecCall), s.calls[i]? = some c → ∃ o, c.pc = .returned o
  /-- A worker that waits has nothing to do. -/
  worker : s.thread = .done ∨
    s.thread = .asleep ∧ ∀ e ∈ s.taskList, e.task.iTaskStatus = .T_TASK_OVER

theorem Inv.atRest_of_stuck (hinv : Inv h s) (hstuck : Stuck s)
    (habort : s.thread.aborted = false) : AtRest s := by
  have hreturned := fun i c => hinv.returned_of_stuck hstuck habort (i := i) (c := c)
  refine ⟨hreturned, (hinv.worker_of_stuck hstuck habort).imp_right fun ht => ⟨ht, ?_⟩⟩
  intro e he
  obtain hnone | ⟨i, request, o, hi⟩ := hinv.asleep ht
  · have hnot := hnone _ (List.mem_map_of_mem he)
    have hlife := (Executor.inv_of_reach hinv.linear).life e he
    cases hstatus : e.task.iTaskStatus with
    | T_TASK_INIT => exact absurd hstatus hnot
    | T_TASK_RUNNING =>
      -- what is running is held, and a worker that waits holds nothing
      have hheld := hlife.held_of_running hstatus
      have hidle : s.executor.worker = .idle := congrArg ExecThread.worker ht
      rw [hidle] at hheld
      cases hheld
    | T_TASK_OVER => rfl
  · obtain ⟨o', ho'⟩ := hreturned i _ hi
    cases ho'

/-- **No wakeup is lost and nothing deadlocks.** From any reached state on, and in whatever
order, the calls that were made and the worker take finitely many steps. Where they can take
no other, the process has ended with a failed assertion, or every call has returned, and the
worker has returned too or waits with every task of the list over. -/
theorem comes_to_rest (hr : (machine exit).Reach h s) :
    Acc InternalStep s ∧ (Stuck s → s.thread.aborted = true ∨ AtRest s) := by
  refine ⟨acc_internalStep s, fun hstuck => ?_⟩
  by_cases habort : s.thread.aborted = true
  · exact .inl habort
  · exact .inr ((inv_of_reach hr).atRest_of_stuck hstuck (Bool.eq_false_of_not_eq_true habort))

/-- A task is added, run and left there. -/
theorem comes_to_rest_added :
    ∃ h s, (machine false).Reach h s ∧ Acc InternalStep s ∧ AtRest s ∧ s.taskList.length = 1 := by
  let json := ContentRemote.requestBody (ascii "t") (ascii "/srv") [ascii "a"]
  obtain ⟨h, s, hrun, hthread, hcalls, hlength⟩ : ∃ h s, (machine false).run? [.worker, .worker,
      .call (.add (ascii "t") json), .worker, .worker, .handler 0, .handler 0, .handler 0,
      .handler 0, .worker, .worker, .worker, .worker, .worker, .begin Os.directories, .worker,
      .worker, .worker, .worker, .worker, .worker, .worker, .worker, .worker, .worker,
      .worker] = some (h, s) ∧
      s.thread = .asleep ∧ s.calls = [⟨.add (ascii "t") json, .returned (.added 0)⟩] ∧
      s.taskList.length = 1 := ⟨_, _, rfl, rfl, rfl, rfl⟩
  have hr : (machine false).Reach h s := by simpa using Machine.Reach.runFrom? .init hrun
  have habort : s.thread.aborted = false := by rw [hthread]; rfl
  have hstuck : Stuck s := by
    intro e he
    cases e with
    | handler i =>
      rw [step_handler habort, hcalls]
      cases i <;> rfl
    | worker =>
      rw [step_worker habort]
      unfold workerStep
      rw [hthread]
    | begin os =>
      rw [step_begin habort]
      unfold beginStep
      rw [hthread]
    | call | spurious | destroy => exact he.elim
  obtain ⟨hacc, hrest⟩ := comes_to_rest hr
  obtain haborted | hrest := hrest hstuck
  · rw [habort] at haborted
    cases haborted
  · exact ⟨h, s, hr, hacc, hrest, hlength⟩

/-! ### The destructor -/

/-- Does the worker look for a task, or wait for one? -/
def searching : ExecThread → Bool
  | .enter => true
  | .testExit => true
  | .testTask _ => true
  | .asleep => true
  | .woken => true
  | .choose _ => true
  | _ => false

/-- No call is going to add a task. -/
def NoAdd (s : LockedExecutor) : Prop :=
  ∀ c ∈ s.calls, unpushed c.pc = 1 → ∃ uuid, c.request = .get uuid

/-- The worker can only fail. -/
structure Doomed (s : LockedExecutor) : Prop where
  exit : s.exit = true
  noAdd : s.NoAdd
  search : searching s.thread = true ∧ s.NoneWaits ∨ s.thread = .failed none

/-- The worker does not fail where it picks. -/
structure Saved (s : LockedExecutor) : Prop where
  exit : s.exit = true
  waits : searching s.thread = true → ¬ s.NoneWaits
  ne : s.thread ≠ .failed none

theorem searching_notified (t : ExecThread) : searching t.notified = searching t := by
  cases t <;> rfl

theorem NoAdd.set {c' : ExecCall} (hnoAdd : s.NoAdd) (hcalls : s'.calls = s.calls.set i c')
    (hc' : unpushed c'.pc = 1 → ∃ uuid, c'.request = .get uuid) : s'.NoAdd := by
  intro d hd
  rw [hcalls] at hd
  obtain rfl | ⟨j, -, hj⟩ := mem_set_cases hd
  · exact hc'
  · exact hnoAdd d (List.mem_of_getElem? hj)

/-- Without a task, the worker that is told to exit goes on searching or fails. -/
theorem Move.searching {l : List Entry} {t t' : ExecThread} (hmove : Move true l t e t')
    (hsearch : searching t = true) : LockedExecutor.searching t' = true ∨ t' = .failed none := by
  cases hmove with
  | returns => cases hsearch
  | again hexit => cases hexit
  | asserts => exact .inr rfl
  | begins => cases hsearch
  | exits | tests | found | passedTest | passedChoice | spurious => exact .inl rfl

theorem doomed_step (hd : Doomed s) (hp : ∀ uuid json, e ≠ .call (.add uuid json))
    (hstep : s.step e = some (s', o)) : Doomed s' := by
  obtain ⟨habort, hcase⟩ := step_cases hstep
  obtain ⟨hexit, hnoAdd, ⟨hsearch, hnone⟩ | hfailed⟩ := hd
  swap
  · rw [hfailed] at habort
    cases habort
  have hget : ∀ {i : Nat} {request : ExecRequest} {pc : CallPc},
      s.calls[i]? = some ⟨request, pc⟩ → unpushed pc = 1 → ∃ uuid, request = .get uuid :=
    fun hi hpc => hnoAdd _ (List.mem_of_getElem? hi) hpc
  cases hcase with
  | @called request =>
    refine ⟨hexit, fun c hc hpc => ?_, .inl ⟨hsearch, hnone⟩⟩
    obtain hc | hc := List.mem_append.mp hc
    · exact hnoAdd c hc hpc
    · rw [List.mem_singleton.mp hc]
      cases request with
      | add uuid json => exact absurd rfl (hp uuid json)
      | get uuid => exact ⟨uuid, rfl⟩
  | @locked i request hi =>
    obtain ⟨uuid, rfl⟩ := hget hi rfl
    exact ⟨hexit, hnoAdd.set rfl fun _ => ⟨uuid, rfl⟩, .inl ⟨hsearch, hnone⟩⟩
  | pushed hi =>
    obtain ⟨uuid, hrequest⟩ := hget hi rfl
    cases hrequest
  | notified =>
    exact ⟨hexit, hnoAdd.set rfl nofun, .inl ⟨(searching_notified _).trans hsearch, hnone⟩⟩
  | passed => exact ⟨hexit, hnoAdd.set rfl nofun, .inl ⟨hsearch, hnone⟩⟩
  | answered hi hanswer =>
    refine ⟨hexit, hnoAdd.set rfl nofun, .inl ⟨hsearch, fun x hx => hnone x ?_⟩⟩
    exact List.map_subset _ hanswer.subset hx
  | left => exact ⟨hexit, hnoAdd.set rfl nofun, .inl ⟨hsearch, hnone⟩⟩
  | moved hmove =>
    rw [hexit] at hmove
    exact ⟨hexit, hnoAdd, (hmove.searching hsearch).imp_left fun h => ⟨h, hnone⟩⟩
  | @workerLocked t hlocks =>
    refine ⟨hexit, hnoAdd, .inl ⟨?_, hnone⟩⟩
    show searching t = true
    generalize s.thread = t₀ at hlocks hsearch
    cases hlocks with
    | setOver => cases hsearch
    | enter | woken => rfl
  | @workerUnlocked t hunlocks =>
    refine ⟨hexit, hnoAdd, .inl ⟨?_, hnone⟩⟩
    show searching t = true
    generalize s.thread = t₀ at hunlocks hsearch
    cases hunlocks with
    | waits => rfl
    | picked | setOver => cases hsearch
  | chosen ht he hstatus =>
    exact absurd hstatus (hnone _ (List.mem_map_of_mem (List.mem_of_getElem? he)))
  | begun ht | written ht | setOver ht =>
    rw [ht] at hsearch
    cases hsearch
  | destroyed => exact ⟨rfl, hnoAdd, .inl ⟨hsearch, hnone⟩⟩

/-- A task that waits stays in the list. -/
theorem Answer.noneWaits {l l' : List Entry} {uuid : Bytes} {k : Nat} {o : ExecOutput}
    (h : Answer l uuid k l' o) (hnone : ∀ x ∈ keys l', x.2 ≠ .T_TASK_INIT) :
    ∀ x ∈ keys l, x.2 ≠ .T_TASK_INIT := by
  cases h with
  | notFound => exact hnone
  | retry => exact hnone
  | @erased e he huuid hstatus =>
    intro x hx
    obtain ⟨a, ha, rfl⟩ := List.mem_map.mp hx
    rw [eq_take_append he] at ha
    rw [List.eraseIdx_eq_take_drop_succ] at hnone
    obtain ha | ha := List.mem_append.mp ha
    · exact hnone _ (List.mem_map_of_mem (List.mem_append_left _ ha))
    · obtain rfl | ha := List.mem_cons.mp ha
      · show a.task.iTaskStatus ≠ _
        rw [hstatus]
        exact nofun
      · exact hnone _ (List.mem_map_of_mem (List.mem_append_right _ ha))

/-- With a task, the worker that is told to exit does not fail where it picks. -/
theorem Move.saves {l : List Entry} {t t' : ExecThread} (hmove : Move true l t e t')
    (hok : ThreadOk (keys l) t)
    (hwaits : LockedExecutor.searching t = true → ¬ ∀ x ∈ keys l, x.2 ≠ .T_TASK_INIT) :
    (LockedExecutor.searching t' = true → ¬ ∀ x ∈ keys l, x.2 ≠ .T_TASK_INIT) ∧
      t' ≠ .failed none := by
  cases hmove with
  | returns => exact ⟨nofun, nofun⟩
  | again hexit => cases hexit
  | begins => exact ⟨nofun, nofun⟩
  | asserts hend =>
    refine absurd (forall_of_take hok.of_choose ?_) (hwaits rfl)
    unfold keys
    rw [List.getElem?_map, hend]
    rfl
  | exits | tests | found | passedTest | passedChoice | spurious =>
    exact ⟨fun _ => hwaits rfl, nofun⟩

theorem saved_step (hinv : Inv h s) (hs : Saved s) (hstep : s.step e = some (s', o)) :
    Saved s' := by
  obtain ⟨-, hcase⟩ := step_cases hstep
  obtain ⟨hexit, hwaits, hne⟩ := hs
  have hok := hinv.thread
  cases hcase with
  | called => exact ⟨hexit, hwaits, hne⟩
  | locked => exact ⟨hexit, hwaits, hne⟩
  | pushed hi =>
    refine ⟨hexit, fun hsearch hnone => hwaits hsearch fun x hx => hnone x ?_, hne⟩
    exact List.map_subset _ (List.subset_append_left _ _) hx
  | notified =>
    refine ⟨hexit, fun hsearch => hwaits ((searching_notified _).symm.trans hsearch), fun ht => ?_⟩
    have ht : s.thread.notified = .failed none := ht
    generalize s.thread = t at ht hne
    cases t <;> first | exact hne ht | cases ht
  | passed => exact ⟨hexit, hwaits, hne⟩
  | answered hi hanswer =>
    refine ⟨hexit, fun hsearch hnone => hwaits hsearch ?_, hne⟩
    exact hanswer.noneWaits hnone
  | left => exact ⟨hexit, hwaits, hne⟩
  | moved hmove =>
    rw [hexit] at hmove
    obtain ⟨hwaits, hne⟩ := hmove.saves hok hwaits
    exact ⟨hexit, hwaits, hne⟩
  | @workerLocked t hlocks =>
    have hsaves : (searching t = true → ¬ s.NoneWaits) ∧ t ≠ .failed none := by
      generalize s.thread = t₀ at hlocks hwaits
      cases hlocks with
      | setOver => exact ⟨nofun, nofun⟩
      | enter | woken => exact ⟨fun _ => hwaits rfl, nofun⟩
    exact ⟨hexit, hsaves.1, hsaves.2⟩
  | @workerUnlocked t hunlocks =>
    obtain ⟨-, -, hasleep⟩ := hunlocks.keeps
    have hsaves : (searching t = true → ¬ s.NoneWaits) ∧ t ≠ .failed none := by
      have hasleep := hasleep hok
      generalize s.thread = t₀ at hunlocks hwaits
      cases hunlocks with
      | waits => exact ⟨fun _ => absurd (hasleep rfl) (hwaits rfl), nofun⟩
      | picked | setOver => exact ⟨nofun, nofun⟩
    exact ⟨hexit, hsaves.1, hsaves.2⟩
  | chosen | begun | written | setOver => exact ⟨hexit, nofun, nofun⟩
  | destroyed => exact ⟨rfl, hwaits, hne⟩

/-- **When the destructor returns.** Let `exit_` be set, with no `add` on the way and none to
come. When the threads have come to rest, and the worker has not failed in its task, the worker
has returned, so that `join` does, exactly if it was not looking for a task in a list where
none waits. -/
theorem join_returns_iff (hr : (machine exit).Reach h s) (hexit : s.exit = true)
    (habort : s.thread.aborted = false) (hnoAdd : s.NoAdd)
    (hr' : (machine exit).Reach (h ++ h') s')
    (hcalls : ∀ x ∈ h', ∀ uuid json, x.1 ≠ .call (.add uuid json)) (hstuck : Stuck s')
    (hran : ∀ id, s'.thread ≠ .failed (some id)) :
    s'.thread = .done ↔ ¬ (searching s.thread = true ∧ s.NoneWaits) := by
  constructor
  · rintro hdone ⟨hsearch, hnone⟩
    have hdoomed : Doomed s' :=
      hr.invariantFrom (I := fun _ s => Doomed s) ⟨hexit, hnoAdd, .inl ⟨hsearch, hnone⟩⟩
        (fun _ _ _ _ _ _ hd hp hstep => doomed_step hd hp hstep) hr' hcalls
    obtain ⟨hsearch', -⟩ | hfailed := hdoomed.search
    · rw [hdone] at hsearch'
      cases hsearch'
    · rw [hdone] at hfailed
      cases hfailed
  · intro hnot
    have hne : s.thread ≠ .failed none := by
      intro hfailed
      rw [hfailed] at habort
      cases habort
    have hsaved : Saved s' :=
      hr.invariantFrom (I := fun _ s => Saved s) (p := fun _ => True)
        ⟨hexit, fun hsearch hnone => hnot ⟨hsearch, hnone⟩, hne⟩
        (fun _ _ _ _ _ hr hs _ hstep => saved_step (inv_of_reach hr) hs hstep) hr'
        fun _ _ => trivial
    have hinv' := inv_of_reach hr'
    have hnotAborted : s'.thread.aborted = false := by
      generalize hthread : s'.thread = t
      cases t with
      | failed held =>
        cases held with
        | none => exact absurd hthread hsaved.ne
        | some id => exact absurd hthread (hran id)
      | _ => rfl
    obtain hdone | ⟨hasleep, hover⟩ := (hinv'.atRest_of_stuck hstuck hnotAborted).worker
    · exact hdone
    · -- a worker that waits would have a task
      refine absurd (fun x hx => ?_) (hsaved.waits (by rw [hasleep]; rfl))
      obtain ⟨e, he, rfl⟩ := List.mem_map.mp hx
      show e.task.iTaskStatus ≠ _
      rw [hover e he]
      exact nofun

/-- The worker waits, is told to exit, wakes up and fails. -/
theorem join_returns_iff_waiting :
    ∃ h h' s s', (machine false).Reach h s ∧ (machine false).Reach (h ++ h') s' ∧
      s.exit = true ∧ s.thread = .asleep ∧ s'.thread ≠ .done := by
  obtain ⟨h, s, h', s', hrun, hrun', hthread, hexit, hcalls, hlist, hevents, hthread'⟩ :
      ∃ h s h' s', (machine false).run? [.worker, .worker, .worker, .worker, .destroy] =
          some (h, s) ∧
        (machine false).runFrom? s [.spurious, .worker, .worker, .worker] = some (h', s') ∧
        s.thread = .asleep ∧ s.exit = true ∧ s.calls = [] ∧ s.taskList = [] ∧
        h'.map Prod.fst = [.spurious, .worker, .worker, .worker] ∧
        s'.thread = .failed none := ⟨_, _, _, _, rfl, rfl, rfl, rfl, rfl, rfl, rfl, rfl⟩
  have hr : (machine false).Reach h s := by simpa using Machine.Reach.runFrom? .init hrun
  have hr' := hr.runFrom? hrun'
  have habort : s.thread.aborted = false := by rw [hthread]; rfl
  have hnoAdd : s.NoAdd := by
    intro c hc
    rw [hcalls] at hc
    cases hc
  have hnone : s.NoneWaits := by
    intro x hx
    rw [hlist] at hx
    cases hx
  have hno : ∀ x ∈ h', ∀ uuid json, x.1 ≠ .call (.add uuid json) := by
    intro x hx uuid json
    have hmem := List.mem_map_of_mem (f := Prod.fst) hx
    rw [hevents] at hmem
    rintro heq
    rw [heq] at hmem
    simp at hmem
  have hstuck : Stuck s' := by
    intro e _
    unfold step
    rw [hthread']
    rfl
  have hiff := join_returns_iff hr hexit habort hnoAdd hr' hno hstuck
    (by rw [hthread']; exact nofun)
  refine ⟨h, h', s, s', hr, hr', hexit, hthread, fun hdone => hiff.mp hdone ⟨?_, hnone⟩⟩
  rw [hthread]
  rfl

end LockedExecutor

end Wfrest
