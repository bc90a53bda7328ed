import Wfrest.Compare.LockedExecutor

/-!
# The calls of the internal executor are atomic

`Inv` says what a thread relies on where it stands: that it has the lock, and what it knows of
the part of the list that it has passed. The worker writes to the list without the lock, but
only to an answer, and a walk reads none before it is over (`keys`).

From it, a step that acts on the list is a step of `Executor`, and one that does not is none
(`Inv.refines`). So each call takes effect at one point between its entry and its return, the
worker where it picks, writes and ends, and in the order of these points the run is one of
`Executor` (`linearizable`).
-/

namespace Wfrest

namespace LockedExecutor

variable {exit : Bool} {h : List (Event × Output)} {s s' : LockedExecutor} {e : Event}
  {o : Output} {i : Nat} {t : ExecThread}

/-! ### What a thread relies on -/

/-- What a thread that walks the list reads of a task. -/
def keys (l : List Entry) : List (Bytes × TaskStatus) :=
  l.map fun e => (e.task.iUuid, e.task.iTaskStatus)

theorem keys_update (id : Nat) (f : InternalTask → InternalTask)
    (hf : ∀ task, (f task).iUuid = task.iUuid ∧ (f task).iTaskStatus = task.iTaskStatus)
    (l : List Entry) : keys (Executor.update id f l) = keys l := by
  unfold keys Executor.update
  rw [List.map_map]
  refine List.map_congr_left fun e _ => ?_
  by_cases hid : e.id = id
  · obtain ⟨huuid, hstatus⟩ := hf e.task
    simp only [Function.comp_apply, if_pos hid, huuid, hstatus]
  · simp only [Function.comp_apply, if_neg hid]

theorem getElem?_keys {l : List Entry} {k : Nat} {e : Entry} (he : l[k]? = some e) :
    (keys l)[k]? = some (e.task.iUuid, e.task.iTaskStatus) := by
  unfold keys
  rw [List.getElem?_map, he]
  rfl

/-- One element more is passed. -/
theorem forall_take_succ {α : Type} {P : α → Prop} {l : List α} {k : Nat} {a : α}
    (h : ∀ x ∈ l.take k, P x) (hk : l[k]? = some a) (ha : P a) : ∀ x ∈ l.take (k + 1), P x := by
  intro x hx
  rw [List.take_add_one, hk, List.mem_append] at hx
  obtain hx | hx := hx
  · exact h x hx
  · rw [List.mem_singleton.mp hx]
    exact ha

/-- The whole list is passed. -/
theorem forall_of_take {α : Type} {P : α → Prop} {l : List α} {k : Nat}
    (h : ∀ x ∈ l.take k, P x) (hk : l[k]? = none) : ∀ x ∈ l, P x := by
  rwa [List.take_of_length_le (List.getElem?_eq_none_iff.mp hk)] at h

/-- What the steps of a thread have done to the list. -/
def actsOf (p : Party) (h : List (Event × Output)) : List (ExecEvent × ExecOutput) :=
  h.filterMap fun x =>
    match x.2 with
    | .quiet => none
    | .acts q e o => if q = p then some (e, o) else none

/-- What all threads have done to it, in order. -/
def linear (h : List (Event × Output)) : List (ExecEvent × ExecOutput) :=
  h.filterMap fun x =>
    match x.2 with
    | .quiet => none
    | .acts _ e o => some (e, o)

theorem actsOf_append (p : Party) (h h' : List (Event × Output)) :
    actsOf p (h ++ h') = actsOf p h ++ actsOf p h' := List.filterMap_append

@[simp] theorem actsOf_quiet (p : Party) (h : List (Event × Output)) (e : Event) :
    actsOf p (h ++ [(e, .quiet)]) = actsOf p h := by
  rw [actsOf_append]
  exact List.append_nil _

@[simp] theorem actsOf_self (p : Party) (h : List (Event × Output)) (e : Event) (x : ExecEvent)
    (o : ExecOutput) : actsOf p (h ++ [(e, .acts p x o)]) = actsOf p h ++ [(x, o)] := by
  rw [actsOf_append]
  simp [actsOf]

theorem actsOf_other {p q : Party} (hne : q ≠ p) (h : List (Event × Output)) (e : Event)
    (x : ExecEvent) (o : ExecOutput) : actsOf p (h ++ [(e, .acts q x o)]) = actsOf p h := by
  rw [actsOf_append]
  simp [actsOf, hne]

/-- A call at its place, with what it has done. -/
inductive CallOk (ks : List (Bytes × TaskStatus)) :
    ExecCall → List (ExecEvent × ExecOutput) → Prop
  | enter {request : ExecRequest} : CallOk ks ⟨request, .enter⟩ []
  | push {uuid : Bytes} {json : Json} : CallOk ks ⟨.add uuid json, .push⟩ []
  | notify {request : ExecRequest} {o : ExecOutput} :
      CallOk ks ⟨request, .notify o⟩ [(request.event, o)]
  | scan {uuid : Bytes} {k : Nat} (hne : ∀ x ∈ ks.take k, x.1 ≠ uuid) :
      CallOk ks ⟨.get uuid, .scan k⟩ []
  | leave {request : ExecRequest} {o : ExecOutput} :
      CallOk ks ⟨request, .leave o⟩ [(request.event, o)]
  | returned {request : ExecRequest} {o : ExecOutput} :
      CallOk ks ⟨request, .returned o⟩ [(request.event, o)]

/-- A call has acted exactly when it knows what it returns. -/
theorem CallOk.acts_eq {ks : List (Bytes × TaskStatus)} {c : ExecCall}
    {acts : List (ExecEvent × ExecOutput)} (h : CallOk ks c acts) :
    acts = (c.pc.out?.map fun o => (c.request.event, o)).toList := by
  cases h <;> rfl

theorem CallOk.of_scan {ks : List (Bytes × TaskStatus)} {uuid : Bytes} {k : Nat}
    {acts : List (ExecEvent × ExecOutput)} (h : CallOk ks ⟨.get uuid, .scan k⟩ acts) :
    ∀ x ∈ ks.take k, x.1 ≠ uuid := by
  cases h with
  | scan hne => exact hne

/-- A call without the lock relies on nothing. -/
theorem CallOk.of_outside {ks ks' : List (Bytes × TaskStatus)} {c : ExecCall}
    {acts : List (ExecEvent × ExecOutput)} (h : CallOk ks c acts) (hout : ¬ c.pc.inside = true) :
    CallOk ks' c acts := by
  cases h with
  | enter => exact .enter
  | returned => exact .returned
  | push => exact absurd rfl hout
  | notify => exact absurd rfl hout
  | scan => exact absurd rfl hout
  | leave => exact absurd rfl hout

/-- The worker at its place. -/
inductive ThreadOk (ks : List (Bytes × TaskStatus)) : ExecThread → Prop
  | outside {t : ExecThread} (hout : ¬ t.inside = true) : ThreadOk ks t
  | testExit : ThreadOk ks .testExit
  | testTask {k : Nat} (hinit : ∀ x ∈ ks.take k, x.2 ≠ .T_TASK_INIT) : ThreadOk ks (.testTask k)
  | choose {k : Nat} (hinit : ∀ x ∈ ks.take k, x.2 ≠ .T_TASK_INIT) : ThreadOk ks (.choose k)
  | leavePick {id : Nat} : ThreadOk ks (.leavePick id)
  | setOver {id : Nat} : ThreadOk ks (.setOver id)
  | leaveOver : ThreadOk ks .leaveOver
  | failed : ThreadOk ks (.failed none)

theorem ThreadOk.of_testTask {ks : List (Bytes × TaskStatus)} {k : Nat}
    (h : ThreadOk ks (.testTask k)) : ∀ x ∈ ks.take k, x.2 ≠ .T_TASK_INIT := by
  cases h with
  | outside hout => exact absurd rfl hout
  | testTask hinit => exact hinit

theorem ThreadOk.of_choose {ks : List (Bytes × TaskStatus)} {k : Nat}
    (h : ThreadOk ks (.choose k)) : ∀ x ∈ ks.take k, x.2 ≠ .T_TASK_INIT := by
  cases h with
  | outside hout => exact absurd rfl hout
  | choose hinit => exact hinit

/-- No task of the list waits to be picked. -/
def NoneWaits (s : LockedExecutor) : Prop := ∀ x ∈ keys s.taskList, x.2 ≠ .T_TASK_INIT

/-- An `add` is about to notify the worker. -/
def Notifying (s : LockedExecutor) : Prop :=
  ∃ (i : Nat) (request : ExecRequest) (o : ExecOutput), s.calls[i]? = some ⟨request, .notify o⟩

/-- What holds in every reached state. -/
structure Inv (h : List (Event × Output)) (s : LockedExecutor) : Prop where
  guards : s.mutex.Guards s.inside
  calls : ∀ i c, s.calls[i]? = some c → CallOk (keys s.taskList) c (actsOf (.call i) h)
  fresh : ∀ i, s.calls.length ≤ i → actsOf (.call i) h = []
  thread : ThreadOk (keys s.taskList) s.thread
  /-- The worker does not sleep over a task, except that it is going to be notified. -/
  asleep : s.thread = .asleep → s.NoneWaits ∨ s.Notifying
  linear : Executor.machine.Reach (linear h) s.executor

/-- A step of a call does not let another thread in or out. -/
theorem inside_set (s' : LockedExecutor) {c c' : ExecCall} (hi : s.calls[i]? = some c)
    (hcalls : s'.calls = s.calls.set i c') (ht : s'.thread.inside = s.thread.inside) :
    (s'.inside (.call i) ↔ c'.pc.inside = true) ∧
      ∀ p, p ≠ .call i → (s'.inside p ↔ s.inside p) := by
  refine ⟨?_, fun p hp => ?_⟩
  · show (∃ d, s'.calls[i]? = some d ∧ d.pc.inside = true) ↔ _
    have hset : s'.calls[i]? = some c' := by
      rw [hcalls, List.getElem?_set_self']
      rw [hi]
      rfl
    rw [hset]
    exact ⟨fun ⟨d, hd, hin⟩ => Option.some.inj hd ▸ hin, fun hin => ⟨c', rfl, hin⟩⟩
  · cases p with
    | worker =>
      show s'.thread.inside = true ↔ s.thread.inside = true
      rw [ht]
    | call j =>
      have hne : i ≠ j := fun hij => hp (hij ▸ rfl)
      show (∃ d, s'.calls[j]? = some d ∧ _) ↔ ∃ d, s.calls[j]? = some d ∧ _
      rw [hcalls, List.getElem?_set_ne hne]

/-- Nor does a step of the worker. -/
theorem inside_call (s s' : LockedExecutor) (hcalls : s'.calls = s.calls) {p : Party} (hp : p ≠ .worker) :
    s'.inside p ↔ s.inside p := by
  cases p with
  | worker => exact absurd rfl hp
  | call j =>
    show (∃ d, s'.calls[j]? = some d ∧ _) ↔ ∃ d, s.calls[j]? = some d ∧ _
    rw [hcalls]

/-- While a call holds the lock, the worker does not. -/
theorem Inv.worker_outside (hinv : Inv h s) {c : ExecCall} (hi : s.calls[i]? = some c)
    (hin : c.pc.inside = true) : ¬ s.thread.inside = true := by
  intro hworker
  have heq : Party.worker = .call i := hinv.guards.unique hworker ⟨c, hi, hin⟩
  cases heq

/-- While the worker holds the lock, the calls do not. -/
theorem Inv.calls_outside (hinv : Inv h s) {c : ExecCall} (hi : s.calls[i]? = some c)
    (hin : s.thread.inside = true) : ¬ c.pc.inside = true :=
  fun hcall => hinv.worker_outside hi hcall hin

/-! ### Every step keeps it -/

/-- A step of the call `i`. -/
theorem Inv.ofCall (hinv : Inv h s) {c c' : ExecCall} {x : Event × Output}
    (hi : s.calls[i]? = some c) (hcalls : s'.calls = s.calls.set i c')
    (hkeys : keys s'.taskList = keys s.taskList ∨ c.pc.inside = true)
    (hothers : ∀ j, j ≠ i → actsOf (.call j) (h ++ [x]) = actsOf (.call j) h)
    (hok : CallOk (keys s'.taskList) c' (actsOf (.call i) (h ++ [x])))
    (hguards : s'.mutex.Guards s'.inside) (hthread : ThreadOk (keys s'.taskList) s'.thread)
    (hasleep : s'.thread = .asleep → s'.NoneWaits ∨ s'.Notifying)
    (hlinear : Executor.machine.Reach (LockedExecutor.linear (h ++ [x])) s'.executor) :
    Inv (h ++ [x]) s' := by
  refine ⟨hguards, fun j d hj => ?_, fun j hj => ?_, hthread, hasleep, hlinear⟩
  · rw [hcalls] at hj
    obtain ⟨rfl, rfl⟩ | ⟨hne, hj⟩ := getElem?_set_cases hj
    · exact hok
    · rw [hothers j hne]
      have hd := hinv.calls j d hj
      obtain heq | hin := hkeys
      · rw [heq]
        exact hd
      · refine hd.of_outside fun hin' => hne ?_
        have hj' : s.inside (.call j) := ⟨d, hj, hin'⟩
        have hi' : s.inside (.call i) := ⟨c, hi, hin⟩
        exact Party.call.inj (hinv.guards.unique hj' hi')
  · rw [hcalls, List.length_set] at hj
    have hlt : i < s.calls.length := (List.getElem?_eq_some_iff.mp hi).1
    rw [hothers j (by omega)]
    exact hinv.fresh j hj

/-- A step of the worker. -/
theorem Inv.ofWorker (hinv : Inv h s) {x : Event × Output} (hcalls : s'.calls = s.calls)
    (hkeys : keys s'.taskList = keys s.taskList ∨ s.thread.inside = true)
    (hothers : ∀ j, actsOf (.call j) (h ++ [x]) = actsOf (.call j) h)
    (hguards : s'.mutex.Guards s'.inside) (hthread : ThreadOk (keys s'.taskList) s'.thread)
    (hasleep : s'.thread = .asleep → s'.NoneWaits ∨ s'.Notifying)
    (hlinear : Executor.machine.Reach (LockedExecutor.linear (h ++ [x])) s'.executor) :
    Inv (h ++ [x]) s' := by
  refine ⟨hguards, fun j d hj => ?_, fun j hj => ?_, hthread, hasleep, hlinear⟩
  · rw [hcalls] at hj
    rw [hothers j]
    have hd := hinv.calls j d hj
    obtain heq | hin := hkeys
    · rw [heq]
      exact hd
    · exact hd.of_outside (hinv.calls_outside hj hin)
  · rw [hcalls] at hj
    rw [hothers j]
    exact hinv.fresh j hj

/-! ### What the step is without the lock -/

theorem eq_take_append {α : Type} {l : List α} {k : Nat} {a : α} (hk : l[k]? = some a) :
    l = l.take k ++ a :: l.drop (k + 1) := by
  obtain ⟨hlt, rfl⟩ := List.getElem?_eq_some_iff.mp hk
  rw [List.getElem_cons_drop, List.take_append_drop]

/-- A search stops at the first element that has the property. -/
theorem find?_of_getElem? {α : Type} {p : α → Bool} {l : List α} {k : Nat} {a : α}
    (hk : l[k]? = some a) (ha : p a = true) (hpassed : ∀ x ∈ l.take k, ¬ p x = true) :
    l.find? p = some a := by
  rw [eq_take_append hk, List.find?_append, List.find?_eq_none.mpr hpassed, Option.none_or,
    List.find?_cons_of_pos ha]

/-- What is said of the keys that are passed is said of the tasks. -/
theorem of_take_keys {P : Bytes × TaskStatus → Prop} {l : List Entry} {k : Nat}
    (h : ∀ x ∈ (keys l).take k, P x) :
    ∀ e ∈ l.take k, P (e.task.iUuid, e.task.iTaskStatus) := by
  intro e he
  refine h _ ?_
  unfold keys
  rw [← List.map_take]
  exact List.mem_map_of_mem he

/-- The walk of a `get` ends with what `Executor.get` finds. -/
theorem get_of_answer {uuid : Bytes} {k : Nat} {l : List Entry} {o : ExecOutput}
    (hanswer : Answer s.taskList uuid k l o)
    (hne : ∀ x ∈ (keys s.taskList).take k, x.1 ≠ uuid) :
    s.executor.get uuid = ({ s.executor with taskList := l }, o) := by
  have hpassed : ∀ e ∈ s.taskList.take k, ¬ decide (e.task.iUuid = uuid) = true := by
    intro e he
    rw [decide_eq_true_iff]
    exact of_take_keys hne e he
  have hlist : s.executor.taskList = s.taskList := rfl
  unfold Executor.get
  rw [hlist]
  cases hanswer with
  | notFound hend =>
    rw [List.find?_eq_none.mpr (forall_of_take hpassed hend)]
    rfl
  | retry he huuid hstatus =>
    rw [find?_of_getElem? he (decide_eq_true huuid) hpassed]
    exact if_neg hstatus
  | @erased e he huuid hstatus =>
    have herase : s.taskList.eraseP (fun e => e.task.iUuid = uuid) = s.taskList.eraseIdx k := by
      have hfirst : (e :: s.taskList.drop (k + 1)).eraseP (fun e => e.task.iUuid = uuid) =
          s.taskList.drop (k + 1) := List.eraseP_cons_of_pos (decide_eq_true huuid)
      rw [List.eraseIdx_eq_take_drop_succ]
      nth_rewrite 1 [eq_take_append he]
      rw [List.eraseP_append_right _ hpassed, hfirst]
    rw [find?_of_getElem? he (decide_eq_true huuid) hpassed]
    show (if _ then (({ s.executor with taskList := s.taskList.eraseP _ } : Executor), _) else _) =
      _
    rw [if_pos hstatus, herase]

/-- The walk of the worker ends with what `Executor.pick` picks. -/
theorem pick_of_choose {k : Nat} {e : Entry} (he : s.taskList[k]? = some e)
    (hstatus : e.task.iTaskStatus = .T_TASK_INIT)
    (hinit : ∀ x ∈ (keys s.taskList).take k, x.2 ≠ .T_TASK_INIT) :
    s.executor.pick = some
      (⟨Executor.update e.id InternalTask.picked s.taskList, .picked e.id, s.added⟩,
        .picked e.id) := by
  have hpassed : ∀ e ∈ s.taskList.take k, ¬ decide (e.task.iTaskStatus = .T_TASK_INIT) = true := by
    intro e he
    rw [decide_eq_true_iff]
    exact of_take_keys hinit e he
  unfold Executor.pick
  show (s.taskList.find? _).map _ = _
  rw [find?_of_getElem? he (decide_eq_true hstatus) hpassed]
  rfl

/-- **A step refines.** One that is quiet changes nothing that `Executor` knows; one that acts
is a step of `Executor`. -/
theorem Inv.refines (hinv : Inv h s) (hcase : StepCase s e o s') :
    match o with
    | .quiet => s'.executor = s.executor
    | .acts _ x o => s.executor.step x = some (s'.executor, o) := by
  cases hcase with
  | called => rfl
  | locked => rfl
  | pushed => rfl
  | notified =>
    show (⟨s.taskList, s.thread.notified.worker, s.added⟩ : Executor) = ⟨_, s.thread.worker, _⟩
    cases s.thread <;> rfl
  | passed => rfl
  | answered hi hanswer => exact congrArg some (get_of_answer hanswer (hinv.calls _ _ hi).of_scan)
  | left => rfl
  | @moved e t hmove =>
    show (⟨_, t.worker, _⟩ : Executor) = ⟨_, s.thread.worker, _⟩
    generalize s.thread = t₀ at hmove ⊢
    cases hmove <;> rfl
  | @workerLocked t hlocks =>
    show (⟨_, t.worker, _⟩ : Executor) = ⟨_, s.thread.worker, _⟩
    generalize s.thread = t₀ at hlocks ⊢
    cases hlocks <;> rfl
  | @workerUnlocked t hunlocks =>
    show (⟨_, t.worker, _⟩ : Executor) = ⟨_, s.thread.worker, _⟩
    generalize s.thread = t₀ at hunlocks ⊢
    cases hunlocks <;> rfl
  | chosen ht he hstatus =>
    have hok := hinv.thread
    rw [ht] at hok
    have hpick := pick_of_choose he hstatus hok.of_choose
    have hworker : s.executor.worker = .idle := congrArg ExecThread.worker ht
    show s.executor.step .pick = _
    unfold Executor.step
    rw [hworker]
    exact hpick
  | @begun os id e writes ht he hwrites =>
    have hworker : s.executor.worker = .picked id := congrArg ExecThread.worker ht
    show s.executor.step (.begin os) = _
    unfold Executor.step
    rw [hworker]
    show (s.taskList.find? _).bind _ = _
    rw [he, Option.bind_some, hwrites]
    rfl
  | @written id w rest ht =>
    have hworker : s.executor.worker = .filling id (w :: rest) := congrArg ExecThread.worker ht
    show s.executor.step .write = _
    unfold Executor.step
    rw [hworker]
    rfl
  | @setOver id ht =>
    have hworker : s.executor.worker = .filling id [] := congrArg ExecThread.worker ht
    show s.executor.step .setOver = _
    unfold Executor.step
    rw [hworker]
    rfl
  | destroyed => rfl

theorem Inv.linear_step (hinv : Inv h s) (hcase : StepCase s e o s') :
    Executor.machine.Reach (LockedExecutor.linear (h ++ [(e, o)])) s'.executor := by
  have hrefines := hinv.refines hcase
  unfold LockedExecutor.linear
  rw [List.filterMap_append]
  cases o with
  | quiet =>
    rw [hrefines]
    show Executor.machine.Reach (LockedExecutor.linear h ++ []) _
    rw [List.append_nil]
    exact hinv.linear
  | acts p x o => exact hinv.linear.snoc hrefines

/-! ### Every step keeps the invariant -/

theorem inv_start : Inv [] (start exit) := by
  refine ⟨fun p => iff_of_false ?_ nofun, nofun, fun _ _ => rfl, .outside nofun, nofun, .init⟩
  cases p with
  | worker => exact nofun
  | call i => rintro ⟨c, hc, -⟩; cases hc

/-- A handler calls. -/
theorem inv_called (hinv : Inv h s) (request : ExecRequest) :
    Inv (h ++ [(.call request, .quiet)]) { s with calls := s.calls ++ [⟨request, .enter⟩] } := by
  have hnew : ∀ {j : Nat} {d : ExecCall}, (s.calls ++ [⟨request, .enter⟩])[j]? = some d →
      s.calls[j]? = some d ∨ j = s.calls.length ∧ d = ⟨request, .enter⟩ := by
    intro j d hj
    obtain hlt | hle := Nat.lt_or_ge j s.calls.length
    · rw [List.getElem?_append_left hlt] at hj
      exact .inl hj
    · rw [List.getElem?_append_right hle] at hj
      obtain ⟨hlt, rfl⟩ := List.getElem?_eq_some_iff.mp hj
      have hj0 : j = s.calls.length := by
        rw [List.length_singleton] at hlt
        omega
      exact .inr ⟨hj0, List.getElem_singleton _⟩
  have hold : ∀ {j : Nat} {d : ExecCall}, s.calls[j]? = some d →
      (s.calls ++ [⟨request, .enter⟩])[j]? = some d := by
    intro j d hj
    rw [List.getElem?_append_left (List.getElem?_eq_some_iff.mp hj).1]
    exact hj
  refine ⟨hinv.guards.congr fun p => ?_, fun j d hj => ?_, fun j hj => ?_, hinv.thread,
    fun ht => (hinv.asleep ht).imp_right ?_, hinv.linear_step .called⟩
  · cases p with
    | worker => exact Iff.rfl
    | call j =>
      constructor
      · rintro ⟨d, hj, hin⟩
        obtain hj | ⟨-, rfl⟩ := hnew hj
        · exact ⟨d, hj, hin⟩
        · cases hin
      · rintro ⟨d, hj, hin⟩
        exact ⟨d, hold hj, hin⟩
  · rw [actsOf_quiet]
    obtain hj | ⟨rfl, rfl⟩ := hnew hj
    · exact hinv.calls j d hj
    · rw [hinv.fresh _ le_rfl]
      exact .enter
  · rw [actsOf_quiet]
    rw [List.length_append] at hj
    exact hinv.fresh j (le_trans (Nat.le_add_right _ _) hj)
  · rintro ⟨j, r, o, hj⟩
    exact ⟨j, r, o, hold hj⟩

/-- An `add` that is about to notify still is after the step of another call. -/
theorem Notifying.set {c c' : ExecCall} (hn : s.Notifying) (hi : s.calls[i]? = some c)
    (hpc : ∀ o, c.pc ≠ .notify o) (hcalls : s'.calls = s.calls.set i c') : s'.Notifying := by
  obtain ⟨j, request, o, hj⟩ := hn
  refine ⟨j, request, o, ?_⟩
  have hne : i ≠ j := by
    rintro rfl
    rw [hi] at hj
    exact hpc o (congrArg ExecCall.pc (Option.some.inj hj))
  rw [hcalls, List.getElem?_set_ne hne]
  exact hj

/-- What a `get` finds is a task less at most. -/
theorem Answer.subset {l l' : List Entry} {uuid : Bytes} {k : Nat} {o : ExecOutput}
    (h : Answer l uuid k l' o) : l' ⊆ l := by
  cases h with
  | notFound => exact List.Subset.refl _
  | retry => exact List.Subset.refl _
  | erased => exact List.eraseIdx_subset

theorem inside_notified (t : ExecThread) : t.notified.inside = t.inside := by
  cases t <;> rfl

theorem notified_ne_asleep (t : ExecThread) : t.notified ≠ .asleep := by
  cases t <;> exact nofun

/-- A step that does not touch the lock. -/
theorem inside_stay {c c' : ExecCall} (hi : s.calls[i]? = some c)
    (hcalls : s'.calls = s.calls.set i c') (ht : s'.thread.inside = s.thread.inside)
    (hpc : c'.pc.inside = c.pc.inside) (p : Party) : s'.inside p ↔ s.inside p := by
  obtain ⟨hself, hother⟩ := inside_set s' hi hcalls ht
  by_cases hp : p = .call i
  · rw [hp, hself, hpc]
    exact ⟨fun hin => ⟨c, hi, hin⟩, fun ⟨d, hd, hin⟩ => by
      rw [hi] at hd
      rwa [Option.some.inj hd]⟩
  · exact hother p hp

theorem Move.event {l : List Entry} {t t' : ExecThread} (h : Move exit l t e t') :
    e = .worker ∨ e = .spurious ∨ ∃ os, e = .begin os := by
  cases h with
  | @begins os => exact .inr (.inr ⟨os, rfl⟩)
  | spurious => exact .inr (.inl rfl)
  | returns | again | exits | tests | found | passedTest | passedChoice | asserts => exact .inl rfl

/-- A step of a call keeps the invariant. -/
theorem inv_call (hinv : Inv h s) (hcase : StepCase s (.handler i) o s') :
    Inv (h ++ [(.handler i, o)]) s' := by
  have hlinear := hinv.linear_step hcase
  have hquiet : ∀ j, j ≠ i → actsOf (.call j) (h ++ [(.handler i, .quiet)]) =
      actsOf (.call j) h := fun j _ => actsOf_quiet _ _ _
  have hacts : ∀ x o' j, j ≠ i → actsOf (.call j) (h ++ [(.handler i, .acts (.call i) x o')]) =
      actsOf (.call j) h :=
    fun x o' j hne => actsOf_other (fun heq => hne (Party.call.inj heq).symm) _ _ _ _
  cases hcase with
  | @locked _ request hi hfree =>
    have hin := inside_set ((s.withMutex ⟨some (.call i)⟩).goCall i request request.first) hi rfl
      rfl
    refine hinv.ofCall hi rfl (.inl rfl) hquiet ?_ (hinv.guards.lock hfree (hin.1.mpr ?_) hin.2)
      hinv.thread (fun ht => (hinv.asleep ht).imp_right fun hn => hn.set hi nofun rfl) hlinear
    · rw [actsOf_quiet, (hinv.calls _ _ hi).acts_eq]
      cases request with
      | add uuid json => exact .push
      | get uuid => exact .scan fun x hx => by cases hx
    · cases request <;> rfl
  | @pushed _ uuid json hi =>
    refine hinv.ofCall hi rfl (.inr rfl) (hacts _ _) ?_
      (hinv.guards.congr (inside_stay hi rfl rfl rfl)) (.outside (hinv.worker_outside hi rfl))
      (fun _ => .inr ⟨i, .add uuid json, .added s.added, ?_⟩) hlinear
    · rw [actsOf_self, (hinv.calls _ _ hi).acts_eq]
      exact .notify
    · show (s.calls.set i _)[i]? = _
      rw [List.getElem?_set_self (List.getElem?_eq_some_iff.mp hi).1]
  | @notified _ request o hi =>
    refine hinv.ofCall hi rfl (.inl rfl) hquiet ?_
      (hinv.guards.congr (inside_stay hi rfl (inside_notified _) rfl)) (.outside ?_)
      (fun ht => absurd ht (notified_ne_asleep _)) hlinear
    · rw [actsOf_quiet, (hinv.calls _ _ hi).acts_eq]
      exact .leave
    · show ¬ s.thread.notified.inside = true
      rw [inside_notified]
      exact hinv.worker_outside hi rfl
  | @passed _ uuid k e hi he hne =>
    refine hinv.ofCall hi rfl (.inl rfl) hquiet ?_
      (hinv.guards.congr (inside_stay hi rfl rfl rfl)) hinv.thread
      (fun ht => (hinv.asleep ht).imp_right fun hn => hn.set hi nofun rfl) hlinear
    rw [actsOf_quiet, (hinv.calls _ _ hi).acts_eq]
    exact .scan (forall_take_succ (hinv.calls _ _ hi).of_scan (getElem?_keys he) hne)
  | @answered _ uuid k l o hi hanswer =>
    refine hinv.ofCall hi rfl (.inr rfl) (hacts _ _) ?_
      (hinv.guards.congr (inside_stay hi rfl rfl rfl)) (.outside (hinv.worker_outside hi rfl))
      (fun ht => (hinv.asleep ht).imp (fun hnone x hx => hnone x ?_)
        fun hn => hn.set hi nofun rfl) hlinear
    · rw [actsOf_self, (hinv.calls _ _ hi).acts_eq]
      exact .leave
    · exact List.map_subset _ hanswer.subset hx
  | @left _ request o hi =>
    have hin := inside_set ((s.withMutex .free).goCall i request (.returned o)) hi rfl rfl
    have hheld : s.inside (.call i) := ⟨_, hi, rfl⟩
    refine hinv.ofCall hi rfl (.inl rfl) hquiet ?_
      (hinv.guards.unlock hheld (fun hcall => ?_) hin.2) hinv.thread
      (fun ht => (hinv.asleep ht).imp_right fun hn => hn.set hi nofun rfl) hlinear
    · rw [actsOf_quiet, (hinv.calls _ _ hi).acts_eq]
      exact .returned
    · have hreturned : false = true := hin.1.mp hcall
      cases hreturned
  | moved hmove => obtain he | he | ⟨os, he⟩ := hmove.event <;> cases he

/-- A step of the worker that leaves the list alone. -/
theorem Move.keeps {l : List Entry} {t t' : ExecThread} (h : Move exit l t e t') :
    t'.inside = t.inside ∧ t' ≠ .asleep ∧ (ThreadOk (keys l) t → ThreadOk (keys l) t') := by
  cases h with
  | returns => exact ⟨rfl, nofun, fun _ => .outside nofun⟩
  | again => exact ⟨rfl, nofun, fun _ => .outside nofun⟩
  | exits => exact ⟨rfl, nofun, fun _ => .choose fun x hx => by cases hx⟩
  | tests => exact ⟨rfl, nofun, fun _ => .testTask fun x hx => by cases hx⟩
  | found => exact ⟨rfl, nofun, fun _ => .choose fun x hx => by cases hx⟩
  | passedTest he hstatus =>
    exact ⟨rfl, nofun, fun hok =>
      .testTask (forall_take_succ hok.of_testTask (getElem?_keys he) hstatus)⟩
  | passedChoice he hstatus =>
    exact ⟨rfl, nofun, fun hok =>
      .choose (forall_take_succ hok.of_choose (getElem?_keys he) hstatus)⟩
  | asserts => exact ⟨rfl, nofun, fun _ => .failed⟩
  | begins => exact ⟨rfl, nofun, fun _ => .outside nofun⟩
  | spurious => exact ⟨rfl, nofun, fun _ => .outside nofun⟩

theorem Locks.keeps {t t' : ExecThread} {ks : List (Bytes × TaskStatus)} (h : Locks t t') :
    t'.inside = true ∧ t' ≠ .asleep ∧ ThreadOk ks t' := by
  cases h with
  | enter => exact ⟨rfl, nofun, .testExit⟩
  | woken => exact ⟨rfl, nofun, .testExit⟩
  | setOver => exact ⟨rfl, nofun, .setOver⟩

theorem Unlocks.keeps {l : List Entry} {t t' : ExecThread} (h : Unlocks l t t') :
    t.inside = true ∧ ¬ t'.inside = true ∧
      (ThreadOk (keys l) t → t' = .asleep → ∀ x ∈ keys l, x.2 ≠ .T_TASK_INIT) := by
  cases h with
  | waits hend =>
    refine ⟨rfl, nofun, fun hok _ => forall_of_take hok.of_testTask ?_⟩
    unfold keys
    rw [List.getElem?_map, hend]
    rfl
  | picked => exact ⟨rfl, nofun, fun _ ht => nomatch ht⟩
  | setOver => exact ⟨rfl, nofun, fun _ ht => nomatch ht⟩

/-- The worker is inside as its place says. -/
theorem inside_worker_stay (hcalls : s'.calls = s.calls)
    (ht : s'.thread.inside = s.thread.inside) (p : Party) : s'.inside p ↔ s.inside p := by
  cases p with
  | worker =>
    show s'.thread.inside = true ↔ s.thread.inside = true
    rw [ht]
  | call j => exact inside_call s s' hcalls nofun

/-- A step of the worker, or what makes it go on, keeps the invariant. -/
theorem inv_worker (hinv : Inv h s) (he : e = .worker ∨ e = .spurious ∨ ∃ os, e = .begin os)
    (hcase : StepCase s e o s') : Inv (h ++ [(e, o)]) s' := by
  have hlinear := hinv.linear_step hcase
  have hacts : ∀ x o' j, actsOf (.call j) (h ++ [(e, .acts .worker x o')]) = actsOf (.call j) h :=
    fun x o' j => actsOf_other (fun hne : Party.worker = .call j => nomatch hne) _ _ _ _
  cases hcase with
  | moved hmove =>
    obtain ⟨hin, hasleep, hok⟩ := hmove.keeps
    exact hinv.ofWorker rfl (.inl rfl) (fun _ => actsOf_quiet _ _ _)
      (hinv.guards.congr (inside_worker_stay rfl hin)) (hok hinv.thread)
      (fun ht => absurd ht hasleep) hlinear
  | @workerLocked t hlocks hfree =>
    obtain ⟨hin, hasleep, hok⟩ := hlocks.keeps
    have hcalls : ∀ p, p ≠ .worker →
        (((s.withMutex ⟨some .worker⟩).go t).inside p ↔ s.inside p) :=
      fun p hp => inside_call s ((s.withMutex ⟨some .worker⟩).go t) rfl hp
    exact hinv.ofWorker rfl (.inl rfl) (fun _ => actsOf_quiet _ _ _)
      (hinv.guards.lock hfree hin hcalls) hok (fun ht => absurd ht hasleep) hlinear
  | @workerUnlocked t hunlocks =>
    obtain ⟨hin, hout, hnone⟩ := hunlocks.keeps
    have hheld : s.inside .worker := hin
    have hcalls : ∀ p, p ≠ .worker → (((s.withMutex .free).go t).inside p ↔ s.inside p) :=
      fun p hp => inside_call s ((s.withMutex .free).go t) rfl hp
    exact hinv.ofWorker rfl (.inl rfl) (fun _ => actsOf_quiet _ _ _)
      (hinv.guards.unlock hheld hout hcalls) (.outside hout)
      (fun ht => .inl (hnone hinv.thread ht)) hlinear
  | chosen ht he hstatus =>
    have hin : s.thread.inside = true := by rw [ht]; rfl
    exact hinv.ofWorker rfl (.inr hin) (hacts _ _)
      (hinv.guards.congr (inside_worker_stay rfl hin.symm)) .leavePick nofun hlinear
  | begun ht he hwrites =>
    have hin : false = s.thread.inside := by rw [ht]; rfl
    exact hinv.ofWorker rfl (.inl rfl) (hacts _ _)
      (hinv.guards.congr (inside_worker_stay rfl hin)) (.outside nofun) nofun hlinear
  | @written id w rest ht =>
    have hin : false = s.thread.inside := by rw [ht]; rfl
    have hkeys := keys_update id (fun task => { task with iOutJson := w.apply task.iOutJson })
      (fun _ => ⟨rfl, rfl⟩) s.taskList
    exact hinv.ofWorker rfl (.inl hkeys) (hacts _ _)
      (hinv.guards.congr (inside_worker_stay rfl hin)) (.outside nofun) nofun hlinear
  | setOver ht =>
    have hin : s.thread.inside = true := by rw [ht]; rfl
    exact hinv.ofWorker rfl (.inr hin) (hacts _ _)
      (hinv.guards.congr (inside_worker_stay rfl hin.symm)) .leaveOver nofun hlinear
  | called => simp at he
  | destroyed => simp at he
  | locked | pushed | notified | passed | answered | left => simp at he

/-- The destructor sets `exit_`. -/
theorem inv_destroyed (hinv : Inv h s) :
    Inv (h ++ [(.destroy, .quiet)]) { s with exit := true } :=
  hinv.ofWorker rfl (.inl rfl) (fun _ => actsOf_quiet _ _ _)
    (hinv.guards.congr (inside_worker_stay rfl rfl)) hinv.thread hinv.asleep
    (hinv.linear_step .destroyed)

/-- Every step keeps the invariant. -/
theorem inv_step (hinv : Inv h s) (hstep : s.step e = some (s', o)) : Inv (h ++ [(e, o)]) s' := by
  obtain ⟨-, hcase⟩ := step_cases hstep
  cases e with
  | call request =>
    cases hcase with
    | called => exact inv_called hinv request
    | moved hmove => obtain he | he | ⟨os, he⟩ := hmove.event <;> cases he
  | handler i => exact inv_call hinv hcase
  | worker => exact inv_worker hinv (.inl rfl) hcase
  | begin os => exact inv_worker hinv (.inr (.inr ⟨os, rfl⟩)) hcase
  | spurious => exact inv_worker hinv (.inr (.inl rfl)) hcase
  | destroy =>
    cases hcase with
    | destroyed => exact inv_destroyed hinv
    | moved hmove => obtain he | he | ⟨os, he⟩ := hmove.event <;> cases he

/-- The invariant holds in every reached state. -/
theorem inv_of_reach (hr : (machine exit).Reach h s) : Inv h s :=
  hr.invariant inv_start fun _ _ _ _ _ _ hinv hstep => inv_step hinv hstep

/-! ### The calls take effect one after the other -/

/-- **The lock makes the calls atomic.** Whatever the order in which the calls and the worker
take their steps, what they do to the list is, in the order in which they do it, a run of
`Executor` to the same list and answers. And a call that has returned has acted exactly once:
after it was made and before it returned, with its request and with what it returned. -/
theorem linearizable (hr : (machine exit).Reach h s) :
    Executor.machine.Reach (linear h) s.executor ∧
      ∀ i request o, s.calls[i]? = some ⟨request, .returned o⟩ →
        ∃ h₁ s₁ h₂, h = h₁ ++ (.handler i, .acts (.call i) request.event o) :: h₂ ∧
          (machine exit).Reach h₁ s₁ ∧ i < s₁.calls.length ∧
          actsOf (.call i) h₁ = [] ∧ actsOf (.call i) h₂ = [] := by
  have hinv := inv_of_reach hr
  refine ⟨hinv.linear, fun i request o hi => ?_⟩
  have hacts : actsOf (.call i) h = [(request.event, o)] := (hinv.calls i _ hi).acts_eq
  obtain ⟨h₁, ⟨e, out⟩, h₂, rfl, hbefore, hout, hafter⟩ := List.filterMap_eq_cons_iff.mp hacts
  have hbefore : actsOf (.call i) h₁ = [] := List.filterMap_eq_nil_iff.mpr hbefore
  obtain ⟨s₁, s₂, hr₁, hstep⟩ := hr.split
  -- the one step in which the call acts
  cases out with
  | quiet => cases hout
  | acts p x o' =>
    dsimp only at hout
    split_ifs at hout with hp
    obtain ⟨rfl, rfl⟩ := Prod.mk.inj (Option.some.inj hout)
    subst hp
    obtain ⟨-, hcase⟩ := step_cases hstep
    have hcall : e = .handler i ∧ i < s₁.calls.length := by
      generalize hx : request.event = x at hcase
      cases hcase with
      | pushed hj => exact ⟨rfl, (List.getElem?_eq_some_iff.mp hj).1⟩
      | answered hj => exact ⟨rfl, (List.getElem?_eq_some_iff.mp hj).1⟩
    obtain ⟨rfl, hlt⟩ := hcall
    exact ⟨h₁, s₁, h₂, rfl, hr₁, hlt, hbefore, hafter⟩

/-- A `get` that looks at a task while the worker writes its answer. -/
theorem linearizable_retry :
    ∃ h₁ s₁ h₂ s, (machine false).Reach (h₁ ++ (.handler 1, .acts (.call 1) (.get (ascii "t"))
        (.got .E_DC_CONTENT_RETRY .null none)) :: h₂) s ∧
      (machine false).Reach h₁ s₁ ∧
      Executor.machine.Reach (linear (h₁ ++ (.handler 1, .acts (.call 1) (.get (ascii "t"))
        (.got .E_DC_CONTENT_RETRY .null none)) :: h₂)) s.executor := by
  let json := ContentRemote.requestBody (ascii "t") (ascii "/srv") [ascii "a"]
  obtain ⟨h, s, hrun, hget⟩ : ∃ h s, (machine false).run? [.worker, .call (.add (ascii "t") json),
      .worker, .call (.get (ascii "t")), .worker, .worker, .handler 0, .handler 0, .handler 0,
      .handler 0, .worker, .worker, .worker, .worker, .worker, .handler 1, .begin Os.directories,
      .worker, .handler 1, .worker, .handler 1] = some (h, s) ∧
      s.calls[1]? = some ⟨.get (ascii "t"),
        .returned (.got .E_DC_CONTENT_RETRY .null none)⟩ := ⟨_, _, rfl, rfl⟩
  have hr : (machine false).Reach h s := by simpa using Machine.Reach.runFrom? .init hrun
  obtain ⟨hlinear, hcalls⟩ := linearizable hr
  obtain ⟨h₁, s₁, h₂, rfl, hr₁, -⟩ := hcalls 1 _ _ hget
  exact ⟨h₁, s₁, h₂, s, hr, hr₁, hlinear⟩

end LockedExecutor

end Wfrest
