import Wfrest.Compare.Executor

/-!
# Whose answer a poll gets

The remote contents of a task send their lists with `POST /internal/dir/task/{uuid}` and
fetch the answers with `GET` on the same path. The uuid is that of the task, so it is the
same for all of its contents and all of their lists, and `dc_internal_executor_t::get`
looks at nothing else: of the tasks with the uuid it takes the first.

Tasks with one uuid are handed out in the order in which they arrived (`order`). So a poll
gets the answer to the last request of its own reader exactly in the runs where that request
has come to be the oldest (`answers_own_iff`).

* Requests travel: a `POST` that was made may arrive at any later time, and more than once.
* Contents are indexed by any type. They may belong to one task or to several.
* Every process has one executor. Which process an address reaches is a parameter: two
  addresses may reach the same one, as `localhost` and `127.0.0.1` do.
-/

namespace Wfrest

/-! ### The order of one uuid -/

namespace Executor

variable {h : List (ExecEvent × ExecOutput)} {s s' : Executor} {e : ExecEvent} {o : ExecOutput}

/-- The tasks that were added under a uuid. -/
def addsOf (uuid : Bytes) (h : List (ExecEvent × ExecOutput)) : List Nat :=
  h.filterMap fun x =>
    match x with
    | (.add u _, .added id) => if u = uuid then some id else none
    | _ => none

/-- The tasks that were erased under a uuid. -/
def erasuresOf (uuid : Bytes) (h : List (ExecEvent × ExecOutput)) : List Nat :=
  h.filterMap fun x =>
    match x with
    | (.get u, .got _ _ erased) => if u = uuid then erased else none
    | _ => none

/-- The tasks of a list under a uuid. -/
def idsOf (uuid : Bytes) (l : List Entry) : List Nat :=
  (l.filter fun e => e.task.iUuid = uuid).map Entry.id

theorem addsOf_concat (uuid : Bytes) (h : List (ExecEvent × ExecOutput))
    (x : ExecEvent × ExecOutput) : addsOf uuid (h ++ [x]) = addsOf uuid h ++ addsOf uuid [x] :=
  List.filterMap_append

theorem erasuresOf_concat (uuid : Bytes) (h : List (ExecEvent × ExecOutput))
    (x : ExecEvent × ExecOutput) :
    erasuresOf uuid (h ++ [x]) = erasuresOf uuid h ++ erasuresOf uuid [x] :=
  List.filterMap_append

theorem idsOf_append (uuid : Bytes) (l₁ l₂ : List Entry) :
    idsOf uuid (l₁ ++ l₂) = idsOf uuid l₁ ++ idsOf uuid l₂ := by
  rw [idsOf, List.filter_append, List.map_append]
  rfl

theorem idsOf_cons (uuid : Bytes) (e : Entry) (l : List Entry) :
    idsOf uuid (e :: l) = if e.task.iUuid = uuid then e.id :: idsOf uuid l else idsOf uuid l := by
  by_cases huuid : e.task.iUuid = uuid
  · rw [if_pos huuid, idsOf, List.filter_cons_of_pos (by simpa using huuid)]
    rfl
  · rw [if_neg huuid, idsOf, List.filter_cons_of_neg (by simpa using huuid)]
    rfl

theorem idsOf_eq_nil {uuid : Bytes} {l : List Entry} (hne : ∀ e ∈ l, e.task.iUuid ≠ uuid) :
    idsOf uuid l = [] := by
  have hfilter : (l.filter fun e => e.task.iUuid = uuid) = [] :=
    List.filter_eq_nil_iff.mpr fun e he => by simpa using hne e he
  rw [idsOf, hfilter, List.map_nil]

/-- A write keeps the tasks under a uuid, since it keeps the uuids. -/
theorem idsOf_update (uuid : Bytes) (id : Nat) {f : InternalTask → InternalTask}
    (hf : ∀ task, (f task).iUuid = task.iUuid) (l : List Entry) :
    idsOf uuid (update id f l) = idsOf uuid l := by
  induction l with
  | nil => rfl
  | cons e l ih =>
    change idsOf uuid ((if e.id = id then { e with task := f e.task } else e) :: update id f l) = _
    rw [idsOf_cons, idsOf_cons, ih]
    by_cases hid : e.id = id
    · rw [if_pos hid, hf]
    · rw [if_neg hid]

theorem addsOf_added (uuid u : Bytes) (json : Json) (id : Nat) :
    addsOf uuid [(.add u json, .added id)] = if u = uuid then [id] else [] := by
  by_cases hu : u = uuid
  · simp [addsOf, hu]
  · simp [addsOf, hu]

theorem erasuresOf_got (uuid u : Bytes) (ret : DcCommonCode) (json : Json) (erased : Option Nat) :
    erasuresOf uuid [(.get u, .got ret json erased)] = if u = uuid then erased.toList else [] := by
  by_cases hu : u = uuid
  · cases erased <;> simp [erasuresOf, hu]
  · simp [erasuresOf, hu]

/-- A `get` takes the first task under its uuid, if it takes one. -/
theorem idsOf_of_get {u : Bytes} (hget : GetCase s u s' o) (uuid : Bytes) :
    idsOf uuid s.taskList = erasuresOf uuid [(.get u, o)] ++ idsOf uuid s'.taskList := by
  cases hget with
  | notFound _ | retry =>
    rw [erasuresOf_got, Option.toList_none, ite_self]
    rfl
  | @erased l₁ l₂ e₀ hlist hne huuid hstatus =>
    rw [erasuresOf_got, hlist, idsOf_append, idsOf_append, idsOf_cons, huuid]
    by_cases hu : u = uuid
    · -- there is none under the uuid before it
      rw [if_pos hu, if_pos hu, idsOf_eq_nil (hu ▸ hne)]
      rfl
    · rw [if_neg hu, if_neg hu]
      rfl

/-- **One step.** What is added under a uuid comes last, what is handed out came first. -/
theorem idsOf_step (hstep : s.step e = some (s', o)) (uuid : Bytes) :
    idsOf uuid s.taskList ++ addsOf uuid [(e, o)] =
      erasuresOf uuid [(e, o)] ++ idsOf uuid s'.taskList := by
  cases step_cases hstep with
  | @added u json =>
    change _ = idsOf uuid (s.taskList ++ [_])
    rw [addsOf_added, idsOf_append, idsOf_cons]
    rfl
  | got hget =>
    rw [idsOf_of_get hget]
    exact List.append_nil _
  | picked =>
    change idsOf uuid s.taskList ++ [] = idsOf uuid (update _ InternalTask.picked s.taskList)
    rw [idsOf_update, List.append_nil]
    exact fun _ => rfl
  | begun => exact List.append_nil _
  | written =>
    rw [taskList_write, idsOf_update]
    · exact List.append_nil _
    · exact fun _ => rfl
  | setOver =>
    rw [taskList_setTaskOver, idsOf_update]
    · exact List.append_nil _
    · exact fun _ => rfl

/-- **First in, first out.** The tasks under a uuid are handed out in the order in which they
were added. -/
theorem order (hr : machine.Reach h s) (uuid : Bytes) :
    addsOf uuid h = erasuresOf uuid h ++ idsOf uuid s.taskList := by
  refine hr.invariant
    (I := fun h s => addsOf uuid h = erasuresOf uuid h ++ idsOf uuid s.taskList) rfl ?_
  intro h s e s' o _ ih hstep
  calc addsOf uuid (h ++ [(e, o)])
      = erasuresOf uuid h ++ idsOf uuid s.taskList ++ addsOf uuid [(e, o)] := by
        rw [addsOf_concat, ih]
    _ = erasuresOf uuid h ++ (erasuresOf uuid [(e, o)] ++ idsOf uuid s'.taskList) := by
        rw [List.append_assoc, idsOf_step hstep]
    _ = erasuresOf uuid (h ++ [(e, o)]) ++ idsOf uuid s'.taskList := by
        rw [erasuresOf_concat, List.append_assoc]

/-- A step keeps the numbers and the requests of the tasks; only an `add` brings a new one. -/
theorem mem_step (hstep : s.step e = some (s', o)) {e' : Entry} (he' : e' ∈ s'.taskList) :
    (∃ e₀ ∈ s.taskList, e₀.id = e'.id ∧ e₀.task.request = e'.task.request) ∨
      ∃ uuid json, e = .add uuid json ∧ o = .added e'.id ∧ e'.id = s.added ∧
        e'.task.request = { iUuid := uuid, iJson := json } := by
  have hupdate : ∀ {id : Nat} {f : InternalTask → InternalTask},
      e' ∈ update id f s.taskList → (∀ task, (f task).request = task.request) →
        ∃ e₀ ∈ s.taskList, e₀.id = e'.id ∧ e₀.task.request = e'.task.request := by
    intro id f hmem hf
    obtain ⟨he', -⟩ | ⟨e₀, he₀, hid, rfl⟩ := mem_update hmem
    · exact ⟨e', he', rfl, rfl⟩
    · exact ⟨e₀, he₀, hid, (hf _).symm⟩
  cases step_cases hstep with
  | @added uuid json =>
    -- the worker writes only what is not part of the request
    rcases List.mem_append.mp he' with he' | he'
    · exact .inl ⟨e', he', rfl, rfl⟩
    · obtain rfl := List.mem_singleton.mp he'
      exact .inr ⟨uuid, json, rfl, rfl, rfl, rfl⟩
  | got hget =>
    left
    cases hget with
    | notFound _ | retry => exact ⟨e', he', rfl, rfl⟩
    | erased hlist =>
      refine ⟨e', ?_, rfl, rfl⟩
      rw [hlist]
      rcases List.mem_append.mp he' with he' | he'
      · exact List.mem_append_left _ he'
      · exact List.mem_append_right _ (List.mem_cons_of_mem _ he')
  | picked =>
    change e' ∈ update _ InternalTask.picked s.taskList at he'
    exact .inl (hupdate he' fun _ => rfl)
  | begun => exact .inl ⟨e', he', rfl, rfl⟩
  | written =>
    rw [taskList_write] at he'
    exact .inl (hupdate he' fun _ => rfl)
  | setOver =>
    rw [taskList_setTaskOver] at he'
    exact .inl (hupdate he' fun _ => rfl)

/-- The tasks added under a uuid are among all that were added. -/
theorem addsOf_sublist (uuid : Bytes) (h : List (ExecEvent × ExecOutput)) :
    (addsOf uuid h).Sublist (adds h) := by
  induction h with
  | nil => exact List.Sublist.refl _
  | cons x h ih =>
    obtain ⟨e, o⟩ := x
    cases o with
    | added id =>
      -- an `add` counts here if it is under the uuid
      have hadds : adds ((e, .added id) :: h) = id :: adds h := rfl
      have hcases : addsOf uuid ((e, .added id) :: h) = id :: addsOf uuid h ∨
          addsOf uuid ((e, .added id) :: h) = addsOf uuid h := by
        cases e with
        | add u _ =>
          by_cases hu : u = uuid
          · exact .inl (by simp [addsOf, hu])
          · exact .inr (by simp [addsOf, hu])
        | _ => exact .inr rfl
      rw [hadds]
      rcases hcases with heq | heq
      · rw [heq]
        exact ih.cons_cons id
      · rw [heq]
        exact ih.cons id
    | _ => cases e <;> exact ih

end Executor

/-! ### Contents and executors -/

/-- `dc_content_remote_t`, as far as its requests are concerned. -/
structure Remote where
  /-- `server_->c_task->t_task_uuid` -/
  taskUuid : Bytes
  /-- `server_` -/
  server : ServerInfo

/-- A host, by name or by number, and a port. -/
abbrev Address := Bytes × Int

namespace Remote

/-- The `c_host` and `c_port` of its server. -/
def address (remote : Remote) : Address := (remote.server.host, remote.server.port)

/-- The process that its requests reach. -/
def process {P : Type} (resolve : Address → P) (remote : Remote) : P := resolve remote.address

/-- The body of `do_dir_list_attr`. -/
def body (remote : Remote) (dirList : List Bytes) : Json :=
  ContentRemote.requestBody remote.taskUuid remote.server.baseDir dirList

end Remote

/-- The remote contents that `exe_sql_job` makes: one for every server but the standard
one. -/
def DcApiTask.remotes (task : DcApiTask) : List Remote :=
  (task.serverInfoArr.zipIdx.filter fun p => (p.2 : Int) ≠ task.stdIdx).map fun p =>
    ⟨task.taskUuid, p.1⟩

/-- The contents and the executors that they talk to: `main` makes one in every process. -/
structure Polls (P R : Type) where
  /-- The bodies of the `POST` requests that a content has made. -/
  posts : R → List Json
  executors : P → Executor

/-- A step of one of the contents, of the network or of the worker of an executor. -/
inductive PollEvent (P R : Type) where
  /-- `do_dir_list_attr` -/
  | post (r : R) (dirList : List Bytes)
  /-- A copy of the request `n` of `r` arrives, and is handled. -/
  | arrive (r : R) (n : Nat)
  /-- A `GET` of `r` arrives, and is handled. -/
  | poll (r : R)
  | worker (a : P) (e : ExecEvent)

inductive PollOutput (P : Type) where
  | made
  /-- The executor of the process has taken the step. -/
  | executed (a : P) (e : ExecEvent) (o : ExecOutput)

/-- Is it a step of the worker? -/
def ExecEvent.isWorker : ExecEvent → Bool
  | add _ _ => false
  | get _ => false
  | _ => true

/-- The handler of `POST` queues what a content sends. -/
theorem postInternalDirTask_body {parse : Bytes → Except Fault Json} {remote : Remote}
    {dirList : List Bytes} {body : Bytes} (hparse : parse body = .ok (remote.body dirList))
    (huuid : remote.taskUuid ≠ []) (hbody : body ≠ []) (tasks : List InternalTask) :
    postInternalDirTask parse remote.taskUuid .APPLICATION_JSON body tasks =
      .ok (codeUuidJson .S_SUCCESS remote.taskUuid,
        internalAdd remote.taskUuid (remote.body dirList) tasks) := by
  have hsame : sameUuid remote.taskUuid (.str remote.taskUuid) = true := decide_eq_true rfl
  have hjson : (remote.body dirList).get? "uuid" = some (.str remote.taskUuid) := rfl
  have hdirs : (remote.body dirList).get? "dirs" = some (.arr (dirList.map .str)) := rfl
  unfold postInternalDirTask
  rw [if_neg huuid, if_neg (not_not.mpr rfl), if_neg hbody, hparse]
  simp only [bind, Except.bind, hjson, hdirs, hsame, if_true]
  rfl

namespace Polls

section Machine

variable {P R : Type} [DecidableEq P] (resolve : Address → P) (remote : R → Remote)

/-- What a request or a worker asks of an executor. A content polls after a `POST`. -/
def asks (s : Polls P R) : PollEvent P R → Option (P × ExecEvent)
  | .post _ _ => none
  | .arrive r n => (s.posts r)[n]?.map fun json =>
      ((remote r).process resolve, .add (remote r).taskUuid json)
  | .poll r =>
    if s.posts r = [] then none else some ((remote r).process resolve, .get (remote r).taskUuid)
  | .worker a e => if e.isWorker then some (a, e) else none

/-- A step of the executor in `a`. -/
def execute (s : Polls P R) (a : P) (e : ExecEvent) : Option (Polls P R × PollOutput P) :=
  ((s.executors a).step e).map fun r =>
    ({ s with executors := Function.update s.executors a r.1 }, .executed a e r.2)

variable [DecidableEq R]

/-- `do_dir_list_attr` -/
def post (s : Polls P R) (r : R) (dirList : List Bytes) : Polls P R :=
  { s with posts := Function.update s.posts r (s.posts r ++ [(remote r).body dirList]) }

/-- One step. -/
def step (s : Polls P R) : PollEvent P R → Option (Polls P R × PollOutput P)
  | .post r dirList => some (s.post remote r dirList, .made)
  | e => (s.asks resolve remote e).bind fun ask => s.execute ask.1 ask.2

def start : Polls P R := ⟨fun _ => [], fun _ => Executor.start⟩

/-- The contents `remote`, the executors and what is between them. -/
def machine : Machine (Polls P R) (PollEvent P R) (PollOutput P) := ⟨start, step resolve remote⟩

end Machine

/-! ### What was sent and what was handed out -/

variable {P R : Type} [DecidableEq P] {resolve : Address → P} {remote : R → Remote}

/-- The steps of the executor in `a`. -/
def stepsAt (a : P) (h : List (PollEvent P R × PollOutput P)) : List (ExecEvent × ExecOutput) :=
  h.filterMap fun x =>
    match x.2 with
    | .made => none
    | .executed a' e o => if a' = a then some (e, o) else none

variable (resolve remote) in
/-- The requests that have arrived in `a` under a uuid: the number of the task, the content
and the number of its request. -/
def arrived (a : P) (uuid : Bytes) (h : List (PollEvent P R × PollOutput P)) :
    List (Nat × R × Nat) :=
  h.filterMap fun x =>
    match x with
    | (.arrive r n, .executed _ _ (.added id)) =>
      if (remote r).process resolve = a ∧ (remote r).taskUuid = uuid then some (id, r, n)
      else none
    | _ => none

theorem stepsAt_concat (a : P) (h : List (PollEvent P R × PollOutput P))
    (x : PollEvent P R × PollOutput P) : stepsAt a (h ++ [x]) = stepsAt a h ++ stepsAt a [x] :=
  List.filterMap_append

theorem stepsAt_executed (a a' : P) (e : PollEvent P R) (ask : ExecEvent) (o : ExecOutput) :
    stepsAt a' [(e, .executed a ask o)] = if a = a' then [(ask, o)] else [] := by
  by_cases ha : a = a'
  · simp [stepsAt, ha]
  · simp [stepsAt, ha]

theorem arrived_concat (a : P) (uuid : Bytes) (h : List (PollEvent P R × PollOutput P))
    (x : PollEvent P R × PollOutput P) :
    arrived resolve remote a uuid (h ++ [x]) =
      arrived resolve remote a uuid h ++ arrived resolve remote a uuid [x] :=
  List.filterMap_append

/-- The number of answers that were handed out in `a` under a uuid. -/
def handedOut (a : P) (uuid : Bytes) (h : List (PollEvent P R × PollOutput P)) : Nat :=
  (Executor.erasuresOf uuid (stepsAt a h)).length

variable (resolve remote) in
/-- A step does right: an answer that a poll gets is the answer to the last request of its
own content. -/
def Own (h : List (PollEvent P R × PollOutput P)) (s : Polls P R) (e : PollEvent P R)
    (o : PollOutput P) (_ : Polls P R) : Prop :=
  ∀ r a get json id, e = .poll r → o = .executed a get (.got .S_SUCCESS json (some id)) →
    ∃ n body, (s.posts r).length = n + 1 ∧ (s.posts r)[n]? = some body ∧
      (id, r, n) ∈ arrived resolve remote a (remote r).taskUuid h ∧
      ∃ os task' attrs, (.begin os, .begun id) ∈ stepsAt a h ∧
        InternalTask.thdWorkerTaskDirAttrList os
          (InternalTask.picked { iUuid := (remote r).taskUuid, iJson := body }) =
            .ok (task', attrs) ∧
        task'.iOutJson = json

variable (resolve remote) in
/-- A step is in turn: when the oldest request with the uuid of a polling content that was
not handed out is finished, it is the last request of this content. -/
def InTurn (h : List (PollEvent P R × PollOutput P)) (s : Polls P R) (e : PollEvent P R)
    (_ : PollOutput P) (_ : Polls P R) : Prop :=
  ∀ r id r' n, e = .poll r →
    (arrived resolve remote ((remote r).process resolve) (remote r).taskUuid h)[
      handedOut ((remote r).process resolve) (remote r).taskUuid h]? = some (id, r', n) →
    (∃ t ∈ (s.executors ((remote r).process resolve)).taskList, t.id = id ∧
      t.task.iTaskStatus = .T_TASK_OVER) →
    r' = r ∧ (s.posts r).length = n + 1

/-! ### One step -/

variable [DecidableEq R] {h : List (PollEvent P R × PollOutput P)} {s s' : Polls P R}
  {e : PollEvent P R} {o : PollOutput P}

omit [DecidableEq P] [DecidableEq R] in
theorem asks_arrive {r : R} {n : Nat} {ask : P × ExecEvent}
    (hask : s.asks resolve remote (.arrive r n) = some ask) :
    ∃ json, (s.posts r)[n]? = some json ∧
      ask = ((remote r).process resolve, .add (remote r).taskUuid json) := by
  obtain ⟨json, hjson, rfl⟩ := Option.map_eq_some_iff.mp hask
  exact ⟨json, hjson, rfl⟩

omit [DecidableEq P] [DecidableEq R] in
theorem asks_poll {r : R} {ask : P × ExecEvent}
    (hask : s.asks resolve remote (.poll r) = some ask) :
    ask = ((remote r).process resolve, .get (remote r).taskUuid) := by
  change (if s.posts r = [] then none else some _) = some ask at hask
  split at hask
  · cases hask
  · exact (Option.some.inj hask).symm

omit [DecidableEq P] [DecidableEq R] in
theorem asks_worker {a : P} {e : ExecEvent} {ask : P × ExecEvent}
    (hask : s.asks resolve remote (.worker a e) = some ask) :
    e.isWorker = true ∧ ask = (a, e) := by
  change (if e.isWorker = true then some (a, e) else none) = some ask at hask
  split at hask
  next h => exact ⟨h, (Option.some.inj hask).symm⟩
  · cases hask

/-- What one step can do. -/
inductive StepCase (resolve : Address → P) (remote : R → Remote) (s : Polls P R) :
    PollEvent P R → PollOutput P → Polls P R → Prop
  | made {r : R} {dirList : List Bytes} :
      StepCase resolve remote s (.post r dirList) .made (s.post remote r dirList)
  | executed {e : PollEvent P R} {a : P} {ask : ExecEvent} {t : Executor} {o : ExecOutput}
      (hask : s.asks resolve remote e = some (a, ask))
      (hexec : (s.executors a).step ask = some (t, o)) :
      StepCase resolve remote s e (.executed a ask o)
        { s with executors := Function.update s.executors a t }

/-- **Inversion.** A step makes a request, or is a step of one executor. -/
theorem step_cases (hstep : s.step resolve remote e = some (s', o)) :
    StepCase resolve remote s e o s' := by
  have hexecute : (s.asks resolve remote e).bind (fun ask => s.execute ask.1 ask.2) = some (s', o) →
      StepCase resolve remote s e o s' := by
    intro hbind
    obtain ⟨⟨a, ask⟩, hask, hmap⟩ := Option.bind_eq_some_iff.mp hbind
    obtain ⟨⟨t, out⟩, hexec, heq⟩ := Option.map_eq_some_iff.mp hmap
    obtain ⟨rfl, rfl⟩ := Prod.mk.inj heq
    exact .executed hask hexec
  cases e with
  | post r dirList =>
    obtain ⟨rfl, rfl⟩ := Prod.mk.inj (Option.some.inj hstep)
    exact .made
  | arrive r n => exact hexecute hstep
  | poll r => exact hexecute hstep
  | worker a e => exact hexecute hstep

/-- **Every executor takes a run of its own.** -/
theorem reach_stepsAt (hr : (machine resolve remote).Reach h s) (a : P) :
    Executor.machine.Reach (stepsAt a h) (s.executors a) := by
  refine hr.invariant (I := fun h s => Executor.machine.Reach (stepsAt a h) (s.executors a))
    .init ?_
  intro h s e s' o _ ih hstep
  rw [stepsAt_concat]
  cases step_cases hstep with
  -- a step of another executor is none of this one
  | made => exact (List.append_nil (stepsAt a h)).symm ▸ ih
  | @executed _ a' ask t out _ hexec =>
    rw [stepsAt_executed]
    by_cases ha : a' = a
    · subst ha
      rw [if_pos rfl]
      change Executor.machine.Reach _ (Function.update s.executors a' t a')
      rw [Function.update_self]
      exact ih.snoc hexec
    · rw [if_neg ha, List.append_nil]
      change Executor.machine.Reach _ (Function.update s.executors a' t a)
      rw [Function.update_of_ne (Ne.symm ha)]
      exact ih

omit [DecidableEq R] in
/-- What a step of an executor adds to the requests that have arrived: the request it was
asked to add, if any. -/
theorem map_arrived_executed {a : P} {ask : ExecEvent}
    (hask : s.asks resolve remote e = some (a, ask)) (o : ExecOutput) (a' : P) (uuid : Bytes) :
    (arrived resolve remote a' uuid [(e, .executed a ask o)]).map Prod.fst =
      Executor.addsOf uuid (stepsAt a' [(e, .executed a ask o)]) := by
  rw [stepsAt_executed]
  cases e with
  | post r dirList => cases hask
  | arrive r n =>
    obtain ⟨json, -, heq⟩ := asks_arrive hask
    obtain ⟨rfl, rfl⟩ := Prod.mk.inj heq
    cases o with
    | added id =>
      -- the request counts where it went and under the uuid it carries
      by_cases ha : (remote r).process resolve = a'
      · by_cases hu : (remote r).taskUuid = uuid
        · simp [arrived, Executor.addsOf, ha, hu]
        · simp [arrived, Executor.addsOf, ha, hu]
      · simp [arrived, Executor.addsOf, ha]
    | _ => split <;> rfl
  | poll r =>
    obtain ⟨rfl, rfl⟩ := Prod.mk.inj (asks_poll hask)
    split <;> rfl
  | worker a'' e =>
    obtain ⟨hworker, heq⟩ := asks_worker hask
    obtain ⟨rfl, rfl⟩ := Prod.mk.inj heq
    cases ask with
    | add => cases hworker
    | _ => split <;> rfl

/-- The requests that have arrived are the tasks that were added. -/
theorem map_arrived (hr : (machine resolve remote).Reach h s) (a : P) (uuid : Bytes) :
    (arrived resolve remote a uuid h).map Prod.fst = Executor.addsOf uuid (stepsAt a h) := by
  refine hr.invariant (I := fun h _ => (arrived resolve remote a uuid h).map Prod.fst =
    Executor.addsOf uuid (stepsAt a h)) rfl ?_
  intro h s e s' o _ ih hstep
  rw [arrived_concat, List.map_append, ih, stepsAt_concat]
  cases step_cases hstep with
  | made =>
    change _ ++ [] = Executor.addsOf uuid (stepsAt a h ++ [])
    rw [List.append_nil, List.append_nil]
  | executed hask _ =>
    rw [map_arrived_executed hask, Executor.addsOf, Executor.addsOf, Executor.addsOf,
      List.filterMap_append]

omit [DecidableEq R] in
theorem mem_arrived_executed {a a' : P} {ask : ExecEvent} {out : ExecOutput} {uuid : Bytes}
    {id n : Nat} {r : R}
    (hmem : (id, r, n) ∈ arrived resolve remote a uuid [(e, .executed a' ask out)]) :
    e = .arrive r n ∧ out = .added id ∧ (remote r).process resolve = a ∧
      (remote r).taskUuid = uuid := by
  cases e with
  | arrive r' n' =>
    cases out with
    | added id' =>
      by_cases h : (remote r').process resolve = a ∧ (remote r').taskUuid = uuid
      · have hone : arrived resolve remote a uuid [(.arrive r' n', .executed a' ask (.added id'))] =
            [(id', r', n')] := by simp [arrived, h]
        rw [hone, List.mem_singleton] at hmem
        obtain ⟨rfl, rfl, rfl⟩ : id = id' ∧ r = r' ∧ n = n' := by simpa using hmem
        exact ⟨rfl, rfl, h⟩
      · have hnone : arrived resolve remote a uuid [(.arrive r' n', .executed a' ask (.added id'))] =
            [] := by simp [arrived, h]
        rw [hnone] at hmem
        cases hmem
    | _ => cases hmem
  | _ => cases hmem

/-- The numbers of the requests that have arrived are below the number of tasks added. -/
theorem lt_added_of_arrived (hr : (machine resolve remote).Reach h s) {a : P} {uuid : Bytes}
    {id n : Nat} {r : R} (hmem : (id, r, n) ∈ arrived resolve remote a uuid h) :
    id < (s.executors a).added := by
  have hid : id ∈ Executor.addsOf uuid (stepsAt a h) := by
    rw [← map_arrived hr a uuid]
    exact List.mem_map_of_mem hmem
  have hadds := (Executor.addsOf_sublist uuid _).subset hid
  rw [(Executor.inv_of_reach (reach_stepsAt hr a)).added_eq] at hadds
  exact List.mem_range.mp hadds

omit [DecidableEq P] in
/-- A request that was made stays where it is. -/
theorem getElem?_post {r : R} {n : Nat} {json : Json} (hjson : (s.posts r)[n]? = some json) (r' : R)
    (dirList : List Bytes) : ((s.post remote r' dirList).posts r)[n]? = some json := by
  change (Function.update s.posts r' (s.posts r' ++ [_]) r)[n]? = some json
  by_cases hr : r = r'
  · subst hr
    rw [Function.update_self]
    exact List.getElem?_append_left (List.getElem?_eq_some_iff.mp hjson).1 ▸ hjson
  · rw [Function.update_of_ne hr]
    exact hjson

omit [DecidableEq R] in
/-- A task after a step of one executor is in its list, or elsewhere and was there before. -/
theorem mem_update_cases {a a' : P} {q : Executor} {t : Entry}
    (ht : t ∈ (Function.update s.executors a' q a).taskList) :
    (a = a' ∧ t ∈ q.taskList) ∨ t ∈ (s.executors a).taskList := by
  by_cases ha : a = a'
  · subst ha
    rw [Function.update_self] at ht
    exact Or.inl ⟨rfl, ht⟩
  · rw [Function.update_of_ne ha] at ht
    exact Or.inr ht

/-- The task of a request that arrives is the one with its number. -/
theorem request_of_add (hr : (machine resolve remote).Reach h s) {a : P} {uuid : Bytes}
    {json : Json} {q : Executor} {id : Nat}
    (hexec : (s.executors a).step (.add uuid json) = some (q, .added id))
    {t : Entry} (ht : t ∈ q.taskList) (hid : t.id = id) :
    t.task.request = { iUuid := uuid, iJson := json } := by
  obtain ⟨t₀, ht₀, hid₀, -⟩ | ⟨u, j, hadd, -, -, hreq⟩ := Executor.mem_step hexec ht
  · -- the tasks that were there before have smaller numbers
    have hlt := (Executor.inv_of_reach (reach_stepsAt hr a)).fresh t₀ ht₀
    have hadded : id = (s.executors a).added := by
      cases Executor.step_cases hexec with
      | added => rfl
    exact absurd (hid₀.trans hid ▸ hadded ▸ hlt) (Nat.lt_irrefl _)
  · obtain ⟨rfl, rfl⟩ := ExecEvent.add.inj hadd
    exact hreq

/-- **A task is the request that brought it.** -/
theorem request_of_arrived (hr : (machine resolve remote).Reach h s) {a : P} {uuid : Bytes}
    {id n : Nat} {r : R} (hmem : (id, r, n) ∈ arrived resolve remote a uuid h) {t : Entry}
    (ht : t ∈ (s.executors a).taskList) (hid : t.id = id) :
    ∃ json, (s.posts r)[n]? = some json ∧
      t.task.request = { iUuid := uuid, iJson := json } := by
  revert a uuid id n r t
  induction hr with
  | init =>
    intro a uuid id n r hmem
    cases hmem
  | @snoc h s s' e o hr hstep ih =>
    intro a uuid id n r hmem t ht hid
    rw [arrived_concat] at hmem
    cases step_cases hstep with
    | @made r' dirList =>
      obtain ⟨json, hjson, hreq⟩ := ih (by simpa [arrived] using hmem) ht hid
      exact ⟨json, getElem?_post hjson r' dirList, hreq⟩
    | @executed _ a' ask q out hask hexec =>
      rcases List.mem_append.mp hmem with hold | hnew
      · -- the request is not the one that was added just now
        obtain ⟨rfl, hq⟩ | hother := mem_update_cases ht
        · obtain ⟨t₀, ht₀, hid₀, hreq⟩ | ⟨_, _, _, _, hadded, _⟩ := Executor.mem_step hexec hq
          · rw [← hreq]
            exact ih hold ht₀ (hid₀.trans hid)
          · exact absurd (hid ▸ hadded ▸ lt_added_of_arrived hr hold) (Nat.lt_irrefl _)
        · exact ih hold hother hid
      · obtain ⟨rfl, rfl, rfl, rfl⟩ := mem_arrived_executed hnew
        obtain ⟨json, hjson, heq⟩ := asks_arrive hask
        obtain ⟨rfl, rfl⟩ := Prod.mk.inj heq
        change t ∈ (Function.update s.executors _ q _).taskList at ht
        rw [Function.update_self] at ht
        exact ⟨json, hjson, request_of_add hr hexec ht hid⟩

/-! ### Whole runs -/

/-- The oldest request that was not handed out is the first task of the list. -/
theorem oldest (hr : (machine resolve remote).Reach h s) (a : P) (uuid : Bytes) :
    ((arrived resolve remote a uuid h)[handedOut a uuid h]?).map Prod.fst =
      (Executor.idsOf uuid (s.executors a).taskList).head? := by
  rw [← List.getElem?_map, map_arrived hr, Executor.order (reach_stepsAt hr a), handedOut,
    List.getElem?_append_right le_rfl, Nat.sub_self, List.head?_eq_getElem?]

/-- A number is that of one request. -/
theorem eq_of_arrived (hr : (machine resolve remote).Reach h s) {a : P} {uuid : Bytes} {id : Nat}
    {x y : R × Nat} (hx : (id, x) ∈ arrived resolve remote a uuid h)
    (hy : (id, y) ∈ arrived resolve remote a uuid h) : x = y := by
  have hnodup : ((arrived resolve remote a uuid h).map Prod.fst).Nodup := by
    rw [map_arrived hr]
    refine (Executor.addsOf_sublist uuid _).nodup ?_
    rw [(Executor.inv_of_reach (reach_stepsAt hr a)).added_eq]
    exact List.nodup_range
  exact congrArg Prod.snd (List.inj_on_of_nodup_map hnodup hx hy rfl)

/-- The poll that finds a task at `e₀`, behind others under other uuids. -/
theorem head?_idsOf {uuid : Bytes} {l₁ l₂ : List Entry} {e₀ : Entry}
    (hne : ∀ e ∈ l₁, e.task.iUuid ≠ uuid) (huuid : e₀.task.iUuid = uuid) :
    (Executor.idsOf uuid (l₁ ++ e₀ :: l₂)).head? = some e₀.id := by
  rw [Executor.idsOf_append, Executor.idsOf_eq_nil hne, Executor.idsOf_cons, if_pos huuid]
  rfl

/-- At a poll, doing right and being in turn are the same. -/
theorem own_iff_of_get (hr : (machine resolve remote).Reach h s) {r : R} {t : Executor}
    {out : ExecOutput} (hget :
      Executor.GetCase (s.executors ((remote r).process resolve)) (remote r).taskUuid t out) :
    Own resolve remote h s (.poll r)
        (.executed ((remote r).process resolve) (.get (remote r).taskUuid) out) s' ↔
      InTurn resolve remote h s (.poll r)
        (.executed ((remote r).process resolve) (.get (remote r).taskUuid) out) s' := by
  have hinv := Executor.inv_of_reach (reach_stepsAt hr ((remote r).process resolve))
  have hold := oldest hr ((remote r).process resolve) (remote r).taskUuid
  cases hget with
  | notFound hne =>
    constructor
    · intro _ r' id r'' n he hfirst _
      cases he
      rw [Executor.idsOf_eq_nil hne, hfirst] at hold
      cases hold
    · intro _ r' a get json id _ ho
      cases ho
  | @retry l₁ l₂ e₀ hlist hne huuid hstatus =>
    constructor
    · -- the oldest request is not finished
      rintro _ r' id r'' n he hfirst ⟨t, ht, hid, hover⟩
      cases he
      rw [hlist, head?_idsOf hne huuid, hfirst] at hold
      have he₀ : e₀ ∈ (s.executors ((remote r).process resolve)).taskList :=
        hlist ▸ List.mem_append_right _ List.mem_cons_self
      have heq := Executor.eq_of_id hinv.nodup ht he₀ (hid.trans (Option.some.inj hold))
      exact absurd (heq ▸ hover) hstatus
    · intro _ r' a get json id _ ho
      cases ho
  | @erased l₁ l₂ e₀ hlist hne huuid hstatus =>
    rw [hlist, head?_idsOf hne huuid] at hold
    obtain ⟨⟨id, r', n'⟩, hfirst, hid⟩ := Option.map_eq_some_iff.mp hold
    obtain rfl : id = e₀.id := hid
    have hmem := List.mem_of_getElem? hfirst
    have he₀ : e₀ ∈ (s.executors ((remote r).process resolve)).taskList :=
      hlist ▸ List.mem_append_right _ List.mem_cons_self
    constructor
    · -- the answer belongs to one request only
      intro hown r₁ id₁ r₂ n₂ he hfirst' _
      cases he
      obtain ⟨rfl, rfl, rfl⟩ : e₀.id = id₁ ∧ r' = r₂ ∧ n' = n₂ := by
        simpa using hfirst.symm.trans hfirst'
      obtain ⟨n, body, hlen, -, hmine, -⟩ := hown r _ _ _ _ rfl rfl
      obtain ⟨rfl, rfl⟩ := Prod.mk.inj (eq_of_arrived hr hmem hmine)
      exact ⟨rfl, hlen⟩
    · -- the finished task that is handed out is the oldest, and its request the last one
      intro hturn r₁ a₁ get json id he ho
      cases he
      cases ho
      obtain ⟨rfl, hlen⟩ := hturn r _ _ _ rfl hfirst ⟨e₀, he₀, rfl, hstatus⟩
      obtain ⟨body, hbody, hreq⟩ := request_of_arrived hr hmem he₀ rfl
      obtain ⟨os, hbegun, task', attrs, hrun, hjson⟩ := (hinv.life e₀ he₀).of_over hstatus
      exact ⟨n', body, hlen, hbody, hmem, os, task', attrs, hbegun, hreq ▸ hrun, hjson⟩

/-- At a step of a run, doing right and being in turn are the same. -/
theorem own_iff_inTurn (hr : (machine resolve remote).Reach h s)
    (hstep : (machine resolve remote).step s e = some (s', o)) :
    Own resolve remote h s e o s' ↔ InTurn resolve remote h s e o s' := by
  by_cases hpoll : ∃ r, e = .poll r
  · obtain ⟨r, rfl⟩ := hpoll
    have hcase : StepCase resolve remote s (.poll r) o s' := step_cases hstep
    cases hcase with
    | executed hask hexec =>
      obtain ⟨rfl, rfl⟩ := Prod.mk.inj (asks_poll hask)
      cases Executor.step_cases hexec with
      | got hget => exact own_iff_of_get hr hget
  · -- both speak of polls only
    constructor
    · intro _ r _ _ _ he
      exact absurd ⟨r, he⟩ hpoll
    · intro _ r _ _ _ _ he
      exact absurd ⟨r, he⟩ hpoll

/-- **Polls get their own answers exactly in the runs where they are in turn.** Whatever the
contents and the workers do, whichever processes the addresses lead to, and whenever and
however often the requests arrive: every poll that gets an answer gets the one to the last
request of its own content if and only if, whenever the oldest request with the uuid of a
polling content that was not handed out is finished, it is that request. -/
theorem answers_own_iff (resolve : Address → P) (remote : R → Remote)
    (h : List (PollEvent P R × PollOutput P)) :
    (machine resolve remote).Always (Own resolve remote) h ↔
      (machine resolve remote).Always (InTurn resolve remote) h :=
  Machine.always_congr (fun _ _ _ _ _ hr hstep => own_iff_inTurn hr hstep) h

/-! ### Two contents of one address -/

/-- A server of the task below. All three are at one address. -/
def sharedServer (baseDir : String) (standard : Bool) : ServerInfo where
  center := ascii "m1"
  host := ascii "localhost"
  user := ascii "admin"
  password := ascii "admin"
  port := 8888
  standard := standard
  excludedFileRegex := []
  baseDir := ascii baseDir
  pathToCompare := ascii "/tmp"

/-- A task with two remote contents. -/
def sharedTask : DcApiTask where
  taskUuid := ascii "t"
  serverInfoArr :=
    [sharedServer "/std" true, sharedServer "/a" false, sharedServer "/b" false]
  resultType := 0
  excludedFileRegex := []
  stdIdx := 0
  compareResultJson := .null

/-- An element of its `servers`. -/
def sharedItem (baseDir : String) (standard : CJson) : CJson :=
  .object [(ascii "center", .string (ascii "m1")), (ascii "host", .string (ascii "localhost")),
    (ascii "user", .string (ascii "admin")), (ascii "password", .string (ascii "admin")),
    (ascii "port", .number 8888 (.fin 8888)), (ascii "standard", standard),
    (ascii "path_to_compare", .string (ascii "/tmp")),
    (ascii "base_dir", .string (ascii baseDir))]

/-- Its document. -/
def sharedRoot : CJson :=
  .object [(ascii "uuid", .string (ascii "t")),
    (ascii "servers", .array [sharedItem "/std" .true, sharedItem "/a" .false,
      sharedItem "/b" .false])]

/-- The text of an element. -/
def sharedItemText (baseDir standard : String) : Bytes :=
  ascii "\x7b\"center\":\"m1\",\"host\":\"localhost\",\"user\":\"admin\"," ++
    ascii "\"password\":\"admin\",\"port\":8888,\"standard\":" ++ ascii standard ++
    ascii ",\"path_to_compare\":\"/tmp\",\"base_dir\":\"" ++ ascii baseDir ++ ascii "\"\x7d"

/-- The text of the document. -/
def sharedText : Bytes :=
  ascii "\x7b\"uuid\":\"t\",\"servers\":[" ++ sharedItemText "/std" "true" ++ ascii "," ++
    sharedItemText "/a" "false" ++ ascii "," ++ sharedItemText "/b" "false" ++ ascii "]\x7d"

/-- The two contents of the task. -/
def sharedRemote (r : Fin 2) : Remote := sharedTask.remotes.get r

/-- Both send a list, and the worker answers the first. -/
def sharedEvents : List (PollEvent Address (Fin 2)) :=
  let a : Address := (ascii "localhost", 8888)
  [.post 0 [ascii "d"], .post 1 [ascii "d"], .arrive 0 0, .arrive 1 0, .worker a .pick,
    .worker a (.begin Os.directories), .worker a .write, .worker a .write, .worker a .write,
    .worker a .setOver]

/-- A poll of the second content then gets the answer to the first. -/
theorem not_own_shared :
    ¬ ∀ (P : Type) [DecidableEq P] (resolve : Address → P) (taskContent : Bytes)
        (root : Option CJson) (task : DcApiTask), buildTaskFromJson taskContent root = .ok task →
      ∀ h s, (machine resolve task.remotes.get).Reach h s →
        (machine resolve task.remotes.get).Always (Own resolve task.remotes.get) h := by
  intro hall
  have hpos : 0 < sharedText.length := List.length_pos_iff.mpr (by simp [sharedText, ascii])
  have hassert : dcCommonAssert (0 < sharedText.length) = .ok () := if_pos (decide_eq_true hpos)
  have hbuild : buildTaskFromJson sharedText (some sharedRoot) = .ok sharedTask := by
    rw [buildTaskFromJson, hassert]
    rfl
  have hown : ∀ h s, (machine id sharedRemote).Reach h s →
      (machine id sharedRemote).Always (Own id sharedRemote) h := hall Address id _ _ _ hbuild
  -- the task of the first content is over, and nothing was handed out
  have hrun : ((machine id sharedRemote).run? sharedEvents).any (fun r =>
      decide ((arrived id sharedRemote (ascii "localhost", 8888) (ascii "t") r.1)[
          handedOut (ascii "localhost", 8888) (ascii "t") r.1]? = some (0, 0, 0)) &&
        ((r.2.executors (ascii "localhost", 8888)).taskList.any fun t =>
          decide (t.id = 0 ∧ t.task.iTaskStatus = .T_TASK_OVER)) &&
        (r.2.step id sharedRemote (.poll 1)).isSome) = true := by
    rfl
  obtain ⟨h, s, hr, hcheck⟩ := Machine.exists_reach_of_run? hrun
  rw [Bool.and_eq_true, Bool.and_eq_true, Option.isSome_iff_exists, List.any_eq_true] at hcheck
  obtain ⟨⟨hfirst, t, ht, hover⟩, ⟨s', o⟩, hstep⟩ := hcheck
  have hstep : (machine id sharedRemote).step s (.poll 1) = some (s', o) := hstep
  have hturn := (own_iff_inTurn hr hstep).mp
    ((Machine.always_snoc hr hstep).mp (hown _ _ (hr.snoc hstep))).2
  obtain ⟨hwho, -⟩ := hturn 1 0 0 0 rfl (of_decide_eq_true hfirst)
    ⟨t, ht, of_decide_eq_true hover⟩
  exact absurd hwho (by decide)

end Polls

end Wfrest
