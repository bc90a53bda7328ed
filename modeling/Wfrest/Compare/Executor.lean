import Mathlib.Data.List.Nodup
import Wfrest.Compare.Accepted
import Wfrest.Lib.Parties
import Wfrest.Lib.Run

/-!
# The internal executor

`dc_internal_executor_t` is shared by the handlers, which add tasks and fetch their
answers, and by a worker thread, which runs one task after the other. The list is under a
lock, but the worker writes the answer of a task outside of it, through a reference into the
list that the handlers erase from.

What makes this safe is the life of a task (`Life`): it is `T_TASK_INIT` until it is picked,
`T_TASK_RUNNING` exactly as long as the worker holds it, and `T_TASK_OVER` from then on, when
its answer is complete; and only a task that is over is erased.

* An entry carries the number of the `add` that brought it. Nothing reads it but the
  reference of the worker, which it stands for.
* A step of the worker that ends in a failed assertion or in an exception does not happen,
  and the run stops there.
-/

namespace Wfrest

/-! ### Writing the answer -/

/-- A write to `i_out_json`. -/
inductive OutWrite where
  /-- `i_out_json[key] = value` -/
  | set (key : String) (value : Json)
  /-- `i_out_json["dirs"].push_back(value)` -/
  | pushBack (value : Json)

/-- What a write makes of the answer. -/
def OutWrite.apply (out : Json) : OutWrite → Json
  | .set key value => out.set key value
  | .pushBack value => out.set "dirs" (.arr (((out.get? "dirs").getD .null).items ++ [value]))

namespace InternalTask

/-- The writes of `thd_worker_task_dir_attr_list`, in their order. -/
def outWrites (os : Os) (task : InternalTask) : Except Fault (List OutWrite) := do
  assertFault (task.iTaskStatus = .T_TASK_RUNNING)
  assertFault (task.iJson.get? "uuid").isSome
  assertFault (task.iJson.get? "dirs").isSome
  assertFault (task.iJson.get? "base_dir").isSome
  let baseDir ← (← task.iJson.at? "base_dir").asString
  let uuid ← task.iJson.at? "uuid"
  if os.chdir (cStr baseDir) then
    let attrs ← dirsAttr os 0 (← task.iJson.at? "dirs").items
    return .set "uuid" uuid :: .set "error" (codeJson .S_SUCCESS) ::
      attrs.map fun attr => .pushBack (attrJson attr)
  else return [.set "error" (codeJson .E_OS_ENV_CHDIR), .set "uuid" uuid]

/-- The task as it was added. -/
def request (task : InternalTask) : InternalTask := { iUuid := task.iUuid, iJson := task.iJson }

/-- Pushing the records one by one gives the array of all. -/
theorem foldl_pushBack {α : Type} (f : α → Json) (attrs : List α) (out : Json)
    (written : List Json) :
    (attrs.map fun attr => OutWrite.pushBack (f attr)).foldl OutWrite.apply
        (out.set "dirs" (.arr written)) =
      out.set "dirs" (.arr (written ++ attrs.map f)) := by
  induction attrs generalizing written with
  | nil => simp
  | cons attr attrs ih =>
    have hpush : OutWrite.apply (out.set "dirs" (.arr written)) (.pushBack (f attr)) =
        out.set "dirs" (.arr (written ++ [f attr])) := by
      rw [OutWrite.apply, Json.get?_set_self, Json.set_set]
      rfl
    rw [List.map_cons, List.foldl_cons, hpush, ih, List.map_cons, List.append_assoc]
    rfl

/-- The writes of a list of records. -/
theorem foldl_outJson (uuid : Json) (attrs : List FileAttr) :
    ((OutWrite.set "uuid" uuid :: .set "error" (codeJson .S_SUCCESS) ::
        attrs.map fun attr => .pushBack (attrJson attr)).foldl OutWrite.apply .null) =
      outJson uuid attrs := by
  rw [List.foldl_cons, List.foldl_cons]
  unfold outJson
  cases attrs with
  | nil => rfl
  | cons attr attrs =>
    -- the first push finds no `dirs`
    have hnone : ((Json.null.set "uuid" uuid).set "error" (codeJson .S_SUCCESS)).get? "dirs" =
        none := by
      simp only [Json.get?_set]
      rfl
    have hpush : OutWrite.apply ((Json.null.set "uuid" uuid).set "error" (codeJson .S_SUCCESS))
        (.pushBack (attrJson attr)) =
          ((Json.null.set "uuid" uuid).set "error" (codeJson .S_SUCCESS)).set "dirs"
            (.arr [attrJson attr]) := by
      rw [OutWrite.apply, hnone]
      rfl
    change ((attr :: attrs).map fun attr => OutWrite.pushBack (attrJson attr)).foldl
      OutWrite.apply ((Json.null.set "uuid" uuid).set "error" (codeJson .S_SUCCESS)) = _
    rw [if_neg (List.cons_ne_nil _ _), List.map_cons, List.foldl_cons, hpush, foldl_pushBack]
    rfl

/-- **The writes give the answer.** -/
theorem outWrites_spec {os : Os} {task : InternalTask} {writes : List OutWrite}
    (h : task.outWrites os = .ok writes) :
    ∃ task' attrs, task.thdWorkerTaskDirAttrList os = .ok (task', attrs) ∧
      task'.iOutJson = writes.foldl OutWrite.apply .null := by
  obtain ⟨u₁, h₁, h⟩ := bind_eq_ok.mp h
  obtain ⟨u₂, h₂, h⟩ := bind_eq_ok.mp h
  obtain ⟨u₃, h₃, h⟩ := bind_eq_ok.mp h
  obtain ⟨u₄, h₄, h⟩ := bind_eq_ok.mp h
  obtain ⟨base, hbase, h⟩ := bind_eq_ok.mp h
  obtain ⟨baseDir, hstr, h⟩ := bind_eq_ok.mp h
  obtain ⟨uuid, huuid, h⟩ := bind_eq_ok.mp h
  -- up to here the two run side by side
  have hrun : ∀ {r}, _ = Except.ok r → task.thdWorkerTaskDirAttrList os = .ok r := fun hr =>
    bind_eq_ok.mpr ⟨u₁, h₁, bind_eq_ok.mpr ⟨u₂, h₂, bind_eq_ok.mpr ⟨u₃, h₃, bind_eq_ok.mpr
      ⟨u₄, h₄, bind_eq_ok.mpr ⟨base, hbase, bind_eq_ok.mpr ⟨baseDir, hstr, bind_eq_ok.mpr
        ⟨uuid, huuid, hr⟩⟩⟩⟩⟩⟩⟩
  by_cases hchdir : os.chdir (cStr baseDir) = true
  · simp only [if_pos hchdir] at h hrun
    obtain ⟨dirs, hdirs, h⟩ := bind_eq_ok.mp h
    obtain ⟨attrs, hattrs, h⟩ := bind_eq_ok.mp h
    obtain rfl := Except.ok.inj h
    exact ⟨_, attrs, hrun (bind_eq_ok.mpr ⟨dirs, hdirs, bind_eq_ok.mpr ⟨attrs, hattrs, rfl⟩⟩),
      (foldl_outJson uuid attrs).symm⟩
  · simp only [if_neg hchdir] at h hrun
    obtain rfl := Except.ok.inj h
    exact ⟨_, [], hrun rfl, rfl⟩

/-- What the worker writes depends on the request alone. -/
theorem outWrites_request {os : Os} {task : InternalTask}
    (hrun : task.iTaskStatus = .T_TASK_RUNNING) :
    task.outWrites os = task.request.picked.outWrites os := by
  cases task
  cases hrun
  rfl

end InternalTask

/-! ### The executor -/

/-- An element of `task_list_`. -/
structure Entry where
  /-- The number of the `add` that brought it. -/
  id : Nat
  task : InternalTask

/-- Where the worker stands. -/
inductive ExecWorker where
  | idle
  /-- `thd_worker_pick_task_to_run` has returned a reference to the task `id`. -/
  | picked (id : Nat)
  /-- It has `rest` left to write to the answer of the task `id`. -/
  | filling (id : Nat) (rest : List OutWrite)

/-- The task that the worker has a reference to. -/
def ExecWorker.held : ExecWorker → Option Nat
  | idle => none
  | picked id => some id
  | filling id _ => some id

/-- `dc_internal_executor_t` with its worker. -/
structure Executor where
  taskList : List Entry
  worker : ExecWorker
  /-- The number of `add` calls so far. -/
  added : Nat

/-- A call of a handler, or a step of the worker. -/
inductive ExecEvent where
  | add (uuid : Bytes) (json : Json)
  | get (uuid : Bytes)
  | pick
  /-- The worker asserts, changes the directory and reads it; `os` is what it finds. -/
  | begin (os : Os)
  | write
  | setOver

inductive ExecOutput where
  | added (id : Nat)
  /-- The code and the json of a `get`, and the task that it erased. -/
  | got (ret : DcCommonCode) (resultJson : Json) (erased : Option Nat)
  | picked (id : Nat)
  | begun (id : Nat)
  | written
  | setOver (id : Nat)

namespace Executor

/-- A write through a reference to the task `id`. -/
def update (id : Nat) (f : InternalTask → InternalTask) (taskList : List Entry) : List Entry :=
  taskList.map fun e => if e.id = id then { e with task := f e.task } else e

/-- `dc_internal_executor_t::add` -/
def add (s : Executor) (uuid : Bytes) (json : Json) : Executor × ExecOutput :=
  ({ s with
    taskList := s.taskList ++ [⟨s.added, { iUuid := uuid, iJson := json }⟩]
    added := s.added + 1 }, .added s.added)

/-- `dc_internal_executor_t::get` -/
def get (s : Executor) (uuid : Bytes) : Executor × ExecOutput :=
  match s.taskList.find? fun e => e.task.iUuid = uuid with
  | none => (s, .got .E_NOT_FOUND .null none)
  | some e =>
    if e.task.iTaskStatus = .T_TASK_OVER then
      ({ s with taskList := s.taskList.eraseP fun e => e.task.iUuid = uuid },
        .got .S_SUCCESS e.task.iOutJson (some e.id))
    else (s, .got .E_DC_CONTENT_RETRY .null none)

/-- `thd_worker_pick_task_to_run`, once there is a task to run. -/
def pick (s : Executor) : Option (Executor × ExecOutput) :=
  (s.taskList.find? fun e => e.task.iTaskStatus = .T_TASK_INIT).map fun e =>
    ({ s with
      taskList := update e.id InternalTask.picked s.taskList
      worker := .picked e.id }, .picked e.id)

/-- The first part of `thd_worker_task_dir_attr_list`, which only reads the task. -/
def begin (s : Executor) (id : Nat) (os : Os) : Option (Executor × ExecOutput) :=
  (s.taskList.find? fun e => e.id = id).bind fun e =>
    match e.task.outWrites os with
    | .error _ => none
    | .ok writes => some ({ s with worker := .filling id writes }, .begun id)

/-- The next write. -/
def write (s : Executor) (id : Nat) (w : OutWrite) (rest : List OutWrite) : Executor :=
  { s with
    taskList := update id (fun task => { task with iOutJson := w.apply task.iOutJson }) s.taskList
    worker := .filling id rest }

/-- `thd_worker_set_task_over` -/
def setTaskOver (s : Executor) (id : Nat) : Executor :=
  { s with
    taskList := update id (fun task => { task with iTaskStatus := .T_TASK_OVER }) s.taskList
    worker := .idle }

theorem taskList_write (s : Executor) (id : Nat) (w : OutWrite) (rest : List OutWrite) :
    (s.write id w rest).taskList =
      update id (fun task => { task with iOutJson := w.apply task.iOutJson }) s.taskList := rfl

theorem taskList_setTaskOver (s : Executor) (id : Nat) :
    (s.setTaskOver id).taskList =
      update id (fun task => { task with iTaskStatus := .T_TASK_OVER }) s.taskList := rfl

/-- One step. The worker does the loop of `thd_worker_execute`. -/
def step (s : Executor) (e : ExecEvent) : Option (Executor × ExecOutput) :=
  match e, s.worker with
  | .add uuid json, _ => some (s.add uuid json)
  | .get uuid, _ => some (s.get uuid)
  | .pick, .idle => s.pick
  | .begin os, .picked id => s.begin id os
  | .write, .filling id (w :: rest) => some (s.write id w rest, .written)
  | .setOver, .filling id [] => some (s.setTaskOver id, .setOver id)
  | _, _ => none

/-- The executor as it is created. -/
def start : Executor := ⟨[], .idle, 0⟩

/-- The handlers and the worker. -/
def machine : Machine Executor ExecEvent ExecOutput := ⟨start, step⟩

/-! ### One step -/

variable {h : List (ExecEvent × ExecOutput)} {s s' : Executor} {e : ExecEvent} {o : ExecOutput}

/-- What a `get` can do. -/
inductive GetCase (s : Executor) (uuid : Bytes) : Executor → ExecOutput → Prop
  | notFound (hne : ∀ e ∈ s.taskList, e.task.iUuid ≠ uuid) :
      GetCase s uuid s (.got .E_NOT_FOUND .null none)
  | retry {l₁ l₂ : List Entry} {e : Entry} (hlist : s.taskList = l₁ ++ e :: l₂)
      (hne : ∀ e' ∈ l₁, e'.task.iUuid ≠ uuid) (huuid : e.task.iUuid = uuid)
      (hstatus : e.task.iTaskStatus ≠ .T_TASK_OVER) :
      GetCase s uuid s (.got .E_DC_CONTENT_RETRY .null none)
  | erased {l₁ l₂ : List Entry} {e : Entry} (hlist : s.taskList = l₁ ++ e :: l₂)
      (hne : ∀ e' ∈ l₁, e'.task.iUuid ≠ uuid) (huuid : e.task.iUuid = uuid)
      (hstatus : e.task.iTaskStatus = .T_TASK_OVER) :
      GetCase s uuid { s with taskList := l₁ ++ l₂ }
        (.got .S_SUCCESS e.task.iOutJson (some e.id))

theorem get_cases (s : Executor) (uuid : Bytes) : GetCase s uuid (s.get uuid).1 (s.get uuid).2 := by
  unfold get
  split
  next hfind => exact .notFound fun e he => by simpa using List.find?_eq_none.mp hfind e he
  next e hfind =>
    obtain ⟨huuid, l₁, l₂, hlist, hne⟩ := List.find?_eq_some_iff_append.mp hfind
    have huuid : e.task.iUuid = uuid := by simpa using huuid
    have hne : ∀ e' ∈ l₁, e'.task.iUuid ≠ uuid := fun e' he' => by simpa using hne e' he'
    split
    next hstatus =>
      -- what is erased is the task that was found, since none before it has the uuid
      have herase : s.taskList.eraseP (fun e => e.task.iUuid = uuid) = l₁ ++ l₂ := by
        rw [hlist, List.eraseP_append_right _ fun e' he' => by simpa using hne e' he',
          List.eraseP_cons_of_pos (by simpa using huuid)]
      rw [herase]
      exact .erased hlist hne huuid hstatus
    next hstatus => exact .retry hlist hne huuid hstatus

theorem internalGet_append {uuid : Bytes} {l₁ : List InternalTask}
    (hne : ∀ task ∈ l₁, task.iUuid ≠ uuid) (l₂ : List InternalTask) :
    internalGet uuid (l₁ ++ l₂) =
      ((internalGet uuid l₂).1, (internalGet uuid l₂).2.1, l₁ ++ (internalGet uuid l₂).2.2) := by
  induction l₁ with
  | nil => rfl
  | cons task l₁ ih =>
    obtain ⟨htask, hl₁⟩ := List.forall_mem_cons.mp hne
    rw [List.cons_append, internalGet, if_neg htask, ih hl₁]
    rfl

/-- The `add` of the executor is `internalAdd` on its tasks. -/
theorem add_eq_internalAdd (s : Executor) (uuid : Bytes) (json : Json) :
    (s.add uuid json).1.taskList.map Entry.task =
      internalAdd uuid json (s.taskList.map Entry.task) :=
  List.map_append

/-- The `get` of the executor is `internalGet` on its tasks. -/
theorem get_eq_internalGet (s : Executor) (uuid : Bytes) :
    ∃ ret json erased, (s.get uuid).2 = .got ret json erased ∧
      internalGet uuid (s.taskList.map Entry.task) =
        (ret, json, (s.get uuid).1.taskList.map Entry.task) := by
  have hcase := get_cases s uuid
  generalize (s.get uuid).1 = s' at hcase ⊢
  generalize (s.get uuid).2 = o at hcase ⊢
  -- both pass over the tasks with other uuids
  have hskip : ∀ {l : List Entry}, (∀ e ∈ l, e.task.iUuid ≠ uuid) →
      ∀ task ∈ l.map Entry.task, task.iUuid ≠ uuid := by
    intro l hne task htask
    obtain ⟨e, he, rfl⟩ := List.mem_map.mp htask
    exact hne e he
  cases hcase with
  | notFound hne =>
    have hget := internalGet_append (hskip hne) []
    rw [List.append_nil] at hget
    exact ⟨_, _, _, rfl, hget.trans (by rw [internalGet, List.append_nil])⟩
  | retry hlist hne huuid hstatus =>
    refine ⟨_, _, _, rfl, ?_⟩
    rw [hlist, List.map_append, internalGet_append (hskip hne), List.map_cons, internalGet,
      if_pos huuid, if_neg hstatus]
  | erased hlist hne huuid hstatus =>
    refine ⟨_, _, _, rfl, ?_⟩
    rw [hlist, List.map_append, internalGet_append (hskip hne), List.map_cons, internalGet,
      if_pos huuid, if_pos hstatus, List.map_append]

/-- What one step of the executor can do. -/
inductive StepCase (s : Executor) : ExecEvent → ExecOutput → Executor → Prop
  | added {uuid : Bytes} {json : Json} :
      StepCase s (.add uuid json) (.added s.added) (s.add uuid json).1
  | got {uuid : Bytes} {s' : Executor} {o : ExecOutput} (hget : GetCase s uuid s' o) :
      StepCase s (.get uuid) o s'
  | picked {e : Entry} (hidle : s.worker = .idle) (he : e ∈ s.taskList)
      (hstatus : e.task.iTaskStatus = .T_TASK_INIT) :
      StepCase s .pick (.picked e.id)
        { s with taskList := update e.id InternalTask.picked s.taskList, worker := .picked e.id }
  | begun {os : Os} {e : Entry} {writes : List OutWrite} (hworker : s.worker = .picked e.id)
      (he : e ∈ s.taskList) (hwrites : e.task.outWrites os = .ok writes) :
      StepCase s (.begin os) (.begun e.id) { s with worker := .filling e.id writes }
  | written {id : Nat} {w : OutWrite} {rest : List OutWrite}
      (hworker : s.worker = .filling id (w :: rest)) :
      StepCase s .write .written (s.write id w rest)
  | setOver {id : Nat} (hworker : s.worker = .filling id []) :
      StepCase s .setOver (.setOver id) (s.setTaskOver id)

/-- **Inversion.** A step does one of the six things above. -/
theorem step_cases (hstep : s.step e = some (s', o)) : StepCase s e o s' := by
  unfold step at hstep
  split at hstep
  · obtain ⟨rfl, rfl⟩ := Prod.mk.inj (Option.some.inj hstep)
    exact .added
  · obtain ⟨rfl, rfl⟩ := Prod.mk.inj (Option.some.inj hstep)
    exact .got (get_cases s _)
  next hidle =>
    obtain ⟨e, hfind, heq⟩ := Option.map_eq_some_iff.mp hstep
    obtain ⟨rfl, rfl⟩ := Prod.mk.inj heq
    exact .picked hidle (List.mem_of_find?_eq_some hfind) (by simpa using List.find?_some hfind)
  next os id hworker =>
    -- the worker finds the task it holds by its number
    obtain ⟨e, hfind, heq⟩ := Option.bind_eq_some_iff.mp hstep
    obtain rfl : e.id = id := by simpa using List.find?_some hfind
    split at heq
    · cases heq
    next writes hwrites =>
      obtain ⟨rfl, rfl⟩ := Prod.mk.inj (Option.some.inj heq)
      exact .begun hworker (List.mem_of_find?_eq_some hfind) hwrites
  next id w rest hworker =>
    obtain ⟨rfl, rfl⟩ := Prod.mk.inj (Option.some.inj hstep)
    exact .written hworker
  next id hworker =>
    obtain ⟨rfl, rfl⟩ := Prod.mk.inj (Option.some.inj hstep)
    exact .setOver hworker
  · cases hstep

/-! ### The list -/

/-- The tasks after a write to the task `id`. -/
theorem mem_update {id : Nat} {f : InternalTask → InternalTask} {l : List Entry} {e : Entry}
    (he : e ∈ update id f l) :
    (e ∈ l ∧ e.id ≠ id) ∨ ∃ e₀ ∈ l, e₀.id = id ∧ e = ⟨id, f e₀.task⟩ := by
  obtain ⟨e₀, he₀, rfl⟩ := List.mem_map.mp he
  by_cases hid : e₀.id = id
  · rw [if_pos hid]
    exact .inr ⟨e₀, he₀, hid, by rw [← hid]⟩
  · rw [if_neg hid]
    exact .inl ⟨he₀, hid⟩

/-- A write changes no number. -/
@[simp] theorem map_id_update (id : Nat) (f : InternalTask → InternalTask) (l : List Entry) :
    (update id f l).map Entry.id = l.map Entry.id := by
  unfold update
  rw [List.map_map]
  refine List.map_congr_left fun e _ => ?_
  by_cases hid : e.id = id
  · simp only [Function.comp_apply, if_pos hid]
  · simp only [Function.comp_apply, if_neg hid]

/-- A number names one task. -/
theorem eq_of_id {l : List Entry} (hnodup : (l.map Entry.id).Nodup) {e e' : Entry} (he : e ∈ l)
    (he' : e' ∈ l) (hid : e.id = e'.id) : e = e' :=
  List.inj_on_of_nodup_map hnodup he he' hid

/-! ### The life of a task -/

/-- The tasks that were added. -/
def adds (h : List (ExecEvent × ExecOutput)) : List Nat :=
  h.filterMap fun x =>
    match x.2 with
    | .added id => some id
    | _ => none

/-- The tasks that the worker has picked. -/
def picks (h : List (ExecEvent × ExecOutput)) : List Nat :=
  h.filterMap fun x =>
    match x.2 with
    | .picked id => some id
    | _ => none

/-- The tasks that a `get` has erased. -/
def erasures (h : List (ExecEvent × ExecOutput)) : List Nat :=
  h.filterMap fun x =>
    match x.2 with
    | .got _ _ erased => erased
    | _ => none

theorem adds_concat (h : List (ExecEvent × ExecOutput)) (x : ExecEvent × ExecOutput) :
    adds (h ++ [x]) = adds h ++ adds [x] := List.filterMap_append

theorem picks_concat (h : List (ExecEvent × ExecOutput)) (x : ExecEvent × ExecOutput) :
    picks (h ++ [x]) = picks h ++ picks [x] := List.filterMap_append

theorem erasures_concat (h : List (ExecEvent × ExecOutput)) (x : ExecEvent × ExecOutput) :
    erasures (h ++ [x]) = erasures h ++ erasures [x] := List.filterMap_append

/-- `json` is the whole answer that the worker had to write to the task, with what it found
when it began. -/
def Finished (h : List (ExecEvent × ExecOutput)) (e : Entry) (json : Json) : Prop :=
  ∃ os, (.begin os, .begun e.id) ∈ h ∧
    ∃ task' attrs, e.task.request.picked.thdWorkerTaskDirAttrList os = .ok (task', attrs) ∧
      task'.iOutJson = json

/-- Where a task of the list stands in its life. -/
inductive Life (h : List (ExecEvent × ExecOutput)) : ExecWorker → Entry → Prop
  | waiting {w : ExecWorker} {e : Entry} (hstatus : e.task.iTaskStatus = .T_TASK_INIT)
      (hpick : e.id ∉ picks h) (hheld : w.held ≠ some e.id) (hout : e.task.iOutJson = .null) :
      Life h w e
  | picked {e : Entry} (hstatus : e.task.iTaskStatus = .T_TASK_RUNNING)
      (hout : e.task.iOutJson = .null) : Life h (.picked e.id) e
  /-- The answer is what the writes so far have made. -/
  | filling {e : Entry} {os : Os} {done rest : List OutWrite}
      (hstatus : e.task.iTaskStatus = .T_TASK_RUNNING) (hbegun : (.begin os, .begun e.id) ∈ h)
      (hwrites : e.task.request.picked.outWrites os = .ok (done ++ rest))
      (hout : e.task.iOutJson = done.foldl OutWrite.apply .null) : Life h (.filling e.id rest) e
  | ended {w : ExecWorker} {e : Entry} (hstatus : e.task.iTaskStatus = .T_TASK_OVER)
      (hheld : w.held ≠ some e.id) (hdone : Finished h e e.task.iOutJson) : Life h w e

/-- A step that does not pick the task and does not take it from the worker, nor give it to
him, leaves its life where it was. -/
theorem Life.frame {w w' : ExecWorker} {e : Entry} {x : ExecEvent × ExecOutput}
    (hlife : Life h w e) (hpick : e.id ∉ picks [x])
    (hworker : w' = w ∨ w.held ≠ some e.id ∧ w'.held ≠ some e.id) : Life (h ++ [x]) w' e := by
  cases hlife with
  | waiting hstatus hnot hheld hout =>
    refine .waiting hstatus ?_ ?_ hout
    · rw [picks_concat, List.mem_append, not_or]
      exact ⟨hnot, hpick⟩
    · rcases hworker with rfl | ⟨-, hheld'⟩
      · exact hheld
      · exact hheld'
  | picked hstatus hout =>
    rcases hworker with rfl | ⟨hheld, -⟩
    · exact .picked hstatus hout
    · exact absurd rfl hheld
  | filling hstatus hbegun hwrites hout =>
    rcases hworker with rfl | ⟨hheld, -⟩
    · exact .filling hstatus (List.mem_append_left _ hbegun) hwrites hout
    · exact absurd rfl hheld
  | ended hstatus hheld hdone =>
    obtain ⟨os, hbegun, hrun⟩ := hdone
    refine .ended hstatus ?_ ⟨os, List.mem_append_left _ hbegun, hrun⟩
    rcases hworker with rfl | ⟨-, hheld'⟩
    · exact hheld
    · exact hheld'

/-- What the worker holds is running. -/
theorem Life.running_of_held {w : ExecWorker} {e : Entry} (hlife : Life h w e)
    (hheld : w.held = some e.id) : e.task.iTaskStatus = .T_TASK_RUNNING := by
  cases hlife with
  | waiting _ _ hnot _ => exact absurd hheld hnot
  | picked hstatus _ => exact hstatus
  | filling hstatus _ _ _ => exact hstatus
  | ended _ hnot _ => exact absurd hheld hnot

/-- What is running is held by the worker. -/
theorem Life.held_of_running {w : ExecWorker} {e : Entry} (hlife : Life h w e)
    (hstatus : e.task.iTaskStatus = .T_TASK_RUNNING) : w.held = some e.id := by
  cases hlife with
  | waiting hinit _ _ _ => exact absurd (hinit.symm.trans hstatus) (by decide)
  | picked _ _ => rfl
  | filling _ _ _ _ => rfl
  | ended hover _ _ => exact absurd (hover.symm.trans hstatus) (by decide)

theorem Life.of_init {w : ExecWorker} {e : Entry} (hlife : Life h w e)
    (hstatus : e.task.iTaskStatus = .T_TASK_INIT) :
    e.id ∉ picks h ∧ e.task.iOutJson = .null := by
  cases hlife with
  | waiting _ hnot _ hout => exact ⟨hnot, hout⟩
  | picked hrun _ => exact absurd (hstatus.symm.trans hrun) (by decide)
  | filling hrun _ _ _ => exact absurd (hstatus.symm.trans hrun) (by decide)
  | ended hover _ _ => exact absurd (hstatus.symm.trans hover) (by decide)

theorem Life.of_over {w : ExecWorker} {e : Entry} (hlife : Life h w e)
    (hstatus : e.task.iTaskStatus = .T_TASK_OVER) : Finished h e e.task.iOutJson := by
  cases hlife with
  | waiting hinit _ _ _ => exact absurd (hinit.symm.trans hstatus) (by decide)
  | picked hrun _ => exact absurd (hrun.symm.trans hstatus) (by decide)
  | filling hrun _ _ _ => exact absurd (hrun.symm.trans hstatus) (by decide)
  | ended _ _ hdone => exact hdone

theorem Life.of_picked {w : ExecWorker} {e : Entry} (hlife : Life h w e)
    (hw : w = .picked e.id) : e.task.iOutJson = .null := by
  cases hlife with
  | waiting _ _ _ hout => exact hout
  | picked _ hout => exact hout
  | filling _ _ _ _ => cases hw
  | ended _ hnot _ => exact absurd (hw ▸ rfl) hnot

theorem Life.of_filling {w : ExecWorker} {e : Entry} {rest : List OutWrite} (hlife : Life h w e)
    (hw : w = .filling e.id rest) :
    e.task.iTaskStatus = .T_TASK_RUNNING ∧
      ∃ os done, (.begin os, .begun e.id) ∈ h ∧
        e.task.request.picked.outWrites os = .ok (done ++ rest) ∧
        e.task.iOutJson = done.foldl OutWrite.apply .null := by
  cases hlife with
  | waiting _ _ hnot _ => exact absurd (hw ▸ rfl) hnot
  | picked _ _ => cases hw
  | filling hstatus hbegun hwrites hout =>
    obtain ⟨-, rfl⟩ := ExecWorker.filling.inj hw
    exact ⟨hstatus, _, _, hbegun, hwrites, hout⟩
  | ended _ hnot _ => exact absurd (hw ▸ rfl) hnot

/-! ### Every step keeps the lives -/

/-- What holds in every reached state. -/
structure Inv (h : List (ExecEvent × ExecOutput)) (s : Executor) : Prop where
  added_eq : adds h = List.range s.added
  fresh : ∀ e ∈ s.taskList, e.id < s.added
  nodup : (s.taskList.map Entry.id).Nodup
  life : ∀ e ∈ s.taskList, Life h s.worker e
  /-- A reference leads into the list. -/
  held : ∀ id, s.worker.held = some id → ∃ e ∈ s.taskList, e.id = id
  picks_lt : ∀ id ∈ picks h, id < s.added
  picks_nodup : (picks h).Nodup
  erased : ∀ id ∈ erasures h, id < s.added ∧ ∀ e ∈ s.taskList, e.id ≠ id
  erasures_nodup : (erasures h).Nodup

theorem inv_start : Inv [] start where
  added_eq := rfl
  fresh _ he := by cases he
  nodup := List.nodup_nil
  life _ he := by cases he
  held _ hid := by cases hid
  picks_lt _ hid := by cases hid
  picks_nodup := List.nodup_nil
  erased _ hid := by cases hid
  erasures_nodup := List.nodup_nil

/-- A step that keeps the numbers in the list. What is left to show is where the tasks stand,
and that a task that is picked is a new one. -/
theorem Inv.keepIds (hinv : Inv h s) {x : ExecEvent × ExecOutput} (hadded : s'.added = s.added)
    (hids : s'.taskList.map Entry.id = s.taskList.map Entry.id) (hadds : adds [x] = [])
    (herasures : erasures [x] = []) (hpicks : (picks [x]).Nodup)
    (hnew : ∀ id ∈ picks [x], id < s.added ∧ id ∉ picks h)
    (hlife : ∀ e ∈ s'.taskList, Life (h ++ [x]) s'.worker e)
    (hheld : ∀ id, s'.worker.held = some id → ∃ e ∈ s.taskList, e.id = id) :
    Inv (h ++ [x]) s' := by
  have hmem : ∀ id, (∃ e ∈ s'.taskList, e.id = id) ↔ ∃ e ∈ s.taskList, e.id = id := by
    intro id
    rw [← List.mem_map, hids, List.mem_map]
  -- the entries may have changed, but not which numbers they have
  constructor
  case added_eq =>
    rw [adds_concat, hadds, List.append_nil, hadded]
    exact hinv.added_eq
  case fresh =>
    intro e he
    obtain ⟨e₀, he₀, heq⟩ := (hmem e.id).mp ⟨e, he, rfl⟩
    rw [hadded, ← heq]
    exact hinv.fresh e₀ he₀
  case nodup =>
    rw [hids]
    exact hinv.nodup
  case life =>
    exact hlife
  case held =>
    exact fun id hid => (hmem id).mpr (hheld id hid)
  case picks_lt =>
    rw [picks_concat, hadded]
    intro id hid
    rcases List.mem_append.mp hid with hid | hid
    · exact hinv.picks_lt id hid
    · exact (hnew id hid).1
  case picks_nodup =>
    rw [picks_concat]
    exact hinv.picks_nodup.append hpicks fun id hold hid => (hnew id hid).2 hold
  case erased =>
    rw [erasures_concat, herasures, List.append_nil, hadded]
    intro id hid
    refine ⟨(hinv.erased id hid).1, fun e he heq => ?_⟩
    obtain ⟨e₀, he₀, heq₀⟩ := (hmem id).mp ⟨e, he, heq⟩
    exact (hinv.erased id hid).2 e₀ he₀ heq₀
  case erasures_nodup =>
    rw [erasures_concat, herasures, List.append_nil]
    exact hinv.erasures_nodup

/-- Adding a task at the end. -/
theorem inv_add (hinv : Inv h s) (uuid : Bytes) (json : Json) :
    Inv (h ++ [(.add uuid json, .added s.added)]) (s.add uuid json).1 := by
  have hadds := adds_concat h (.add uuid json, .added s.added)
  have hpicks := (picks_concat h (.add uuid json, .added s.added)).trans (List.append_nil _)
  have herasures := (erasures_concat h (.add uuid json, .added s.added)).trans (List.append_nil _)
  have hmem : ∀ e ∈ (s.add uuid json).1.taskList,
      e ∈ s.taskList ∨ e = ⟨s.added, { iUuid := uuid, iJson := json }⟩ := by
    intro e he
    rcases List.mem_append.mp he with he | he
    · exact .inl he
    · exact .inr (List.mem_singleton.mp he)
  constructor
  case added_eq =>
    rw [hadds, hinv.added_eq]
    exact List.range_succ.symm
  case fresh =>
    intro e he
    rcases hmem e he with he | rfl
    · exact Nat.lt_succ_of_lt (hinv.fresh e he)
    · exact Nat.lt_succ_self _
  case nodup =>
    -- the number of the new task is larger than all others
    have hnew : s.added ∉ s.taskList.map Entry.id := by
      intro hid
      obtain ⟨e, he, heq⟩ := List.mem_map.mp hid
      exact absurd (hinv.fresh e he) (heq ▸ Nat.lt_irrefl _)
    change ((s.taskList ++ [_]).map Entry.id).Nodup
    rw [List.map_append]
    exact hinv.nodup.append (List.nodup_singleton _) (List.disjoint_singleton.mpr hnew)
  case life =>
    intro e he
    rcases hmem e he with he | rfl
    · exact (hinv.life e he).frame List.not_mem_nil (.inl rfl)
    · refine .waiting rfl ?_ ?_ rfl
      · rw [hpicks]
        exact fun hid => absurd (hinv.picks_lt _ hid) (Nat.lt_irrefl _)
      · intro hheld
        obtain ⟨e, he, heq⟩ := hinv.held _ hheld
        exact absurd (hinv.fresh e he) (heq ▸ Nat.lt_irrefl _)
  case held =>
    intro id hid
    obtain ⟨e, he, heq⟩ := hinv.held id hid
    exact ⟨e, List.mem_append_left _ he, heq⟩
  case picks_lt =>
    rw [hpicks]
    exact fun id hid => Nat.lt_succ_of_lt (hinv.picks_lt id hid)
  case picks_nodup =>
    rw [hpicks]
    exact hinv.picks_nodup
  case erased =>
    rw [herasures]
    intro id hid
    obtain ⟨hlt, hout⟩ := hinv.erased id hid
    refine ⟨Nat.lt_succ_of_lt hlt, fun e he => ?_⟩
    rcases hmem e he with he | rfl
    · exact hout e he
    · exact hlt.ne'
  case erasures_nodup =>
    rw [herasures]
    exact hinv.erasures_nodup

/-- Erasing a task that is over. The worker does not hold it. -/
theorem inv_get (hinv : Inv h s) {uuid : Bytes} (hget : GetCase s uuid s' o) :
    Inv (h ++ [(.get uuid, o)]) s' := by
  cases hget with
  | notFound _ | retry =>
    refine hinv.keepIds rfl rfl rfl rfl List.nodup_nil (fun _ hid => by cases hid)
      (fun e he => ?_) hinv.held
    exact (hinv.life e he).frame List.not_mem_nil (.inl rfl)
  | @erased l₁ l₂ e₀ hlist _ huuid hstatus =>
    have he₀ : e₀ ∈ s.taskList := hlist ▸ List.mem_append_right _ List.mem_cons_self
    have hsub : (l₁ ++ l₂).Sublist s.taskList :=
      hlist ▸ (List.Sublist.refl l₁).append (List.sublist_cons_self e₀ l₂)
    -- the number of the erased task is gone with it
    have hgone : ∀ e ∈ l₁ ++ l₂, e.id ≠ e₀.id := by
      have hnodup := hinv.nodup
      rw [hlist, List.map_append, List.map_cons, List.nodup_middle, ← List.map_append,
        List.nodup_cons] at hnodup
      exact fun e he heq => hnodup.1 (List.mem_map.mpr ⟨e, he, heq⟩)
    have hfree : s.worker.held ≠ some e₀.id := fun hheld =>
      absurd (((hinv.life e₀ he₀).running_of_held hheld).symm.trans hstatus) (by decide)
    constructor
    case added_eq =>
      rw [adds_concat]
      exact (List.append_nil _).trans hinv.added_eq
    case fresh => exact fun e he => hinv.fresh e (hsub.subset he)
    case nodup => exact (hsub.map Entry.id).nodup hinv.nodup
    case life =>
      exact fun e he => (hinv.life e (hsub.subset he)).frame List.not_mem_nil (.inl rfl)
    case held =>
      intro id hheld
      obtain ⟨e, he, heq⟩ := hinv.held id hheld
      refine ⟨e, ?_, heq⟩
      rw [hlist] at he
      rcases List.mem_append.mp he with he | he
      · exact List.mem_append_left _ he
      rcases List.mem_cons.mp he with rfl | he
      · exact absurd (heq ▸ hheld) hfree
      · exact List.mem_append_right _ he
    case picks_lt =>
      rw [picks_concat]
      exact fun id hid => hinv.picks_lt id ((List.append_nil (picks h)) ▸ hid)
    case picks_nodup =>
      rw [picks_concat]
      exact (List.append_nil (picks h)).symm ▸ hinv.picks_nodup
    case erased =>
      rw [erasures_concat]
      intro id hid
      rcases List.mem_append.mp hid with hid | hid
      · obtain ⟨hlt, hout⟩ := hinv.erased id hid
        exact ⟨hlt, fun e he => hout e (hsub.subset he)⟩
      · obtain rfl := List.mem_singleton.mp hid
        exact ⟨hinv.fresh e₀ he₀, hgone⟩
    case erasures_nodup =>
      rw [erasures_concat]
      refine hinv.erasures_nodup.append (List.nodup_singleton _)
        (List.disjoint_singleton.mpr fun hid => ?_)
      exact (hinv.erased _ hid).2 e₀ he₀ rfl

/-- An idle worker picks a waiting task. -/
theorem inv_pick (hinv : Inv h s) {e : Entry} (hidle : s.worker = .idle) (he : e ∈ s.taskList)
    (hstatus : e.task.iTaskStatus = .T_TASK_INIT) :
    Inv (h ++ [(.pick, .picked e.id)])
      { s with
        taskList := update e.id InternalTask.picked s.taskList, worker := .picked e.id } := by
  -- the task that is picked is still as it was added
  obtain ⟨hnot, hout⟩ := (hinv.life e he).of_init hstatus
  refine hinv.keepIds rfl (map_id_update _ _ _) rfl rfl (List.nodup_singleton _) ?_ ?_ ?_
  · intro id hid
    obtain rfl := List.mem_singleton.mp hid
    exact ⟨hinv.fresh e he, hnot⟩
  · intro e' he'
    obtain ⟨he', hne⟩ | ⟨e₀, he₀, hid, rfl⟩ := mem_update he'
    · have hlife := hinv.life e' he'
      rw [hidle] at hlife
      refine hlife.frame (fun hid => hne (List.mem_singleton.mp hid)) (.inr ⟨?_, ?_⟩)
      · exact nofun
      · exact fun hheld => hne (Option.some.inj hheld).symm
    · obtain rfl := eq_of_id hinv.nodup he₀ he hid
      exact .picked (e := ⟨e₀.id, e₀.task.picked⟩) rfl hout
  · intro id hid
    exact ⟨e, he, Option.some.inj hid⟩

/-- The worker has read the task it picked. -/
theorem inv_begin (hinv : Inv h s) {os : Os} {e : Entry} {writes : List OutWrite}
    (hworker : s.worker = .picked e.id) (he : e ∈ s.taskList)
    (hwrites : e.task.outWrites os = .ok writes) :
    Inv (h ++ [(.begin os, .begun e.id)]) { s with worker := .filling e.id writes } := by
  have hheld : ∀ {id}, s.worker.held = some id ↔ e.id = id := by
    intro id
    rw [hworker]
    exact Option.some_inj
  refine hinv.keepIds rfl rfl rfl rfl List.nodup_nil (fun _ hid => by cases hid) ?_ ?_
  · intro e' he'
    by_cases hid : e'.id = e.id
    · obtain rfl := eq_of_id hinv.nodup he' he hid
      have hlife := hinv.life e' he'
      have hstatus := hlife.running_of_held (hheld.mpr rfl)
      have hout := hlife.of_picked hworker
      -- nothing is written yet, and all of it is left
      have hleft : e'.task.request.picked.outWrites os = .ok ([] ++ writes) := by
        rw [← InternalTask.outWrites_request hstatus]
        exact hwrites
      exact .filling hstatus (List.mem_append_right _ List.mem_cons_self) hleft hout
    · refine (hinv.life e' he').frame List.not_mem_nil (.inr ⟨?_, ?_⟩)
      · exact fun h => hid (hheld.mp h).symm
      · exact fun h => hid (Option.some.inj h).symm
  · intro id hid
    exact ⟨e, he, Option.some.inj hid⟩

/-- The worker writes. -/
theorem inv_write (hinv : Inv h s) {id : Nat} {w : OutWrite} {rest : List OutWrite}
    (hworker : s.worker = .filling id (w :: rest)) :
    Inv (h ++ [(.write, .written)]) (s.write id w rest) := by
  have hheld : ∀ {id'}, s.worker.held = some id' ↔ id = id' := by
    intro id'
    rw [hworker]
    exact Option.some_inj
  refine hinv.keepIds rfl (by rw [taskList_write, map_id_update]) rfl rfl List.nodup_nil
    (fun _ hid => by cases hid) ?_ fun id' hid => hinv.held id' (hheld.mpr (Option.some.inj hid))
  intro e' he'
  rw [taskList_write] at he'
  obtain ⟨he', hne⟩ | ⟨e, he, rfl, rfl⟩ := mem_update he'
  · refine (hinv.life e' he').frame List.not_mem_nil (.inr ⟨?_, ?_⟩)
    · exact fun h => hne (hheld.mp h).symm
    · exact fun h => hne (Option.some.inj h).symm
  · obtain ⟨hstatus, os, done, hbegun, hwrites, hout⟩ := (hinv.life e he).of_filling hworker
    -- one write more is done, one less is left
    have hleft : e.task.request.picked.outWrites os = .ok ((done ++ [w]) ++ rest) := by
      rw [List.append_assoc]
      exact hwrites
    refine .filling (e := ⟨e.id, { e.task with iOutJson := w.apply e.task.iOutJson }⟩)
      hstatus (List.mem_append_left _ hbegun) hleft ?_
    rw [List.foldl_append, ← hout]
    rfl

/-- The worker has written everything. -/
theorem inv_over (hinv : Inv h s) {id : Nat} (hworker : s.worker = .filling id []) :
    Inv (h ++ [(.setOver, .setOver id)]) (s.setTaskOver id) := by
  have hheld : ∀ {id'}, s.worker.held = some id' ↔ id = id' := by
    intro id'
    rw [hworker]
    exact Option.some_inj
  refine hinv.keepIds rfl (by rw [taskList_setTaskOver, map_id_update]) rfl rfl List.nodup_nil
    (fun _ hid => by cases hid) ?_ fun id' hid => by cases hid
  intro e' he'
  rw [taskList_setTaskOver] at he'
  obtain ⟨he', hne⟩ | ⟨e, he, rfl, rfl⟩ := mem_update he'
  · refine (hinv.life e' he').frame List.not_mem_nil (.inr ⟨?_, ?_⟩)
    · exact fun h => hne (hheld.mp h).symm
    · exact nofun
  · obtain ⟨-, os, done, hbegun, hwrites, hout⟩ := (hinv.life e he).of_filling hworker
    rw [List.append_nil] at hwrites
    obtain ⟨task', attrs, hrun, hjson⟩ := InternalTask.outWrites_spec hwrites
    refine .ended rfl nofun ⟨os, List.mem_append_left _ hbegun, task', attrs, hrun, ?_⟩
    exact hjson.trans hout.symm

/-- Every step keeps the invariant. -/
theorem inv_step (hinv : Inv h s) (hstep : s.step e = some (s', o)) : Inv (h ++ [(e, o)]) s' := by
  cases step_cases hstep with
  | added => exact inv_add hinv _ _
  | got hget => exact inv_get hinv hget
  | picked hidle he hstatus => exact inv_pick hinv hidle he hstatus
  | begun hworker he hwrites => exact inv_begin hinv hworker he hwrites
  | written hworker => exact inv_write hinv hworker
  | setOver hworker => exact inv_over hinv hworker

/-- The invariant holds in every reached state. -/
theorem inv_of_reach (hr : machine.Reach h s) : Inv h s :=
  hr.invariant inv_start fun _ _ _ _ _ _ hinv hstep => inv_step hinv hstep

/-! ### Safety -/

/-- At most one task is running: the one that the worker holds. -/
theorem Inv.atMostOne (hinv : Inv h s) :
    AtMostOne (fun e => e.task.iTaskStatus = .T_TASK_RUNNING) s.taskList := by
  intro i j a b hi hj ha hb
  have hida := (hinv.life a (List.mem_of_getElem? hi)).held_of_running ha
  have hidb := (hinv.life b (List.mem_of_getElem? hj)).held_of_running hb
  have hid : a.id = b.id := Option.some.inj (hida.symm.trans hidb)
  have hlt : i < (s.taskList.map Entry.id).length := by
    rw [List.length_map]
    exact (List.getElem?_eq_some_iff.mp hi).1
  refine (List.getElem?_inj hlt hinv.nodup).mp ?_
  rw [List.getElem?_map, List.getElem?_map, hi, hj, Option.map_some, Option.map_some, hid]

/-- What a `get` hands out is the whole answer to a task with its uuid, and only then does it
change anything. -/
theorem Inv.get (hinv : Inv h s) {uuid : Bytes} {ret : DcCommonCode} {json : Json}
    {erased : Option Nat} (hget : GetCase s uuid s' (.got ret json erased)) :
    (ret = .S_SUCCESS → ∃ e ∈ s.taskList, e.task.iUuid = uuid ∧ erased = some e.id ∧
        Finished h e json) ∧
      (ret ≠ .S_SUCCESS → erased = none ∧ s' = s) := by
  cases hget with
  | notFound _ => exact ⟨nofun, fun _ => ⟨rfl, rfl⟩⟩
  | retry => exact ⟨nofun, fun _ => ⟨rfl, rfl⟩⟩
  | @erased l₁ l₂ e hlist _ huuid hstatus =>
    have he : e ∈ s.taskList := hlist ▸ List.mem_append_right _ List.mem_cons_self
    exact ⟨fun _ => ⟨e, he, huuid, rfl, (hinv.life e he).of_over hstatus⟩,
      fun hne => absurd rfl hne⟩

/-- **The executor is safe** under every interleaving of its callers and its worker. At most
one task is running; what the worker has a reference to is in the list, and running; a `get`
that succeeds hands out the whole answer to a task with the uuid, and one that does not
succeed changes nothing; and no task is picked twice or erased twice. -/
theorem executor_safe (hr : machine.Reach h s) :
    AtMostOne (fun e => e.task.iTaskStatus = .T_TASK_RUNNING) s.taskList ∧
      (∀ id, s.worker.held = some id →
        ∃ e ∈ s.taskList, e.id = id ∧ e.task.iTaskStatus = .T_TASK_RUNNING) ∧
      (∀ uuid s' ret json erased, s.step (.get uuid) = some (s', .got ret json erased) →
        (ret = .S_SUCCESS → ∃ e ∈ s.taskList, e.task.iUuid = uuid ∧ erased = some e.id ∧
            Finished h e json) ∧
          (ret ≠ .S_SUCCESS → erased = none ∧ s' = s)) ∧
      (adds h).Nodup ∧ (picks h).Nodup ∧ (erasures h).Nodup := by
  have hinv := inv_of_reach hr
  refine ⟨hinv.atMostOne, fun id hid => ?_, fun uuid s' ret json erased hstep => ?_, ?_,
    hinv.picks_nodup, hinv.erasures_nodup⟩
  · obtain ⟨e, he, rfl⟩ := hinv.held id hid
    exact ⟨e, he, rfl, (hinv.life e he).running_of_held hid⟩
  · cases step_cases hstep with
    | got hget => exact hinv.get hget
  · rw [hinv.added_eq]
    exact List.nodup_range

/-- Of two tasks with one uuid, the first is over and erased, and the second is running. -/
theorem executor_safe_twice :
    ∃ h s, machine.Reach h s ∧ erasures h = [0] ∧
      ∃ e ∈ s.taskList, e.id = 1 ∧ e.task.iTaskStatus = .T_TASK_RUNNING := by
  let json := ContentRemote.requestBody (ascii "t") (ascii "/srv") [ascii "a"]
  have hrun : (machine.run? [.add (ascii "t") json, .add (ascii "t") json, .pick,
      .begin Os.directories, .write, .get (ascii "t"), .write, .write, .setOver, .get (ascii "t"),
      .pick]).any (fun r => erasures r.1 = [0] ∧ r.2.worker.held = some 1) = true := rfl
  obtain ⟨h, s, hr, hp⟩ := Machine.exists_reach_of_run? hrun
  obtain ⟨herased, hheld⟩ : erasures h = [0] ∧ s.worker.held = some 1 := by simpa using hp
  exact ⟨h, s, hr, herased, (executor_safe hr).2.1 1 hheld⟩

end Executor

end Wfrest
