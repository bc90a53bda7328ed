import Wfrest.Compare.Internal

/-!
# Accepted requests

`POST /internal/dir/task/{uuid}` checks a request before the executor gets it, and the
executor asserts what it needs. The two lists differ: the handler does not look at
`base_dir`, nor at the type of anything but `uuid`, and no handler can know what `stat`
will find. `run_isOk_iff` says for which accepted requests, and for which answers of the
system, the executor gets to the end.

The parser of the library is a parameter.
-/

namespace Wfrest

/-! ### The handler -/

/-- An answer with a code and the uuid. -/
def codeUuidJson (code : DcCommonCode) (uuid : Bytes) : Json :=
  (Json.null.set "error" (codeJson code)).set "uuid" (.str uuid)

/-- `json["uuid"] == uuid` -/
def sameUuid (uuid : Bytes) : Json → Bool
  | .str s => s = uuid
  | _ => false

/-- `dc_internal_executor_t::add`. The handler makes the task of the uuid and the body. -/
def internalAdd (uuid : Bytes) (json : Json) (tasks : List InternalTask) : List InternalTask :=
  tasks ++ [{ iUuid := uuid, iJson := json }]

/-- The handler of `POST /internal/dir/task/{uuid}`: its answer and `task_list_`. -/
def postInternalDirTask (parse : Bytes → Except Fault Json) (uuid : Bytes)
    (contentType : HttpContentType) (body : Bytes) (tasks : List InternalTask) :
    Except Fault (Json × List InternalTask) :=
  if uuid = [] then .ok (Json.null.set "error" (codeJson .E_DC_INTERNAL_NO_UUID), tasks)
  else if contentType ≠ .APPLICATION_JSON then
    .ok (codeUuidJson .E_DC_INTERNAL_NOT_JSON uuid, tasks)
  else if body = [] then .ok (codeUuidJson .E_DC_INTERNAL_EMPTY_BODY uuid, tasks)
  else do
    let json ← parse body
    match json.get? "dirs", json.get? "uuid" with
    | none, _ => return (codeUuidJson .E_DC_INTERNAL_NO_DIR_LIST uuid, tasks)
    | some _, none => return (codeUuidJson .E_DC_INTERNAL_NO_UUID uuid, tasks)
    | some _, some u =>
      if sameUuid uuid u then
        return (codeUuidJson .S_SUCCESS uuid, internalAdd uuid json tasks)
      else return (codeUuidJson .E_DC_INTERNAL_UUID_NOT_EQUAL uuid, tasks)

/-- The code under `error` of an answer. -/
theorem get?_error_codeUuidJson (code : DcCommonCode) (uuid : Bytes) :
    (codeUuidJson code uuid).get? "error" = some (codeJson code) := by
  have hne : ¬ ascii "error" = ascii "uuid" := by decide
  rw [codeUuidJson, Json.get?_set, if_neg hne, Json.get?_set_self]

theorem codeUuidJson_ne_success {code : DcCommonCode} (hcode : code ≠ .S_SUCCESS)
    (uuid : Bytes) : (codeUuidJson code uuid).get? "error" ≠ some (codeJson .S_SUCCESS) := by
  rw [get?_error_codeUuidJson]
  exact fun h => hcode (codeJson_injective (Option.some.inj h))

/-- **What an accepted request has**: a body that parses to an object with `dirs` and with
the uuid of the path. It is queued as it is. -/
theorem postInternalDirTask_success {parse : Bytes → Except Fault Json} {uuid : Bytes}
    {contentType : HttpContentType} {body : Bytes} {tasks tasks' : List InternalTask}
    {answer : Json} (h : postInternalDirTask parse uuid contentType body tasks =
      .ok (answer, tasks'))
    (hsuccess : answer.get? "error" = some (codeJson .S_SUCCESS)) :
    ∃ json dirs, parse body = .ok json ∧ json.get? "dirs" = some dirs ∧
      json.get? "uuid" = some (.str uuid) ∧ tasks' = internalAdd uuid json tasks := by
  have hrefused : ∀ {code : DcCommonCode}, code ≠ .S_SUCCESS →
      (codeUuidJson code uuid, tasks) ≠ (answer, tasks') := by
    intro code hcode heq
    obtain ⟨rfl, -⟩ := Prod.mk.inj heq
    exact codeUuidJson_ne_success hcode uuid hsuccess
  -- every branch but the last answers with an error
  unfold postInternalDirTask at h
  split at h
  · obtain ⟨rfl, -⟩ := Prod.mk.inj (Except.ok.inj h)
    rw [Json.get?_set_self] at hsuccess
    exact absurd (codeJson_injective (Option.some.inj hsuccess)) (by decide)
  split at h
  · exact absurd (Except.ok.inj h) (hrefused (by decide))
  split at h
  · exact absurd (Except.ok.inj h) (hrefused (by decide))
  obtain ⟨json, hparse, h⟩ := bind_eq_ok.mp h
  cases hdirs : json.get? "dirs" with
  | none =>
    rw [hdirs] at h
    exact absurd (Except.ok.inj h) (hrefused (by decide))
  | some dirs =>
    cases huuid : json.get? "uuid" with
    | none =>
      rw [hdirs, huuid] at h
      exact absurd (Except.ok.inj h) (hrefused (by decide))
    | some u =>
      rw [hdirs, huuid] at h
      by_cases hsame : sameUuid uuid u = true
      · simp only [hsame, if_true] at h
        obtain ⟨-, rfl⟩ := Prod.mk.inj (Except.ok.inj h)
        refine ⟨json, dirs, hparse, hdirs, ?_, rfl⟩
        cases u <;> simp_all [sameUuid]
      · simp only [hsame] at h
        exact absurd (Except.ok.inj h) (hrefused (by decide))

/-! ### The executor -/

theorem asString_eq_ok {j : Json} {s : Bytes} : j.asString = .ok s ↔ j = .str s := by
  cases j <;> simp [Json.asString]

/-- What the loop over `dirs` needs of an item: a text, and a directory if `stat` finds
anything under it. -/
def DirItem (stat : Bytes → Option PathStat) (item : Json) : Prop :=
  ∃ dir, item = .str dir ∧ ∀ st, stat (cStr dir) = some st → st.isDir = true

/-- The loop ends when every item is fit for it. -/
theorem dirsAttr_isOk_iff {os : Os} {i : Nat} {items : List Json} :
    (∃ attrs, InternalTask.dirsAttr os i items = .ok attrs) ↔
      ∀ k, ∀ hk : k < items.length, DirItem (os.stat (i + k)) items[k] := by
  induction items generalizing i with
  | nil => exact ⟨fun _ k hk => absurd hk (Nat.not_lt_zero k), fun _ => ⟨[], rfl⟩⟩
  | cons item items ih =>
    constructor
    · rintro ⟨attrs, h⟩ k hk
      obtain ⟨dir, hdir, h⟩ := bind_eq_ok.mp h
      obtain ⟨attr, hattr, h⟩ := bind_eq_ok.mp h
      obtain ⟨rest, hrest, -⟩ := bind_eq_ok.mp h
      cases k with
      | zero =>
        exact ⟨dir, asString_eq_ok.mp hdir, dirAttr_isOk_iff.mp ⟨attr, hattr⟩⟩
      | succ k =>
        -- item `k + 1` is item `k` of the rest, whose loop starts one number later
        have hitem := ih.mp ⟨rest, hrest⟩ k (Nat.lt_of_succ_lt_succ hk)
        rw [Nat.add_right_comm i 1 k] at hitem
        exact hitem
    · intro h
      obtain ⟨dir, hdir, hstat⟩ := h 0 (Nat.succ_pos _)
      have hstr : item.asString = .ok dir := asString_eq_ok.mpr hdir
      obtain ⟨attr, hattr⟩ := dirAttr_isOk_iff.mpr hstat
      obtain ⟨rest, hrest⟩ := (ih (i := i + 1)).mpr fun k hk => by
        rw [Nat.add_right_comm i 1 k]
        exact h (k + 1) (Nat.succ_lt_succ hk)
      exact ⟨attr :: rest, bind_eq_ok.mpr ⟨dir, hstr, bind_eq_ok.mpr
        ⟨attr, hattr, bind_eq_ok.mpr ⟨rest, hrest, rfl⟩⟩⟩⟩

/-- **What the executor needs** of a request and of the system: a text under `base_dir`,
and, unless `chdir` fails, items under `dirs` that are fit for the loop. -/
def RunsThrough (os : Os) (json : Json) : Prop :=
  ∃ baseDir, json.get? "base_dir" = some (.str baseDir) ∧
    (os.chdir (cStr baseDir) = true →
      ∀ k, ∀ hk : k < ((json.get? "dirs").getD .null).items.length,
        DirItem (os.stat k) ((json.get? "dirs").getD .null).items[k])

/-- The task as the worker has picked it. -/
def InternalTask.picked (task : InternalTask) : InternalTask :=
  { task with iTaskStatus := .T_TASK_RUNNING }

/-- The worker on a task whose request has a uuid and a list. -/
theorem thdWorker_isOk_iff {os : Os} {uuid : Bytes} {json u dirs : Json}
    (huuid : json.get? "uuid" = some u) (hdirs : json.get? "dirs" = some dirs) :
    (∃ r, InternalTask.thdWorkerTaskDirAttrList os
        (InternalTask.picked { iUuid := uuid, iJson := json }) = .ok r) ↔
      RunsThrough os json := by
  -- a request with a uuid is an object, so that every field can be asked for
  have hat : ∀ key, json.at? key = .ok ((json.get? key).getD .null) := by
    cases json with
    | obj fs => exact fun _ => rfl
    | _ => cases huuid
  have hsome : ∀ {key v}, json.get? key = some v →
      assertFault (json.get? key).isSome = .ok () := by
    intro key v hv
    rw [hv]
    rfl
  unfold RunsThrough
  constructor
  · rintro ⟨r, h⟩
    -- the status, `uuid` and `dirs` are known; `base_dir` is asserted and then read as a text
    obtain ⟨-, -, h⟩ := bind_eq_ok.mp h
    obtain ⟨-, -, h⟩ := bind_eq_ok.mp h
    obtain ⟨-, -, h⟩ := bind_eq_ok.mp h
    obtain ⟨_, hbase, h⟩ := bind_eq_ok.mp h
    obtain ⟨base, hget, h⟩ := bind_eq_ok.mp h
    obtain ⟨baseDir, hstr, h⟩ := bind_eq_ok.mp h
    obtain ⟨u', hu', h⟩ := bind_eq_ok.mp h
    obtain ⟨b, hb⟩ := Option.isSome_iff_exists.mp (assertFault_eq_ok.mp hbase)
    change json.get? "base_dir" = some b at hb
    change json.at? "base_dir" = .ok base at hget
    rw [hat, hb] at hget
    have hbase' : b = base := Except.ok.inj hget
    rw [hbase'] at hb
    refine ⟨baseDir, by rw [hb, asString_eq_ok.mp hstr], fun hchdir => ?_⟩
    rw [if_pos hchdir] at h
    obtain ⟨dirs', hdirs', h⟩ := bind_eq_ok.mp h
    obtain ⟨attrs, hattrs, -⟩ := bind_eq_ok.mp h
    have hlist := Except.ok.inj ((hat "dirs").symm.trans hdirs')
    have hfit := dirsAttr_isOk_iff.mp ⟨attrs, hattrs⟩
    rw [← hlist] at hfit
    simpa only [Nat.zero_add] using hfit
  · rintro ⟨baseDir, hbase, hitems⟩
    have hstr : ((json.get? "base_dir").getD .null).asString = .ok baseDir := by
      rw [hbase]
      rfl
    refine exists_bind_eq_ok.mpr ⟨(), rfl, exists_bind_eq_ok.mpr ⟨(), hsome huuid,
      exists_bind_eq_ok.mpr ⟨(), hsome hdirs, exists_bind_eq_ok.mpr ⟨(), hsome hbase,
        exists_bind_eq_ok.mpr ⟨_, hat _, exists_bind_eq_ok.mpr ⟨baseDir, hstr,
          exists_bind_eq_ok.mpr ⟨_, hat _, ?_⟩⟩⟩⟩⟩⟩⟩
    -- after a failed `chdir` the items are not looked at
    by_cases hchdir : os.chdir (cStr baseDir) = true
    · obtain ⟨attrs, hattrs⟩ := (dirsAttr_isOk_iff (i := 0)).mpr fun k hk => by
        rw [Nat.zero_add]
        exact hitems hchdir k hk
      rw [if_pos hchdir]
      exact exists_bind_eq_ok.mpr ⟨_, hat _, exists_bind_eq_ok.mpr ⟨attrs, hattrs, _, rfl⟩⟩
    · rw [if_neg hchdir]
      exact ⟨_, rfl⟩

/-- **When an accepted request cannot stop the server.** The handler has answered
`S_SUCCESS`: it has queued one task, and the worker gets to the end of that task exactly
if `RunsThrough` holds of its request. -/
theorem run_isOk_iff {parse : Bytes → Except Fault Json} {uuid : Bytes}
    {contentType : HttpContentType} {body : Bytes} {tasks tasks' : List InternalTask}
    {answer : Json}
    (h : postInternalDirTask parse uuid contentType body tasks = .ok (answer, tasks'))
    (hsuccess : answer.get? "error" = some (codeJson .S_SUCCESS)) (os : Os) :
    ∃ json task, parse body = .ok json ∧ tasks' = tasks ++ [task] ∧
      ((∃ task' attrs, task.picked.thdWorkerTaskDirAttrList os = .ok (task', attrs) ∧
          task'.iTaskStatus = .T_TASK_OVER) ↔
        RunsThrough os json) := by
  obtain ⟨json, dirs, hparse, hdirs, huuid, rfl⟩ := postInternalDirTask_success h hsuccess
  refine ⟨json, _, hparse, rfl, ?_⟩
  have hok := @thdWorker_isOk_iff os uuid json _ dirs huuid hdirs
  rw [← hok]
  constructor
  · rintro ⟨task', attrs, hrun, -⟩
    exact ⟨_, hrun⟩
  · rintro ⟨⟨task', attrs⟩, hrun⟩
    exact ⟨task', attrs, hrun, (thdWorkerTaskDirAttrList_spec hrun).2.1⟩

/-- A system on which every call succeeds, and where there are only directories. -/
def Os.directories : Os :=
  ⟨fun _ => true, fun _ _ => some ⟨true, 0o40755, .name (ascii "root"), some (ascii "2024")⟩⟩

/-- A request as the client writes it runs through. -/
theorem run_requestBody :
    let json := ContentRemote.requestBody (ascii "t") (ascii "/srv") [ascii "a"]
    let task : InternalTask := { iUuid := ascii "t", iJson := json }
    ∃ task' attrs, task.picked.thdWorkerTaskDirAttrList Os.directories = .ok (task', attrs) ∧
      task'.iTaskStatus = .T_TASK_OVER := by
  intro json task
  have hpost : postInternalDirTask (fun _ => .ok json) (ascii "t") .APPLICATION_JSON
      (ascii "json") [] = .ok (codeUuidJson .S_SUCCESS (ascii "t"), [task]) := rfl
  obtain ⟨json', task₁, hparse, htasks, hiff⟩ :=
    run_isOk_iff hpost (get?_error_codeUuidJson _ _) Os.directories
  obtain rfl := Except.ok.inj hparse
  obtain rfl := List.head_eq_of_cons_eq htasks
  refine hiff.mpr ⟨ascii "/srv", rfl, fun _ k hk => ?_⟩
  obtain rfl : k = 0 := Nat.lt_one_iff.mp hk
  exact ⟨ascii "a", rfl, fun st hst => Option.some.inj hst ▸ rfl⟩

/-- A request without `base_dir` is accepted, and its task stops the server whatever the
system says. -/
theorem accepted_no_base_dir :
    let json := (Json.null.set "uuid" (.str (ascii "t"))).set "dirs" (.arr [])
    let task : InternalTask := { iUuid := ascii "t", iJson := json }
    postInternalDirTask (fun _ => .ok json) (ascii "t") .APPLICATION_JSON (ascii "json") [] =
        .ok (codeUuidJson .S_SUCCESS (ascii "t"), [task]) ∧
      ∀ os, task.picked.thdWorkerTaskDirAttrList os = .error .panic :=
  ⟨rfl, fun _ => rfl⟩

end Wfrest
