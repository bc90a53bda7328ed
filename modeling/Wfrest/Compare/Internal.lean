import Wfrest.Base.ContentType
import Wfrest.Base.StrUtil
import Wfrest.Compare.DirAttr

/-!
# The internal directory protocol

A server of a compare task asks another one for the attributes of a list of
directories: `POST /internal/dir/task/{uuid}` queues the list for the executor of the
other side, `GET /internal/dir/task/{uuid}` fetches the answer. The two ends share no
schema. The executor writes `{uuid, error, dirs}` with a number under `error`; the
client reads `{uuid, error, result}` with a text under `error`, and `code` in an item
where the executor writes `error`.

The first of these already stops the client (`receive_served`), so the ends agree on
no input at all (`not_agrees`). The client alone is sound: it reads back every list
written in its own schema (`receive_reply`).

The text form of a JSON value, its compression and the HTTP messages around it are
left out: what one end writes is what the other end parses.
-/

namespace Wfrest

/-! ### Typed access -/

namespace Json

/-- `json[key]` as it is read: null becomes an object, and an absent key becomes null. -/
def at? (j : Json) (key : String) : Except Fault Json :=
  match j with
  | obj _ => .ok ((j.get? key).getD null)
  | null => .ok null
  | _ => .error .typeError

/-- Conversion to `std::string`. -/
def asString : Json → Except Fault Bytes
  | str s => .ok s
  | _ => .error .typeError

end Json

/-- Conversion of a number to `dc_common_code_t`. -/
def Json.asCode : Json → Except Fault DcCommonCode
  | num n => castCode n
  | _ => .error .typeError

/-- `std::stoi` -/
def stoi (s : Bytes) : Except Fault Int :=
  let s := (cStr s).dropWhile isspace
  let neg := s.head? = some hyphen
  let s := if neg ∨ s.head? = some 43 then s.tail else s
  let digits := s.takeWhile fun b => 48 ≤ b ∧ b ≤ 57
  let n : Int := digits.foldl (fun n b => 10 * n + (b.toNat - 48)) 0
  let n := if neg then -n else n
  if digits = [] then .error .invalidArgument
  else if -2 ^ 31 ≤ n ∧ n < 2 ^ 31 then .ok n
  else .error .outOfRange

/-! ### The server -/

/-- The values of `dc_common_task_stat_t` that the executor uses. -/
inductive TaskStatus where
  | T_TASK_INIT
  | T_TASK_RUNNING
  | T_TASK_OVER
  deriving DecidableEq, Repr

/-- `dc_internal_task_t`. Its type is always `DC_INTERNAL_TASK_TYPE_DIR_ATTR`. -/
structure InternalTask where
  iUuid : Bytes
  iTaskStatus : TaskStatus := .T_TASK_INIT
  iJson : Json
  iOutJson : Json := .null

namespace InternalTask

/-- The JSON of one record. -/
def attrJson (attr : FileAttr) : Json :=
  (((Json.null.set "error" (codeJson attr.fCode)).set "mode" (.str attr.fMode)).set
    "owner" (.str attr.fOwner)).set "last_updated" (.str attr.fLastUpdated)

/-- The loop over `i_json["dirs"]`, from index `i` on. -/
def dirsAttr (os : Os) (i : Nat) : List Json → Except Fault (List FileAttr)
  | [] => .ok []
  | dir :: dirs => do
    let dirStr ← dir.asString
    let attr ← dirAttr (os.stat i (cStr dirStr))
    let attrs ← dirsAttr os (i + 1) dirs
    return attr :: attrs

/-- The answer after the loop. Without a record there is no `dirs`. -/
def outJson (uuid : Json) (attrs : List FileAttr) : Json :=
  let out := (Json.null.set "uuid" uuid).set "error" (codeJson .S_SUCCESS)
  if attrs = [] then out else out.set "dirs" (.arr (attrs.map attrJson))

/-- `dc_internal_executor_t::thd_worker_task_dir_attr_list`: the task when it is over,
and the records in `dir_attr_list`. -/
def thdWorkerTaskDirAttrList (os : Os) (task : InternalTask) :
    Except Fault (InternalTask × List FileAttr) := do
  assertFault (task.iTaskStatus = .T_TASK_RUNNING)
  assertFault (task.iJson.get? "uuid").isSome
  assertFault (task.iJson.get? "dirs").isSome
  assertFault (task.iJson.get? "base_dir").isSome
  let baseDir ← (← task.iJson.at? "base_dir").asString
  let uuid ← task.iJson.at? "uuid"
  if os.chdir (cStr baseDir) then
    let attrs ← dirsAttr os 0 (← task.iJson.at? "dirs").items
    return ({ task with iOutJson := outJson uuid attrs, iTaskStatus := .T_TASK_OVER }, attrs)
  else
    let out := (Json.null.set "error" (codeJson .E_OS_ENV_CHDIR)).set "uuid" uuid
    return ({ task with iOutJson := out, iTaskStatus := .T_TASK_OVER }, [])

end InternalTask

/-- `dc_internal_executor_t::get`: the code, `result_json`, and `task_list_` after it. -/
def internalGet (uuid : Bytes) : List InternalTask → DcCommonCode × Json × List InternalTask
  | [] => (.E_NOT_FOUND, .null, [])
  | task :: tasks =>
    if task.iUuid = uuid then
      if task.iTaskStatus = .T_TASK_OVER then (.S_SUCCESS, task.iOutJson, tasks)
      else (.E_DC_CONTENT_RETRY, .null, task :: tasks)
    else
      let r := internalGet uuid tasks
      (r.1, r.2.1, task :: r.2.2)

/-- The handler of `GET /internal/dir/task/{uuid}`: its answer and `task_list_`. -/
def getInternalDirTask (uuid : Bytes) (contentType : HttpContentType)
    (tasks : List InternalTask) : Json × List InternalTask :=
  if uuid = [] then (Json.null.set "error" (codeJson .E_DC_INTERNAL_NO_UUID), tasks)
  else if contentType ≠ .APPLICATION_JSON then
    ((Json.null.set "error" (codeJson .E_DC_INTERNAL_NOT_JSON)).set "uuid" (.str uuid), tasks)
  else
    match internalGet uuid tasks with
    | (.S_SUCCESS, json, tasks) => (json, tasks)
    | (ret, _, tasks) => ((Json.null.set "error" (codeJson ret)).set "uuid" (.str uuid), tasks)

/-! ### The client -/

/-- `get_dir_list_status_` -/
inductive DirListStatus where
  | DIR_LIST_STATUS_INIT
  | DIR_LIST_STATUS_SEND
  | DIR_LIST_STATUS_OVER
  deriving DecidableEq, Repr

/-- `dc_content_remote_t` -/
structure ContentRemote where
  /-- `server_->c_task->t_task_uuid` -/
  taskUuid : Bytes
  attrList : List FileAttr
  dirListOutQ : List DcCommonCode
  getDirListStatus : DirListStatus
  getRespBody : Json
  /-- The number of `GET` requests sent. -/
  gets : Nat

namespace ContentRemote

/-- The body of `do_dir_list_attr`. -/
def requestBody (uuid baseDir : Bytes) (dirList : List Bytes) : Json :=
  ((Json.null.set "uuid" (.str uuid)).set "base_dir" (.str baseDir)).set "dirs"
    (.arr (dirList.map .str))

/-- A client whose first `GET` is on the way. -/
def waiting (uuid : Bytes) : ContentRemote where
  taskUuid := uuid
  attrList := []
  dirListOutQ := []
  getDirListStatus := .DIR_LIST_STATUS_SEND
  getRespBody := .null
  gets := 1

/-- The member `error`, which must be there. -/
def readError (json : Json) : Except Fault DcCommonCode := do
  assertFault (json.get? "error").isSome
  let error ← (← json.at? "error").asString
  castCode (← stoi error)

/-- `http_get_callback` on the parsed body. -/
def httpGetCallback (c : ContentRemote) (json : Json) : Except Fault ContentRemote := do
  let code ← readError json
  return { c with
    getRespBody := if code = .S_SUCCESS then json else c.getRespBody
    dirListOutQ := c.dirListOutQ ++ [code] }

/-- An item of `result`. -/
def readItem (item : Json) : Except Fault FileAttr := do
  let fMode ← (← item.at? "mode").asString
  let fOwner ← (← item.at? "owner").asString
  let fLastUpdated ← (← item.at? "last_updated").asString
  let fCode ← (← item.at? "code").asCode
  return { fMode, fOwner, fLastUpdated, fCode }

/-- The loop over `result`. -/
def readItems : List Json → Except Fault (List FileAttr)
  | [] => .ok []
  | item :: items => do
    let attr ← readItem item
    let attrs ← readItems items
    return attr :: attrs

/-- The answer of a `GET` that succeeded: the code, and what is appended to
`attr_list_`. -/
def readBody (uuid : Bytes) (json : Json) : Except Fault (DcCommonCode × List FileAttr) := do
  let code ← readError json
  if code ≠ .S_SUCCESS then return (code, [])
  assertFault (json.get? "result").isSome
  assertFault (json.get? "uuid").isSome
  assertFault
    (match json.get? "uuid" with
      | some (.str s) => s = uuid
      | _ => false)
  let attrs ← readItems (← json.at? "result").items
  return (.S_SUCCESS, attrs)

/-- `dc_content_remote_t::get_dir_list_attr` -/
def getDirListAttr (c : ContentRemote) : Except Fault (ContentRemote × DcCommonCode) :=
  match c.getDirListStatus, c.dirListOutQ with
  | .DIR_LIST_STATUS_OVER, _ => .error .panic
  | _, [] => .ok (c, .E_DC_CONTENT_RETRY)
  | .DIR_LIST_STATUS_INIT, ret :: q =>
    let c := { c with dirListOutQ := q }
    if ret ≠ .S_SUCCESS then .ok (c, ret)
    else
      .ok ({ c with gets := c.gets + 1, getDirListStatus := .DIR_LIST_STATUS_SEND },
        .E_DC_CONTENT_RETRY)
  | .DIR_LIST_STATUS_SEND, ret :: q => do
    let c := { c with dirListOutQ := q }
    if ret = .E_DC_CONTENT_RETRY then return ({ c with gets := c.gets + 1 }, ret)
    if ret ≠ .S_SUCCESS then return (c, ret)
    let (code, attrs) ← readBody c.taskUuid c.getRespBody
    if code ≠ .S_SUCCESS then return (c, code)
    return ({ c with
      attrList := c.attrList ++ attrs
      getDirListStatus := .DIR_LIST_STATUS_OVER }, .S_SUCCESS)

/-- The callback on an answer, and then the call that picks it up. -/
def receive (uuid : Bytes) (json : Json) : Except Fault (ContentRemote × DcCommonCode) := do
  (← (waiting uuid).httpGetCallback json).getDirListAttr

end ContentRemote

/-! ### What the executor leaves -/

/-- The member `error` is a number. -/
def NumericError (json : Json) : Prop := ∃ n, json.get? "error" = some (.num n)

theorem numericError_set_self (j : Json) (c : DcCommonCode) :
    NumericError (j.set "error" (codeJson c)) :=
  ⟨c.toNat, Json.get?_set_self j _ "error"⟩

theorem NumericError.set {j : Json} (h : NumericError j) (value : Json) {key : String}
    (hkey : ascii "error" ≠ ascii key) : NumericError (j.set key value) := by
  obtain ⟨n, hn⟩ := h
  refine ⟨n, ?_⟩
  rw [Json.get?_set, if_neg hkey]
  exact hn

theorem numericError_outJson (uuid : Json) (attrs : List FileAttr) :
    NumericError (InternalTask.outJson uuid attrs) := by
  unfold InternalTask.outJson
  split
  · exact numericError_set_self _ _
  · exact (numericError_set_self _ _).set _ (by decide)

/-- On a list of texts the loop of the executor is the loop of the local reader. -/
theorem dirsAttr_map_str (os : Os) (i : Nat) (dirs : List Bytes) :
    InternalTask.dirsAttr os i (dirs.map .str) = dirListAttr os i dirs := by
  induction dirs generalizing i with
  | nil => rfl
  | cons dir dirs ih =>
    change (do
      let attr ← dirAttr (os.stat i (cStr dir))
      let attrs ← InternalTask.dirsAttr os (i + 1) (dirs.map .str)
      return attr :: attrs) = _
    rw [ih]
    rfl

/-- **Inversion.** A task that is over has a number under `error`, and no `result`. -/
theorem thdWorkerTaskDirAttrList_spec {os : Os} {task task' : InternalTask}
    {attrs : List FileAttr} (h : task.thdWorkerTaskDirAttrList os = .ok (task', attrs)) :
    task'.iUuid = task.iUuid ∧ task'.iTaskStatus = .T_TASK_OVER ∧
      NumericError task'.iOutJson ∧ task'.iOutJson.get? "result" = none := by
  obtain ⟨-, -, h⟩ := bind_eq_ok.mp h
  obtain ⟨-, -, h⟩ := bind_eq_ok.mp h
  obtain ⟨-, -, h⟩ := bind_eq_ok.mp h
  obtain ⟨-, -, h⟩ := bind_eq_ok.mp h
  obtain ⟨-, -, h⟩ := bind_eq_ok.mp h
  -- the assertions on the task, then the fields of the request
  obtain ⟨json, -, h⟩ := bind_eq_ok.mp h
  obtain ⟨baseDir, -, h⟩ := bind_eq_ok.mp h
  obtain ⟨uuid, -, h⟩ := bind_eq_ok.mp h
  have hne : ∀ key ∈ ["uuid", "error", "dirs"], ascii "result" ≠ ascii key := by decide
  split at h
  · obtain ⟨dirs, -, h⟩ := bind_eq_ok.mp h
    obtain ⟨records, -, h⟩ := bind_eq_ok.mp h
    obtain ⟨rfl, rfl⟩ := Prod.mk.inj (Except.ok.inj h)
    refine ⟨rfl, rfl, numericError_outJson uuid records, ?_⟩
    change (InternalTask.outJson uuid records).get? "result" = none
    unfold InternalTask.outJson
    split <;> simp only [Json.get?_set, if_neg (hne _ _), List.mem_cons, true_or, or_true] <;> rfl
  · obtain ⟨rfl, rfl⟩ := Prod.mk.inj (Except.ok.inj h)
    refine ⟨rfl, rfl, (numericError_set_self _ _).set _ (by decide), ?_⟩
    simp only [Json.get?_set, if_neg (hne _ _), List.mem_cons, true_or, or_true]
    rfl

/-- **Both readers compute the same records.** The executor of another server, asked
for a list, runs the loop of the local reader, unless `chdir` fails. -/
theorem thdWorkerTaskDirAttrList_requestBody (os : Os) (uuid baseDir : Bytes)
    (dirList : List Bytes) :
    (InternalTask.thdWorkerTaskDirAttrList os
        { iUuid := uuid
          iTaskStatus := .T_TASK_RUNNING
          iJson := ContentRemote.requestBody uuid baseDir dirList }).map Prod.snd =
      if os.chdir (cStr baseDir) then thdWorkerDirListAttr os dirList else .ok [] := by
  let task : InternalTask :=
    { iUuid := uuid
      iTaskStatus := .T_TASK_RUNNING
      iJson := ContentRemote.requestBody uuid baseDir dirList }
  -- the assertions and the readers of `i_json` compute
  have hrun : task.thdWorkerTaskDirAttrList os =
      if os.chdir (cStr baseDir) then do
        let attrs ← InternalTask.dirsAttr os 0 (dirList.map .str)
        return ({ task with
          iOutJson := InternalTask.outJson (.str uuid) attrs
          iTaskStatus := .T_TASK_OVER }, attrs)
      else
        .ok ({ task with
          iOutJson := (Json.null.set "error" (codeJson .E_OS_ENV_CHDIR)).set "uuid" (.str uuid)
          iTaskStatus := .T_TASK_OVER }, []) := rfl
  change (task.thdWorkerTaskDirAttrList os).map Prod.snd = _
  rw [hrun]
  split
  · rw [dirsAttr_map_str]
    unfold thdWorkerDirListAttr
    cases dirListAttr os 0 dirList <;> rfl
  · rfl

/-- Every answer to a `GET` has a number under `error`, when the finished tasks do. -/
theorem numericError_getInternalDirTask {tasks : List InternalTask}
    (h : ∀ task ∈ tasks, task.iTaskStatus = .T_TASK_OVER → NumericError task.iOutJson)
    (uuid : Bytes) (contentType : HttpContentType) :
    NumericError (getInternalDirTask uuid contentType tasks).1 := by
  -- a task is handed out only when it is over, with the json it has then
  have hget : ∀ json rest, internalGet uuid tasks = (.S_SUCCESS, json, rest) →
      NumericError json := by
    intro json rest hjson
    induction tasks generalizing rest with
    | nil => cases hjson
    | cons task tasks ih =>
      unfold internalGet at hjson
      split at hjson
      · split at hjson
        next hover =>
          obtain ⟨rfl, -⟩ := Prod.mk.inj (Prod.mk.inj hjson).2
          exact h task List.mem_cons_self hover
        · cases hjson
      · obtain ⟨hret, hrest⟩ := Prod.mk.inj hjson
        refine ih (fun t ht => h t (List.mem_cons_of_mem _ ht)) (internalGet uuid tasks).2.2 ?_
        rw [← hret, ← (Prod.mk.inj hrest).1]
  unfold getInternalDirTask
  split
  · exact numericError_set_self _ _
  split
  · exact (numericError_set_self _ _).set _ (by decide)
  split
  next json rest hjson => exact hget json rest hjson
  · exact (numericError_set_self _ _).set _ (by decide)

/-! ### What the client makes of it -/

/-- A number under `error` stops the reader of `error`. -/
theorem readError_of_numericError {json : Json} (h : NumericError json) :
    ContentRemote.readError json = .error .typeError := by
  obtain ⟨n, hn⟩ := h
  cases json with
  | obj fs =>
    have hat : (Json.obj fs).at? "error" = .ok (.num n) := by
      change Except.ok _ = _
      rw [hn]
      rfl
    simp only [ContentRemote.readError, hn, hat]
    rfl
  | _ => cases hn

/-- Both ends of one request: the executor runs the task that `requestBody` asks for,
the answer to the `GET` is the JSON it left, and the client that receives it ends with
the records that the executor computed, one for each directory. -/
def Agrees (os : Os) (uuid baseDir : Bytes) (dirList : List Bytes) : Prop :=
  ∃ task attrs c,
    InternalTask.thdWorkerTaskDirAttrList os
        { iUuid := uuid
          iTaskStatus := .T_TASK_RUNNING
          iJson := ContentRemote.requestBody uuid baseDir dirList } = .ok (task, attrs) ∧
      attrs.length = dirList.length ∧
      ContentRemote.receive uuid (getInternalDirTask uuid .APPLICATION_JSON [task]).1 =
        .ok (c, .S_SUCCESS) ∧
      c.attrList = attrs

/-- **The callback never gets past `error`.** Whatever the executor left, the client
that is served it stops with a type error. -/
theorem receive_served {os : Os} {task task' : InternalTask} {attrs : List FileAttr}
    (h : task.thdWorkerTaskDirAttrList os = .ok (task', attrs)) (uuid : Bytes) :
    ContentRemote.receive uuid (getInternalDirTask uuid .APPLICATION_JSON [task']).1 =
      .error .typeError := by
  have herror : NumericError (getInternalDirTask uuid .APPLICATION_JSON [task']).1 := by
    refine numericError_getInternalDirTask (fun t ht _ => ?_) uuid _
    rw [List.mem_singleton.mp ht]
    exact (thdWorkerTaskDirAttrList_spec h).2.2.1
  unfold ContentRemote.receive ContentRemote.httpGetCallback
  rw [readError_of_numericError herror]
  rfl

/-- **The two ends never agree**, whatever the list and whatever the system says. -/
theorem not_agrees (os : Os) (uuid baseDir : Bytes) (dirList : List Bytes) :
    ¬ Agrees os uuid baseDir dirList := by
  rintro ⟨task, attrs, c, hexec, -, hreceive, -⟩
  rw [receive_served hexec uuid] at hreceive
  cases hreceive

/-- One readable directory: the executor computes its record, and the client stops. -/
theorem not_agrees_one_dir :
    let st : PathStat := ⟨true, 0o40755, .name (ascii "root"), some (ascii "20240101000000")⟩
    let os : Os := ⟨fun _ => true, fun _ _ => some st⟩
    let task : InternalTask :=
      { iUuid := ascii "t"
        iTaskStatus := .T_TASK_RUNNING
        iJson := ContentRemote.requestBody (ascii "t") (ascii "/srv") [ascii "a"] }
    (task.thdWorkerTaskDirAttrList os).map Prod.snd =
        .ok [{ fMode := ascii "755", fOwner := ascii "root",
               fLastUpdated := ascii "20240101000000" }] ∧
      ¬ Agrees os (ascii "t") (ascii "/srv") [ascii "a"] := by
  refine ⟨rfl, ?_⟩
  rintro ⟨task, attrs, c, hexec, -, hreceive, -⟩
  rw [receive_served hexec (ascii "t")] at hreceive
  cases hreceive

/-! ### The schema of the client -/

namespace ContentRemote

/-- A record in the schema that the client reads. -/
def itemJson (attr : FileAttr) : Json :=
  (((Json.null.set "code" (codeJson attr.fCode)).set "mode" (.str attr.fMode)).set
    "owner" (.str attr.fOwner)).set "last_updated" (.str attr.fLastUpdated)

/-- An answer in the schema that the client reads. -/
def replyJson (uuid : Bytes) (attrs : List FileAttr) : Json :=
  ((Json.null.set "error" (.str (ascii "0"))).set "uuid" (.str uuid)).set "result"
    (.arr (attrs.map itemJson))

theorem at?_set (j value : Json) (key key' : String) :
    (j.set key value).at? key' =
      .ok (if ascii key' = ascii key then value else (j.get? key').getD .null) := by
  change Except.ok (((j.set key value).get? key').getD .null) = _
  rw [Json.get?_set]
  split <;> rfl

theorem readItem_itemJson {attr : FileAttr} (h : attr.fSize = -1) :
    readItem (itemJson attr) = .ok attr := by
  have hmode : (itemJson attr).at? "mode" = .ok (.str attr.fMode) := by
    simp only [itemJson, at?_set, Json.get?_set]
    rfl
  have howner : (itemJson attr).at? "owner" = .ok (.str attr.fOwner) := by
    simp only [itemJson, at?_set, Json.get?_set]
    rfl
  have htime : (itemJson attr).at? "last_updated" = .ok (.str attr.fLastUpdated) := by
    simp only [itemJson, at?_set]
    rfl
  have hcode : (itemJson attr).at? "code" = .ok (codeJson attr.fCode) := by
    simp only [itemJson, at?_set, Json.get?_set]
    rfl
  have hcast : (codeJson attr.fCode).asCode = .ok attr.fCode := castCode_toNat _
  unfold readItem
  rw [hmode, howner, htime, hcode]
  change (do
    let fCode ← (codeJson attr.fCode).asCode
    return { fSize := -1, fMode := attr.fMode, fOwner := attr.fOwner,
             fLastUpdated := attr.fLastUpdated, fCode : FileAttr }) = _
  rw [hcast, ← h]
  rfl

theorem readItems_map_itemJson {attrs : List FileAttr} (h : ∀ attr ∈ attrs, attr.fSize = -1) :
    readItems (attrs.map itemJson) = .ok attrs := by
  induction attrs with
  | nil => rfl
  | cons attr attrs ih =>
    obtain ⟨hattr, hattrs⟩ := List.forall_mem_cons.mp h
    rw [List.map_cons, readItems, readItem_itemJson hattr, ih hattrs]
    rfl

/-- **The client reads back every list** that is written in its own schema. -/
theorem receive_reply (uuid : Bytes) {attrs : List FileAttr}
    (h : ∀ attr ∈ attrs, attr.fSize = -1) :
    ∃ c, receive uuid (replyJson uuid attrs) = .ok (c, .S_SUCCESS) ∧ c.attrList = attrs := by
  have herror : readError (replyJson uuid attrs) = .ok .S_SUCCESS := rfl
  have hbody : readBody uuid (replyJson uuid attrs) = .ok (.S_SUCCESS, attrs) := by
    have huuid : assertFault (uuid = uuid) = .ok () := assertFault_of rfl
    unfold readBody
    rw [herror]
    change (do
      assertFault (uuid = uuid)
      let attrs' ← readItems (attrs.map itemJson)
      return (DcCommonCode.S_SUCCESS, attrs')) = _
    rw [huuid, readItems_map_itemJson h]
    rfl
  -- the callback reads only the code, and leaves the body for `get_dir_list_attr`
  have hcall : (waiting uuid).httpGetCallback (replyJson uuid attrs) =
      .ok { waiting uuid with
        getRespBody := replyJson uuid attrs
        dirListOutQ := [.S_SUCCESS] } := by
    unfold httpGetCallback
    rw [herror]
    rfl
  refine ⟨{ waiting uuid with
    attrList := attrs
    getDirListStatus := .DIR_LIST_STATUS_OVER
    getRespBody := replyJson uuid attrs }, ?_, rfl⟩
  unfold receive
  rw [hcall]
  simp only [bind, Except.bind, getDirListAttr, waiting]
  rw [hbody]
  rfl

/-- Written in the schema of the client, what the executor computed would arrive. -/
theorem receive_reply_of_dirListAttr {os : Os} {dirList : List Bytes} {attrs : List FileAttr}
    (h : thdWorkerDirListAttr os dirList = .ok attrs) (uuid : Bytes) :
    ∃ c, receive uuid (replyJson uuid attrs) = .ok (c, .S_SUCCESS) ∧ c.attrList = attrs ∧
      c.attrList.length = dirList.length := by
  obtain ⟨hlen, hsize⟩ := dirListAttr_spec h
  obtain ⟨c, hreceive, hattrs⟩ := receive_reply uuid hsize
  exact ⟨c, hreceive, hattrs, hattrs ▸ hlen⟩

end ContentRemote

end Wfrest
