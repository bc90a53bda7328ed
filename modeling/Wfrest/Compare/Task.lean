import Wfrest.Compare.Json

/-!
# Compare tasks

The task document of `POST /task/{uuid}` and its validation. A reader stops with a
code, or the process ends in a failed `DC_COMMON_ASSERT`.

A refusal is logged first, and `LOG_ROOT_ERR` takes the finished message for a format. The
message quotes the document, so what it asks for may be an argument that is not there
(`handleErrorMsg`). The messages stored in a task or server record that is dropped with the
code are left out.
-/

namespace Wfrest

/-- The codes of the file comparer. -/
inductive DcCommonCode where
  | S_SUCCESS | E_RETRY | E_NOT_SUPPORT_FILE_TYPE | E_NOT_IMPL | E_NOT_FOUND | E_ASSERT
  | E_ARG_INVALID
  | E_OS_ENV_NOT_FOUND | E_OS_ENV_MEM | E_OS_ENV_STAT | E_OS_ENV_OPEN | E_OS_ENV_READ
  | E_OS_ENV_WRITE | E_OS_ENV_UNLINK | E_OS_ENV_GETPWUID | E_OS_ENV_CHDIR | E_OS_ENV_LOCALTIME
  | E_DC_INTERNAL_NO_UUID | E_DC_INTERNAL_NOT_JSON | E_DC_INTERNAL_EMPTY_BODY
  | E_DC_INTERNAL_NO_DIR_LIST | E_DC_INTERNAL_UUID_NOT_EQUAL
  | E_DC_CONTENT_DIR | E_DC_CONTENT_RETRY | E_DC_CONTENT_OVER
  | E_DC_API_CTX_NOT_FOUND | E_DC_API_CTX_NO_FREE
  | E_DC_TASK_HAS_BEEN_CANCELED | E_DC_TASK_MEM_VOPS_NOT_OVER
  | E_DC_COMPARE_CONNECT | E_DC_COMPARE_EXE_TASK_FAILED
  | E_DC_COMMON_ERROR_END
  deriving DecidableEq, Repr

/-- The numeric value of the enumerator. -/
def DcCommonCode.toNat (c : DcCommonCode) : Nat := c.ctorIdx

/-- The test of `LOG_CHECK_ERR_RETURN`. -/
def logCheckErr (ret : DcCommonCode) : Bool :=
  ret ≠ .S_SUCCESS ∧ ret ≠ .E_DC_CONTENT_RETRY ∧ ret ≠ .E_DC_CONTENT_OVER ∧
    ret ≠ .E_DC_TASK_MEM_VOPS_NOT_OVER

/-- `error_code_msg`. The remaining entries up to 40 are null. -/
def errorCodeMsg : List Bytes :=
  ["success", "function not implemented", "assert failed", "argument invalid",
    "os env structure not found", "os env memory error", "os env stat error",
    "os env open error", "os env read error", "os env write error", "os env unlink error",
    "dc api ctx not found", "dc api ctx no free", "dc compare connect error",
    "dc compare exe task failed", "dc db module need retry", "dc db msql init error",
    "dc db msql set charset error", "dc db msql set connect timeout error",
    "dc db msql connect error", "dc db mysql query error", "dc db mysql use result error",
    "dc db mysql no result error", "dc db mysql fetch row error",
    "dc db mysql no more rows error", "dc task has been canceled",
    "dc db mysql fetch field error", "dc db mysql pk not found error",
    "dc task too many diff rows"].map ascii

/-- `dc_common_code_msg`. The last code fails its assertion, and the codes from 29
on have a null message; `none` stands for both. -/
def dcCommonCodeMsg (error : DcCommonCode) : Option Bytes := errorCodeMsg[error.toNat]?

/-- How a reader of the task document stops. -/
inductive Stop where
  | panic
  /-- What happens is not defined. -/
  | undefined
  | code (c : DcCommonCode)
  deriving DecidableEq, Repr

/-- `return E_ARG_INVALID;` -/
def argInvalid {α : Type} : Except Stop α := .error (.code .E_ARG_INVALID)

/-- `DC_COMMON_ASSERT` -/
def dcCommonAssert (b : Bool) : Except Stop Unit := if b then .ok () else .error .panic

/-! ### The messages -/

/-- A format that asks for no argument: behind a `%` stands another one. Without arguments
every other conversion is undefined, and so is what is none. -/
def plainFormat : Bytes → Bool
  | [] => true
  | 37 :: 37 :: cs => plainFormat cs
  | c :: cs => c ≠ 37 && plainFormat cs

/-- `msg_buf` after `snprintf`. -/
def msgBuf (text : Bytes) : Bytes := text.take 4095

/-- `HANDLE_ERROR_MSG`, and `return E_ARG_INVALID;` behind it. `LOG_ROOT_ERR` is given `msg_buf`
and nothing else. -/
def handleErrorMsg {α : Type} (text : Bytes) : Except Stop α :=
  if plainFormat (msgBuf text) then argInvalid else .error .undefined

/-- A message of `build_task_server_info`. -/
def serverText (taskUuid : Bytes) (what : String) : Bytes :=
  ascii "task:" ++ cStr taskUuid ++ ascii what

/-- A message of `build_task_from_json` on a task whose uuid has been read. -/
def taskText (taskUuid taskContent : Bytes) (what : String) : Bytes :=
  ascii "task:" ++ cStr taskUuid ++ ascii " did not provide " ++ ascii what ++
    ascii ", task_content:" ++ cStr taskContent

/-- The input part of `dc_api_ctx_default_server_info_t`. `c_task` is the task that
holds the record. -/
structure ServerInfo where
  center : Bytes
  host : Bytes
  user : Bytes
  password : Bytes
  port : Int
  standard : Bool
  excludedFileRegex : List Bytes
  baseDir : Bytes
  pathToCompare : Bytes

/-- The parts of `dc_api_task_t` that are read: the input part and the result. -/
structure DcApiTask where
  taskUuid : Bytes
  serverInfoArr : List ServerInfo
  resultType : Int
  excludedFileRegex : List Bytes
  stdIdx : Int
  compareResultJson : Json

/-! ### Reading a task -/

/-- A member that must be a non-empty string. -/
def readString (item : CJson) (name : String) (text : Bytes) : Except Stop Bytes :=
  match item.getObjectItem name with
  | some (.string s) => if s = [] then handleErrorMsg text else .ok s
  | _ => handleErrorMsg text

/-- The elements of an array of strings; `nonEmpty` refuses an empty one. -/
def readStrings (nonEmpty : Bool) (text : Bytes) : List CJson → Except Stop (List Bytes)
  | [] => .ok []
  | .string s :: items => do
    if nonEmpty ∧ s = [] then handleErrorMsg text
    let ss ← readStrings nonEmpty text items
    return s :: ss
  | _ :: _ => handleErrorMsg text

/-- The optional member `excluded_file_regex`. -/
def readExcludedFileRegex (nonEmpty : Bool) (item : CJson) (text : Bytes) :
    Except Stop (List Bytes) :=
  match item.getObjectItem "excluded_file_regex" with
  | none => .ok []
  | some (.array items) => readStrings nonEmpty text items
  | some _ => handleErrorMsg text

/-- The member `port`. -/
def readPort (item : CJson) (text : Bytes) : Except Stop Int :=
  match item.getObjectItem "port" with
  | some (.number n _) => if n ≤ 0 then handleErrorMsg text else .ok n
  | _ => handleErrorMsg text

/-- The member `standard`. -/
def readStandard (item : CJson) (text : Bytes) : Except Stop Bool :=
  match item.getObjectItem "standard" with
  | some .true => .ok true
  | some .false => .ok false
  | _ => handleErrorMsg text

/-- `build_task_server_info`. An assertion follows the checks of each field. -/
def buildTaskServerInfo (taskUuid : Bytes) (serverItem : CJson) : Except Stop ServerInfo := do
  let text := serverText taskUuid
  let center ← readString serverItem "center" (text " center name is invalid")
  dcCommonAssert (0 < center.length)
  let host ← readString serverItem "host" (text " server host is invalid")
  dcCommonAssert (0 < host.length)
  let user ← readString serverItem "user" (text " given server's user is invalid")
  dcCommonAssert (0 < user.length)
  let password ← readString serverItem "password" (text " given server's password is invalid")
  dcCommonAssert (0 < password.length)
  let port ← readPort serverItem (text " given server's port is invalid")
  dcCommonAssert (0 < port)
  let standard ← readStandard serverItem (text " given server's standard is invalid")
  let excludedFileRegex ← readExcludedFileRegex true serverItem
    (text " given server's excluded_file_regex is invalid")
  let pathToCompare ← readString serverItem "path_to_compare"
    (text " given server's path_to_compare is invalid")
  dcCommonAssert (0 < pathToCompare.length)
  let baseDir ← readString serverItem "base_dir" (text " given server's base_dir is invalid")
  dcCommonAssert (0 < baseDir.length)
  return { center, host, user, password, port, standard, excludedFileRegex, baseDir,
           pathToCompare }

/-- An element of `servers`. -/
def readServerItem (taskUuid taskContent : Bytes) (item : CJson) : Except Stop ServerInfo :=
  match item with
  | .object _ => buildTaskServerInfo taskUuid item
  | _ => handleErrorMsg (taskText taskUuid taskContent "valid servers")

/-- The loop over `servers`. -/
def buildServers (taskUuid taskContent : Bytes) : List CJson → Except Stop (List ServerInfo)
  | [] => .ok []
  | item :: items => do
    let info ← readServerItem taskUuid taskContent item
    let infos ← buildServers taskUuid taskContent items
    return info :: infos

/-- The member `servers`. -/
def readServers (taskUuid taskContent : Bytes) (root : CJson) :
    Except Stop (List ServerInfo) :=
  match root.getObjectItem "servers" with
  | some (.array items) => buildServers taskUuid taskContent items
  | _ => handleErrorMsg (taskText taskUuid taskContent "valid servers")

/-- The loop that looks for the standard server, from index `i` on, with `stdIdx`
the one found so far or -1. A second one is logged with a format of its own. -/
def findStdIdx (text : Bytes) (i : Nat) (stdIdx : Int) : List ServerInfo → Except Stop Int
  | [] => if stdIdx = -1 then handleErrorMsg text else .ok stdIdx
  | info :: infos =>
    if info.standard then
      if stdIdx ≠ -1 then argInvalid else findStdIdx text (i + 1) i infos
    else findStdIdx text (i + 1) stdIdx infos

/-- The member `uuid`. An empty one passes this check. -/
def readUuid (taskContent : Bytes) (root : CJson) : Except Stop Bytes :=
  match root.getObjectItem "uuid" with
  | some (.string s) => .ok s
  | _ => handleErrorMsg (ascii "did not provide task_uuid, task_content:" ++ cStr taskContent)

/-- The optional member `result_type`, which is in range when it is 0
(`FC_TASK_RESULT_GIT_DIFF`). -/
def readResultType (root : CJson) (text : Bytes) : Except Stop Int :=
  match root.getObjectItem "result_type" with
  | none => .ok 0
  | some (.number n _) => if 0 ≤ n ∧ n < 1 then .ok n else handleErrorMsg text
  | some _ => handleErrorMsg text

/-- The message about a document that does not parse. -/
def notJsonText (taskContent : Bytes) : Bytes :=
  ascii "task_content:" ++ cStr taskContent ++ ascii " is not a valid json string"

/-- `build_task_from_json` on the text of the document and its tree, `none` when it does not
parse. -/
def buildTaskFromJson (taskContent : Bytes) (root : Option CJson) : Except Stop DcApiTask := do
  dcCommonAssert (0 < taskContent.length)
  match root with
  | none => handleErrorMsg (notJsonText taskContent)
  | some root =>
    let taskUuid ← readUuid taskContent root
    dcCommonAssert (0 < taskUuid.length)
    let text := taskText taskUuid taskContent
    let resultType ← readResultType root (text "valid result_type")
    dcCommonAssert (0 ≤ resultType ∧ resultType < 1)
    let excludedFileRegex ← readExcludedFileRegex false root (text "valid excluded_file_regex")
    let serverInfoArr ← readServers taskUuid taskContent root
    let stdIdx ← findStdIdx (text "standard server") 0 (-1) serverInfoArr
    return { taskUuid, serverInfoArr, resultType, excludedFileRegex, stdIdx,
             compareResultJson := .null }

/-- A sequence of readers succeeds when each of them does. -/
theorem ok_bind {ε α β : Type} (a : α) (f : α → Except ε β) : (Except.ok a >>= f) = f a :=
  pure_bind a f

theorem bind_eq_ok {ε α β : Type} {x : Except ε α} {f : α → Except ε β} {b : β} :
    x >>= f = .ok b ↔ ∃ a, x = .ok a ∧ f a = .ok b := by
  cases x <;> simp [bind, Except.bind]

theorem toOption_eq_some {ε α : Type} {x : Except ε α} {a : α} :
    x.toOption = some a ↔ x = .ok a := by
  cases x with
  | ok b => simp [Except.toOption]
  | error e => simp [Except.toOption]

theorem exists_bind_eq_ok {ε α β : Type} {x : Except ε α} {f : α → Except ε β} :
    (∃ b, x >>= f = .ok b) ↔ ∃ a, x = .ok a ∧ ∃ b, f a = .ok b := by
  simp only [bind_eq_ok]
  exact ⟨fun ⟨b, a, hx, hf⟩ => ⟨a, hx, b, hf⟩, fun ⟨a, hx, b, hf⟩ => ⟨b, a, hx, hf⟩⟩

theorem handleErrorMsg_ne_ok {α : Type} (text : Bytes) (a : α) :
    (handleErrorMsg text : Except Stop α) ≠ .ok a := by
  unfold handleErrorMsg argInvalid
  split <;> simp

/-- Nothing follows a refusal. -/
theorem handleErrorMsg_bind {α β : Type} (text : Bytes) (f : α → Except Stop β) :
    (handleErrorMsg text >>= f) = handleErrorMsg text := by
  unfold handleErrorMsg
  split
  · rfl
  · rfl

/-- A new task has no result. -/
theorem compareResultJson_of_buildTaskFromJson {taskContent : Bytes} {root : Option CJson}
    {task : DcApiTask} (h : buildTaskFromJson taskContent root = .ok task) :
    task.compareResultJson = .null := by
  obtain ⟨-, -, h⟩ := bind_eq_ok.mp h
  cases root with
  | none => exact absurd h (handleErrorMsg_ne_ok _ _)
  | some root =>
    obtain ⟨uuid, -, h⟩ := bind_eq_ok.mp h
    obtain ⟨-, -, h⟩ := bind_eq_ok.mp h
    obtain ⟨resultType, -, h⟩ := bind_eq_ok.mp h
    obtain ⟨-, -, h⟩ := bind_eq_ok.mp h
    obtain ⟨regex, -, h⟩ := bind_eq_ok.mp h
    obtain ⟨servers, -, h⟩ := bind_eq_ok.mp h
    obtain ⟨stdIdx, -, h⟩ := bind_eq_ok.mp h
    rw [← Except.ok.inj h]

end Wfrest
