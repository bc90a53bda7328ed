import Wfrest.Base.ContentType
import Wfrest.Compare.Task
import Wfrest.Lib.Fifo
import Wfrest.Lib.Run
import Mathlib.Data.Finset.Basic

/-!
# The compare service

`POST /task/{uuid}` hands a task to a `dc_compare_t`, whose worker thread takes it
from `task_q_`, compares and puts it into `out_q_`; `GET /task/{uuid}` asks for a
result. The parties act on `task_uuid_set`, `task_q_` and `out_q_` in atomic steps:
one for a handler, two for a round of the worker (`read_once`, then everything up to
`out_q_.write`). No lock makes a handler one step in `main`; what is shown here is about
runs in which the handlers do not overlap.

* A `write` to a full channel spins until there is room, so the step waits.
* A step that ends the process (a failed assertion, a null message) or is not defined
  does not happen, and the run stops there.
* What `exe_sql_job` does depends on the file systems of the servers. It only fills
  in `diffs`, so a `Job` is what it leaves there and the code it returns.
-/

namespace Wfrest

/-- A channel of tasks, `SPSCQueue<void *>` of 64 items. -/
abbrev TaskChan := Fifo 64 DcApiTask

/-- The parts of a request to `POST /task/{uuid}`. -/
structure TaskReq where
  uuid : Bytes
  contentType : HttpContentType
  body : Bytes

/-- The outcome of `exe_sql_job`. -/
structure Job where
  ret : DcCommonCode
  diffs : List Json

/-- The state that `main` shares between its handlers and the worker. -/
structure Service where
  taskUuidSet : Finset Bytes
  taskQ : TaskChan
  /-- The task in `execute` between `task_q_.read_once` and `out_q_.write`. -/
  running : Option DcApiTask
  outQ : TaskChan

namespace Service

def start : Service := ⟨∅, .empty, none, .empty⟩

/-! ### `dc_compare_t` -/

/-- `dc_compare_t::add` -/
def add (s : Service) (task : DcApiTask) : Option Service :=
  (s.taskQ.push? task).map fun q => { s with taskQ := q }

/-- `dc_compare_t::get`: the result and the service without it, or `none` for
`E_DC_TASK_MEM_VOPS_NOT_OVER`. -/
def get (s : Service) : Option (Json × Service) :=
  s.outQ.pop?.map fun r => (r.1.compareResultJson, { s with outQ := r.2 })

/-- `task_q_.read_once` in `execute`, which the worker does when it holds no task. -/
def take (s : Service) : Option Service :=
  match s.running with
  | some _ => none
  | none => s.taskQ.pop?.map fun r => { s with taskQ := r.2, running := some r.1 }

end Service

/-- What `execute` writes to `t_compare_result_json`; `none` when the message of the
code is null. -/
def DcApiTask.execute (task : DcApiTask) (job : Job) : Option DcApiTask :=
  let json := ((task.compareResultJson.set "uuid" (.str task.taskUuid)).set "diffs"
    (.arr job.diffs)).set "next_shard" (.num (-1))
  if job.ret = .S_SUCCESS then some { task with compareResultJson := json }
  else
    (dcCommonCodeMsg job.ret).map fun msg =>
      { task with
        compareResultJson := (json.set "errno" (.num job.ret.toNat)).set "error" (.str msg) }

namespace Service

/-- The rest of the round: the job and `out_q_.write`. -/
def finish (s : Service) (job : Job) : Option (Service × DcApiTask) := do
  let task ← s.running
  let task ← task.execute job
  let outQ ← s.outQ.push? task
  return ({ s with running := none, outQ := outQ }, task)

/-! ### The handlers -/

/-- The answer of a handler, and what it did to the queues. -/
inductive Reply where
  /-- Nothing was done. -/
  | refused (json : Json)
  /-- The task was added. -/
  | accepted (task : DcApiTask) (json : Json)
  /-- `dc_compare_t::get` returned `S_SUCCESS`. -/
  | delivered (json : Json)

/-- `std::to_string` of a code. -/
def codeString (c : DcCommonCode) : Bytes := ascii (toString c.toNat)

/-- An answer with an `error`. -/
def errorJson (uuid : Bytes) (error : Bytes) : Json :=
  (Json.null.set "error" (.str error)).set "uuid" (.str uuid)

/-- The handler of `POST /task/{uuid}`; `parse` is `cJSON_Parse`. `none` when the
handler waits in `add`, ends the process, or does what is not defined. -/
def postTask (parse : Bytes → Option CJson) (s : Service) (req : TaskReq) :
    Option (Service × Reply) :=
  if req.uuid = [] then some (s, .refused (errorJson req.uuid (ascii "uuid is empty")))
  else if req.contentType ≠ .APPLICATION_JSON then
    some (s, .refused ((errorJson req.uuid (ascii "content type is not json")).set
      "content_type" (.num req.contentType.toNat)))
  else if req.body = [] then
    some (s, .refused (errorJson req.uuid (ascii "body is empty")))
  else
    match buildTaskFromJson req.body (parse (cStr req.body)) with
    | .error .panic => none
    | .error .undefined => none
    | .error (.code ret) =>
      some (s, .refused (errorJson req.uuid
        (ascii "build_task_from_json failed: error:" ++ codeString ret)))
    | .ok task =>
      if req.uuid ≠ task.taskUuid then
        some (s, .refused (errorJson req.uuid
          (ascii "uuid is not equal to task->t_task_uuid")))
      else
        -- `add` never fails, so its error answer is not reached
        (s.add task).map fun s =>
          ({ s with taskUuidSet := insert req.uuid s.taskUuidSet },
            .accepted task ((Json.null.set "uuid" (.str req.uuid)).set "msg"
              (.str (ascii "put into queue, wait for schedule to run"))))

/-- The handler of `GET /task/{uuid}`. -/
def getTask (s : Service) (uuid : Bytes) : Service × Reply :=
  if uuid = [] then (s, .refused (errorJson uuid (ascii "uuid is empty")))
  else if uuid ∉ s.taskUuidSet then (s, .refused (errorJson uuid (ascii "task not found")))
  else
    match s.get with
    | some (json, s) => ({ s with taskUuidSet := s.taskUuidSet.erase uuid }, .delivered json)
    | none =>
      (s, .refused ((errorJson uuid (ascii "task still running...")).set "errno"
        (.num DcCommonCode.E_DC_TASK_MEM_VOPS_NOT_OVER.toNat)))

/-! ### The service as a machine -/

/-- The atomic steps of the parties. -/
inductive Event where
  | post (req : TaskReq)
  | get (uuid : Bytes)
  | take
  | finish (job : Job)

/-- What a step shows. -/
inductive Output where
  | reply (r : Reply)
  | taken
  | finished (task : DcApiTask)

/-- One step. -/
def step (parse : Bytes → Option CJson) (s : Service) : Event → Option (Service × Output)
  | .post req => (s.postTask parse req).map fun r => (r.1, .reply r.2)
  | .get uuid => some ((s.getTask uuid).1, .reply (s.getTask uuid).2)
  | .take => s.take.map fun s => (s, .taken)
  | .finish job => (s.finish job).map fun r => (r.1, .finished r.2)

/-- The service from its start. -/
def machine (parse : Bytes → Option CJson) : Machine Service Event Output where
  init := start
  step := step parse

end Service

end Wfrest
