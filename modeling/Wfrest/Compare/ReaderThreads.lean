import Mathlib.Logic.Relation
import Wfrest.Compare.Chan
import Wfrest.Compare.LocalReader

/-!
# The threads of the local reader

`dc_content_local_t` once more, step by step. The caller is in a call of `do_file_content`
or of `get_file_content`, the worker in its loop, and a step is one load, store or slot
access on a channel, one assignment, or one round of the loop over the bytes of a buffer.
The steps of the two threads interleave in any order.

The outputs `*lines_sha1_` and `*empty_lines_` are not locked. What keeps the threads apart
is the protocol: the caller has at most one command on its way, and as long as it has one it
only looks into `ret_q_`. `Flight` says where the command is, and `Link` what this means for
the channels, for both threads and for the descriptor.

A `posix_memalign` that fails breaks one promise of it. Its code is an answer like any other,
`get_file_content` hands it on, and `file_read_state_` keeps announcing a command that has
been answered (`not_protocol_memFails`). Otherwise the protocol holds
(`protocol_of_not_memFails`).

* `open` and `read` do not fail here. `posix_memalign` may.
* A step that ends in a failed assertion does not happen, and the run stops there. Before it,
  the conditions on `file_read_fd_` that the next steps assert are `Asserted`.
* The addresses of the outputs are those of fresh ones in every `do_file_content`.
* The rounds of the worker between two accesses to a channel are the read of the coarser
  machine of the local reader (`works_fileContentRead`).
-/

namespace Wfrest

/-- The `q_(64)` of a `msg_chan_t`. -/
abbrev MsgQ (α : Type*) := SPSCQueue (spscCap 64) α

instance neZeroMsgQ : NeZero (spscCap 64) := inferInstance

/-- Where the caller stands. -/
inductive Caller where
  /-- In no call. -/
  | out
  /-- Before `file_path_ = path`. -/
  | setFilePath (path : Bytes)
  /-- Before `lines_sha1_ = lines_sha1`. -/
  | setLinesSha1
  /-- Before `empty_lines_ = empty_lines`. -/
  | setEmptyLines
  /-- In `cmd_q_.write`. -/
  | write (cmd : Cmd) (c : Push (spscCap 64))
  /-- Before an assignment to `file_read_state_`, and then the call returns. -/
  | setState (st : ReadState)
  /-- In `ret_q_.read_once`. -/
  | readOnce (r : ReadOnce (spscCap 64) DcCommonCode)
  /-- Before the assertion at the end of the file. -/
  | seesOver
  deriving DecidableEq

/-- Where `thd_worker` stands. -/
inductive ThdWorker where
  /-- In `cmd_q_.read_once`. -/
  | readOnce (r : ReadOnce (spscCap 64) Cmd)
  /-- Before `thd_worker_file_content_prepare`. -/
  | prepare
  /-- Before `thd_worker_file_content_read`. -/
  | read
  /-- In the loop of `compute_sha1_by_lines` at index `i`, with `rest` behind it. -/
  | lines (buf : Bytes) (curLineBegin i : Nat) (rest : Bytes)
  /-- Before what is done with `file_pre_line_` at the end of the file. -/
  | flush
  /-- Before `close`. -/
  | close
  /-- In `ret_q_.write`. -/
  | write (ret : DcCommonCode) (c : Push (spscCap 64))

/-- `dc_content_local_t` and its threads. -/
structure ReaderThreads where
  file : FileReader
  fileReadState : ReadState
  cmdQ : MsgQ Cmd
  retQ : MsgQ DcCommonCode
  caller : Caller
  worker : ThdWorker

/-- What a step shows. -/
inductive ThreadOutput where
  | quiet
  /-- A `cmd_q_.write` of the caller returns. -/
  | sent (cmd : Cmd)
  /-- A `ret_q_.read_once` of the caller returns a message. -/
  | received (ret : DcCommonCode)
  deriving DecidableEq

namespace ThreadOutput

/-- The command that a step writes. -/
def sent? : ThreadOutput → Option Cmd
  | sent cmd => some cmd
  | _ => none

/-- The answer that a step reads. -/
def received? : ThreadOutput → Option DcCommonCode
  | received ret => some ret
  | _ => none

end ThreadOutput

namespace Caller

/-- The state that follows a command. -/
def stateOf : Cmd → ReadState
  | .CMD_TYPE_FILE_CONTENT_PREPARE => .FILE_CONTENT_READ_PREPAR
  | .CMD_TYPE_FILE_CONTENT_READ => .FILE_CONTENT_READ_DO

/-- The call goes on after a step of `cmd_q_.write`. -/
def afterWrite (cmd : Cmd) : Push (spscCap 64) → Caller
  | .returned => setState (stateOf cmd)
  | c => write cmd c

/-- `get_file_content` goes on with a message. -/
def afterMessage (st : ReadState) (ret : DcCommonCode) : Caller :=
  if st = .FILE_CONTENT_READ_PREPAR then
    if logCheckErr ret then out else write .CMD_TYPE_FILE_CONTENT_READ .loadHead
  else if ret = .S_SUCCESS then setState .FILE_CONTENT_READ_OVER
  else if ret = .E_DC_CONTENT_OVER then seesOver
  else out

/-- `get_file_content` goes on after a step of `ret_q_.read_once`. -/
def afterRead (st : ReadState) : ReadOnce (spscCap 64) DcCommonCode → Caller
  | .returned none => out
  | .returned (some ret) => afterMessage st ret
  | r => readOnce r

/-- Its calls of `cmd_q_.write`. -/
def pushes : Caller → List (Cmd × Push (spscCap 64))
  | write cmd c => [(cmd, c)]
  | _ => []

/-- Its calls of `ret_q_.read_once`. -/
def reads : Caller → List (ReadOnce (spscCap 64) DcCommonCode)
  | readOnce r => [r]
  | _ => []

end Caller

namespace ThdWorker

/-- The work on a command. -/
def ofCmd : Cmd → ThdWorker
  | .CMD_TYPE_FILE_CONTENT_PREPARE => prepare
  | .CMD_TYPE_FILE_CONTENT_READ => read

/-- The loop goes on after a step of `cmd_q_.read_once`. -/
def afterRead : ReadOnce (spscCap 64) Cmd → ThdWorker
  | .returned none => readOnce .front
  | .returned (some cmd) => ofCmd cmd
  | r => readOnce r

/-- The loop goes on after a step of `ret_q_.write`. -/
def afterWrite (ret : DcCommonCode) : Push (spscCap 64) → ThdWorker
  | .returned => readOnce .front
  | c => write ret c

/-- What follows the loop over a buffer: a short one is the end of the file. -/
def afterLines (buf : Bytes) : ThdWorker :=
  if buf.length < DC_CONTENT_FILE_READ_BUF then flush else write .S_SUCCESS .loadHead

/-- It is executing a command. -/
def executing : ThdWorker → Bool
  | readOnce _ => false
  | _ => true

/-- Its calls of `ret_q_.write`. -/
def pushes : ThdWorker → List (DcCommonCode × Push (spscCap 64))
  | write ret c => [(ret, c)]
  | _ => []

/-- Its calls of `cmd_q_.read_once`. -/
def reads : ThdWorker → List (ReadOnce (spscCap 64) Cmd)
  | readOnce r => [r]
  | _ => []

end ThdWorker

namespace ReaderThreads

def start : ReaderThreads where
  file := .fresh []
  fileReadState := .FILE_CONTENT_READ_INIT
  cmdQ := .empty
  retQ := .empty
  caller := .out
  worker := .readOnce .front

/-! ### The steps of the caller -/

/-- The beginning of `do_file_content`. -/
def doFileContent (s : ReaderThreads) (path : Bytes) : Option ReaderThreads :=
  if s.caller = .out ∧ s.fileReadState = .FILE_CONTENT_READ_INIT then
    some { s with caller := .setFilePath path }
  else none

/-- The beginning of `get_file_content`. -/
def getFileContent (s : ReaderThreads) : Option ReaderThreads :=
  if s.caller = .out then
    match s.fileReadState with
    | .FILE_CONTENT_READ_PREPAR => some { s with caller := .readOnce .front }
    | .FILE_CONTENT_READ_DO => some { s with caller := .readOnce .front }
    | .FILE_CONTENT_READ_OVER =>
      some { s with caller := .write .CMD_TYPE_FILE_CONTENT_READ .loadHead }
    -- `DC_COMMON_ASSERT(0 == "not handle status")`
    | .FILE_CONTENT_READ_INIT => none
  else none

/-- The next step of a call. -/
def callerStep (s : ReaderThreads) : Option (ReaderThreads × ThreadOutput) :=
  match s.caller with
  | .out => none
  | .setFilePath path =>
    some ({ s with file := { s.file with filePath := path }, caller := .setLinesSha1 }, .quiet)
  | .setLinesSha1 =>
    some ({ s with file := { s.file with linesSha1 := [] }, caller := .setEmptyLines }, .quiet)
  | .setEmptyLines =>
    some ({ s with
      file := { s.file with emptyLines := 0 }
      caller := .write .CMD_TYPE_FILE_CONTENT_PREPARE .loadHead }, .quiet)
  | .write cmd c =>
    (s.cmdQ.push cmd c).map fun p =>
      ({ s with cmdQ := p.1, caller := .afterWrite cmd p.2 },
        if p.2 = .returned then .sent cmd else .quiet)
  | .setState st => some ({ s with fileReadState := st, caller := .out }, .quiet)
  | .readOnce r =>
    (s.retQ.readOnce r).map fun p =>
      ({ s with retQ := p.1, caller := .afterRead s.fileReadState p.2 },
        match p.2.taken with
        | none => .quiet
        | some ret => .received ret)
  | .seesOver =>
    if s.file.fileReadFd = -1 then
      some ({ s with caller := .setState .FILE_CONTENT_READ_INIT }, .quiet)
    else none

/-! ### The steps of the worker -/

/-- `thd_worker_file_content_prepare`, where `open` returns `fd`. -/
def prepare (s : ReaderThreads) (memalign : Bool) (fd : Nat) : Option ReaderThreads :=
  match s.worker with
  | .prepare =>
    match s.file.prepare memalign (some fd) with
    | .ok (file, ret) => some { s with file := file, worker := .write ret .loadHead }
    | .error _ => none
  | _ => none

/-- The beginning of `thd_worker_file_content_read`, where `read` delivers `buf`. -/
def read (D : Digests) (s : ReaderThreads) (buf : Bytes) : Option ReaderThreads :=
  match s.worker with
  | .read =>
    if 0 < s.file.filePath.length ∧ 0 ≤ s.file.fileReadFd ∧
        buf.length ≤ DC_CONTENT_FILE_READ_BUF then
      some { s with
        file := { s.file with md5 := D.md5 buf }
        worker := if buf.length = 0 then .flush else .lines buf 0 0 buf }
    else none
  | _ => none

/-- A step of the loop that works on the file. -/
def onFile (s : ReaderThreads) (r : Except Fault FileReader) (worker : ThdWorker) :
    Option ReaderThreads :=
  match r with
  | .ok file => some { s with file := file, worker := worker }
  | .error _ => none

/-- The next step of the worker elsewhere. -/
def workerStep (D : Digests) (s : ReaderThreads) : Option ReaderThreads :=
  match s.worker with
  | .readOnce r =>
    (s.cmdQ.readOnce r).map fun p => { s with cmdQ := p.1, worker := .afterRead p.2 }
  | .prepare | .read => none
  | .lines buf curLineBegin i (c :: rest) =>
    if c = lf then
      s.onFile (s.file.computeSha1OfSingleLine D ((buf.take i).drop curLineBegin))
        (.lines buf (i + 1) (i + 1) rest)
    else some { s with worker := .lines buf curLineBegin (i + 1) rest }
  | .lines buf curLineBegin i [] =>
    if curLineBegin < i then
      s.onFile (s.file.appendToPreLine ((buf.take i).drop curLineBegin)) (.afterLines buf)
    else some { s with worker := .afterLines buf }
  | .flush => s.onFile (s.file.flushPreLine D) .close
  | .close =>
    some { s with file := s.file.close, worker := .write .E_DC_CONTENT_OVER .loadHead }
  | .write ret c =>
    (s.retQ.push ret c).map fun p => { s with retQ := p.1, worker := .afterWrite ret p.2 }

/-! ### The threads as a machine -/

/-- The steps of the two threads, with the answers of the operating system. -/
inductive Event where
  | doFileContent (path : Bytes)
  | getFileContent
  | caller
  | prepare (memalign : Bool) (fd : Nat)
  | read (buf : Bytes)
  | worker
  deriving DecidableEq

/-- Is it a step of the worker? -/
def Event.isWorker : Event → Bool
  | prepare _ _ => true
  | read _ => true
  | worker => true
  | _ => false

/-- One step. -/
def step (D : Digests) (s : ReaderThreads) : Event → Option (ReaderThreads × ThreadOutput)
  | .doFileContent path => (s.doFileContent path).map fun s => (s, .quiet)
  | .getFileContent => s.getFileContent.map fun s => (s, .quiet)
  | .caller => s.callerStep
  | .prepare memalign fd => (s.prepare memalign fd).map fun s => (s, .quiet)
  | .read buf => (s.read D buf).map fun s => (s, .quiet)
  | .worker => (s.workerStep D).map fun s => (s, .quiet)

/-- The threads from the construction of the reader. -/
def machine (D : Digests) : Machine ReaderThreads Event ThreadOutput := ⟨start, step D⟩

/-! ### The work on a read command -/

/-- The worker takes a step. -/
def Works (D : Digests) (s s' : ReaderThreads) : Prop := s.workerStep D = some s'

/-- The rounds of the loop are `compute_sha1_by_lines` from index `i`. -/
theorem works_lines {D : Digests} {s : ReaderThreads} {buf rest : Bytes} {curLineBegin i : Nat}
    {file file' : FileReader}
    (h : FileReader.computeSha1ByLinesFrom D buf file curLineBegin i rest = .ok file') :
    Relation.ReflTransGen (Works D)
      { s with file := file, worker := .lines buf curLineBegin i rest }
      { s with file := file', worker := .afterLines buf } := by
  induction rest generalizing file curLineBegin i with
  | nil =>
    refine Relation.ReflTransGen.single ?_
    unfold FileReader.computeSha1ByLinesFrom at h
    simp only [Works, workerStep]
    split at h
    next hlt => rw [if_pos hlt, h, onFile]
    next hle =>
      obtain rfl := Except.ok.inj h
      rw [if_neg hle]
  | cons c rest ih =>
    unfold FileReader.computeSha1ByLinesFrom at h
    split at h
    next hlf =>
      obtain ⟨file₁, hline, h⟩ := bind_eq_ok.mp h
      refine Relation.ReflTransGen.head ?_ (ih h)
      simp only [Works, workerStep]
      rw [if_pos hlf, hline, onFile]
    next hlf =>
      refine Relation.ReflTransGen.head ?_ (ih h)
      simp only [Works, workerStep]
      rw [if_neg hlf]

/-- What follows at the end of the file. -/
theorem works_flush {D : Digests} {s : ReaderThreads} {file file' : FileReader}
    (h : file.flushPreLine D = .ok file') :
    Relation.ReflTransGen (Works D) { s with file := file, worker := .flush }
      { s with file := file'.close, worker := .write .E_DC_CONTENT_OVER .loadHead } := by
  have hclose : Works D { s with file := file', worker := .close }
      { s with file := file'.close, worker := .write .E_DC_CONTENT_OVER .loadHead } := rfl
  refine Relation.ReflTransGen.head ?_ (Relation.ReflTransGen.single hclose)
  simp only [Works, workerStep]
  rw [h, onFile]

/-- **The steps of the worker carry out `thd_worker_file_content_read`.** -/
theorem works_fileContentRead {D : Digests} {s : ReaderThreads} {buf : Bytes}
    {file : FileReader} {ret : DcCommonCode} (hw : s.worker = .read)
    (hbuf : buf.length ≤ DC_CONTENT_FILE_READ_BUF)
    (h : s.file.fileContentRead D (some buf) = .ok (file, ret)) :
    ∃ s₁, s.read D buf = some s₁ ∧
      Relation.ReflTransGen (Works D) s₁
        { s with file := file, worker := .write ret .loadHead } := by
  obtain ⟨_, hpath, h⟩ := bind_eq_ok.mp h
  obtain ⟨_, hopen, h⟩ := bind_eq_ok.mp h
  have hpath := of_decide_eq_true (assertFault_eq_ok.mp hpath)
  have hopen := of_decide_eq_true (assertFault_eq_ok.mp hopen)
  have hread : s.read D buf = some { s with
      file := { s.file with md5 := D.md5 buf }
      worker := if buf.length = 0 then .flush else .lines buf 0 0 buf } := by
    simp only [read, hw]
    rw [if_pos ⟨hpath, hopen, hbuf⟩]
  refine ⟨_, hread, ?_⟩
  dsimp only at h
  -- as the source splits: nothing was read, less than the buffer holds, or all of it
  split at h
  next hzero =>
    obtain ⟨file₁, hflush, h⟩ := bind_eq_ok.mp h
    obtain ⟨rfl, rfl⟩ := Prod.mk.inj (Except.ok.inj h)
    rw [if_pos hzero]
    exact works_flush hflush
  next hzero =>
    rw [if_neg hzero]
    split at h
    next hshort =>
      obtain ⟨file₁, hlines, h⟩ := bind_eq_ok.mp h
      obtain ⟨file₂, hflush, h⟩ := bind_eq_ok.mp h
      obtain ⟨rfl, rfl⟩ := Prod.mk.inj (Except.ok.inj h)
      obtain ⟨-, -, hlines⟩ := bind_eq_ok.mp hlines
      have hloop := works_lines (s := s) hlines
      rw [ThdWorker.afterLines, if_pos hshort] at hloop
      exact hloop.trans (works_flush hflush)
    next hfull =>
      obtain ⟨-, -, h⟩ := bind_eq_ok.mp h
      obtain ⟨file₁, hlines, h⟩ := bind_eq_ok.mp h
      obtain ⟨rfl, rfl⟩ := Prod.mk.inj (Except.ok.inj h)
      obtain ⟨-, -, hlines⟩ := bind_eq_ok.mp hlines
      have hloop := works_lines (s := s) hlines
      rw [ThdWorker.afterLines, if_neg hfull] at hloop
      exact hloop

/-! ### The command on its way -/

/-- Where the one command of the caller is, and its answer. -/
inductive Flight where
  | none
  | sent (cmd : Cmd)
  | running (cmd : Cmd)
  | done (cmd : Cmd) (ret : DcCommonCode)
  | replied (cmd : Cmd) (ret : DcCommonCode)

namespace Flight

/-- What is in `cmd_q_` then. -/
def cmds : Flight → List Cmd
  | sent cmd => [cmd]
  | _ => []

/-- What is in `ret_q_` then. -/
def rets : Flight → List DcCommonCode
  | replied _ ret => [ret]
  | _ => []

/-- What the caller has sent and has no answer to. -/
def commands : Flight → List Cmd
  | none => []
  | sent cmd => [cmd]
  | running cmd => [cmd]
  | done cmd _ => [cmd]
  | replied cmd _ => [cmd]

/-- The worker has nothing to do with it. -/
def AtRest : Flight → Prop
  | running _ => False
  | done _ _ => False
  | _ => True

end Flight

/-- The descriptor that a command expects. -/
def Needs : Cmd → Int → Prop
  | .CMD_TYPE_FILE_CONTENT_PREPARE, fd => fd = -1
  | .CMD_TYPE_FILE_CONTENT_READ, fd => 0 ≤ fd

section Fits

-- a `posix_memalign` has failed
variable (failed : Prop)

/-- The answers to a command, with the descriptor that they leave. -/
def Answers : Cmd → DcCommonCode → Int → Prop
  | .CMD_TYPE_FILE_CONTENT_PREPARE, ret, fd =>
    (ret = .S_SUCCESS ∧ 0 ≤ fd) ∨ (failed ∧ ret = .E_OS_ENV_MEM ∧ fd = -1)
  | .CMD_TYPE_FILE_CONTENT_READ, ret, fd =>
    (ret = .S_SUCCESS ∧ 0 ≤ fd) ∨ (ret = .E_DC_CONTENT_OVER ∧ fd = -1)

/-- The descriptor fits the place of the command. -/
def Flight.Fits : Flight → Int → Prop
  | .none, _ => True
  | .sent cmd, fd => Needs cmd fd
  | .running cmd, fd => Needs cmd fd
  | .done cmd ret, fd => Answers failed cmd ret fd
  | .replied cmd ret, fd => Answers failed cmd ret fd

/-- What `file_read_state_` says of the commands on their way and of the descriptor. -/
def StateFits : ReadState → List Cmd → Int → Prop
  | .FILE_CONTENT_READ_INIT, cmds, fd => cmds = [] ∧ fd = -1
  | .FILE_CONTENT_READ_PREPAR, cmds, fd =>
    cmds = [.CMD_TYPE_FILE_CONTENT_PREPARE] ∨ (failed ∧ cmds = [] ∧ fd = -1)
  | .FILE_CONTENT_READ_DO, cmds, _ => cmds = [.CMD_TYPE_FILE_CONTENT_READ]
  | .FILE_CONTENT_READ_OVER, cmds, fd => cmds = [] ∧ 0 ≤ fd

/-- What the caller relies on, with `file_read_state_`, the commands on their way and the
descriptor. -/
def CallerFits (st : ReadState) (cmds : List Cmd) (fd : Int) : Caller → Prop
  | .out => StateFits failed st cmds fd
  | .setFilePath _ => st = .FILE_CONTENT_READ_INIT ∧ cmds = [] ∧ fd = -1
  | .setLinesSha1 => st = .FILE_CONTENT_READ_INIT ∧ cmds = [] ∧ fd = -1
  | .setEmptyLines => st = .FILE_CONTENT_READ_INIT ∧ cmds = [] ∧ fd = -1
  | .write cmd _ => cmds = [] ∧ Needs cmd fd
  | .setState st' => StateFits failed st' cmds fd
  | .readOnce _ =>
    (st = .FILE_CONTENT_READ_PREPAR ∨ st = .FILE_CONTENT_READ_DO) ∧ StateFits failed st cmds fd
  | .seesOver => cmds = [] ∧ fd = -1

end Fits

/-- What the worker does with the command. -/
def WorkerFits (f : Flight) : ThdWorker → Prop
  | .readOnce _ => f.AtRest
  | .prepare => f = .running .CMD_TYPE_FILE_CONTENT_PREPARE
  | .read => f = .running .CMD_TYPE_FILE_CONTENT_READ
  | .lines _ _ _ _ => f = .running .CMD_TYPE_FILE_CONTENT_READ
  | .flush => f = .running .CMD_TYPE_FILE_CONTENT_READ
  | .close => f = .running .CMD_TYPE_FILE_CONTENT_READ
  | .write ret _ => ∃ cmd, f = .done cmd ret

/-- The two threads agree that the command is at `f`. -/
structure Link (failed : Prop) (s : ReaderThreads) (f : Flight) : Prop where
  cmdQ : s.cmdQ.Sound f.cmds s.caller.pushes s.worker.reads
  retQ : s.retQ.Sound f.rets s.worker.pushes s.caller.reads
  worker : WorkerFits f s.worker
  caller : CallerFits failed s.fileReadState f.commands s.file.fileReadFd s.caller
  fd : f.Fits failed s.file.fileReadFd

/-! ### One step -/

variable {failed : Prop} {s s' : ReaderThreads} {f : Flight} {o : ThreadOutput} {D : Digests}

/-- The commands on their way before and after a step with this output. -/
def Moves : ThreadOutput → List Cmd → List Cmd → Prop
  | .quiet, cmds, cmds' => cmds' = cmds
  | .sent cmd, cmds, cmds' => cmds = [] ∧ cmds' = [cmd]
  | .received _, cmds, cmds' => cmds' = [] ∧ ∃ cmd, cmds = [cmd]

/-- The state that follows a command fits it. -/
theorem stateFits_stateOf (cmd : Cmd) (fd : Int) :
    StateFits failed (Caller.stateOf cmd) [cmd] fd := by
  cases cmd with
  | CMD_TYPE_FILE_CONTENT_PREPARE => exact Or.inl rfl
  | CMD_TYPE_FILE_CONTENT_READ => rfl

/-- A worker with nothing to do stays where it is when the caller moves the command. -/
theorem WorkerFits.of_atRest {f' : Flight} {w : ThdWorker} (h : WorkerFits f w) (hf : f.AtRest)
    (hf' : f'.AtRest) : WorkerFits f' w := by
  cases w with
  | readOnce => exact hf'
  | write =>
    obtain ⟨cmd, rfl⟩ := h
    exact hf.elim
  | _ =>
    obtain rfl := h
    exact hf.elim

/-- The caller goes on elsewhere, with the command where it was. -/
theorem Link.goOn (hl : Link failed s f) {file : FileReader} {st : ReadState} {c : Caller}
    (hpushes : ∀ p ∈ c.pushes, ¬ p.2.Active) (hreads : ∀ r ∈ c.reads, ¬ r.Active)
    (hfd : file.fileReadFd = s.file.fileReadFd)
    (hfits : CallerFits failed st f.commands s.file.fileReadFd c) :
    Link failed { s with file := file, fileReadState := st, caller := c } f where
  cmdQ := hl.cmdQ.pushes_of_not_active hpushes
  retQ := hl.retQ.reads_of_not_active hreads
  worker := hl.worker
  caller := by
    change CallerFits failed st f.commands file.fileReadFd c
    rw [hfd]
    exact hfits
  fd := by
    change f.Fits failed file.fileReadFd
    rw [hfd]
    exact hl.fd

theorem Caller.pushes_nil {c : Caller} (h : c.pushes = []) : ∀ p ∈ c.pushes, ¬ p.2.Active := by
  rw [h]
  exact List.forall_mem_nil _

theorem Caller.reads_nil {c : Caller} (h : c.reads = []) : ∀ r ∈ c.reads, ¬ r.Active := by
  rw [h]
  exact List.forall_mem_nil _

theorem Caller.pushes_write_loadHead {cmd : Cmd} :
    ∀ p ∈ (Caller.write cmd .loadHead).pushes, ¬ p.2.Active :=
  List.forall_mem_singleton.mpr id

theorem Caller.reads_readOnce_front : ∀ r ∈ (Caller.readOnce .front).reads, ¬ r.Active :=
  List.forall_mem_singleton.mpr id

theorem link_doFileContent {path : Bytes} (hl : Link failed s f)
    (h : s.doFileContent path = some s') : Link failed s' f := by
  unfold doFileContent at h
  split at h
  next hinit =>
    obtain rfl := Option.some.inj h
    have hcaller := hl.caller
    rw [hinit.1, hinit.2] at hcaller
    exact hl.goOn (Caller.pushes_nil rfl) (Caller.reads_nil rfl) rfl ⟨hinit.2, hcaller⟩
  · cases h

theorem link_getFileContent (hl : Link failed s f) (h : s.getFileContent = some s') :
    Link failed s' f := by
  unfold getFileContent at h
  split at h
  next hout =>
    have hcaller := hl.caller
    rw [hout] at hcaller
    split at h
    next hst =>
      obtain rfl := Option.some.inj h
      exact hl.goOn (Caller.pushes_nil rfl) Caller.reads_readOnce_front rfl ⟨Or.inl hst, hcaller⟩
    next hst =>
      obtain rfl := Option.some.inj h
      exact hl.goOn (Caller.pushes_nil rfl) Caller.reads_readOnce_front rfl ⟨Or.inr hst, hcaller⟩
    next hst =>
      -- `OVER`: no command is on its way and the file is still open
      obtain rfl := Option.some.inj h
      rw [hst] at hcaller
      exact hl.goOn Caller.pushes_write_loadHead (Caller.reads_nil rfl) rfl hcaller
    · cases h
  · cases h

/-- A step of `cmd_q_.write`: the command joins the queue when it returns. -/
theorem link_write {cmd : Cmd} {c c' : Push (spscCap 64)} {q : MsgQ Cmd}
    (hl : Link failed s f) (hw : s.caller = .write cmd c)
    (hpush : s.cmdQ.push cmd c = some (q, c')) :
    ∃ f', Link failed { s with cmdQ := q, caller := .afterWrite cmd c' } f' ∧
      Moves (if c' = .returned then .sent cmd else .quiet) f.commands f'.commands := by
  have hcmdQ := hl.cmdQ
  have hretQ := hl.retQ
  have hcaller := hl.caller
  rw [hw] at hcmdQ hretQ hcaller
  obtain ⟨hnone, hneeds⟩ := hcaller
  -- the caller writes only when nothing is on its way
  obtain ⟨cmds, hsound, hcmds⟩ := hcmdQ.push_single hpush
  cases f with
  | none =>
    rcases hcmds with ⟨rfl, rfl⟩ | ⟨hc', rfl⟩
    · rw [if_pos rfl]
      exact ⟨.sent cmd, ⟨hsound.no_pushes, hretQ, hl.worker.of_atRest trivial trivial,
        stateFits_stateOf cmd _, hneeds⟩, rfl, rfl⟩
    · rw [if_neg hc']
      have hafter : Caller.afterWrite cmd c' = .write cmd c' := by
        cases c' with
        | returned => exact absurd rfl hc'
        | _ => rfl
      rw [hafter]
      exact ⟨.none, ⟨hsound, hretQ, hl.worker, ⟨rfl, hneeds⟩, trivial⟩, rfl⟩
  | _ => cases hnone

/-- With an answer `get_file_content` goes on as the state says: the command it was for is
the one of this state. -/
theorem callerFits_afterMessage {cmd : Cmd} {ret : DcCommonCode} {st : ReadState} {fd : Int}
    (hst : st = .FILE_CONTENT_READ_PREPAR ∨ st = .FILE_CONTENT_READ_DO)
    (hfits : StateFits failed st [cmd] fd) (hret : Answers failed cmd ret fd) :
    CallerFits failed st [] fd (.afterMessage st ret) := by
  rcases hst with rfl | rfl
  · rcases hfits with hcmd | ⟨-, hcmd, -⟩
    · obtain rfl := List.singleton_inj.mp hcmd
      rcases hret with ⟨rfl, hopen⟩ | ⟨hfailed, rfl, hclosed⟩
      · -- prepared: the first read command follows
        exact ⟨rfl, hopen⟩
      · -- no memory: the state stays `PREPAR` without a command
        exact Or.inr ⟨hfailed, rfl, hclosed⟩
    · cases hcmd
  · obtain rfl := List.singleton_inj.mp hfits
    rcases hret with ⟨rfl, hopen⟩ | ⟨rfl, hclosed⟩
    · exact ⟨rfl, hopen⟩
    · exact ⟨rfl, hclosed⟩

/-- It goes on without a call of a channel at work. -/
theorem not_active_afterMessage (st : ReadState) (ret : DcCommonCode) :
    (∀ p ∈ (Caller.afterMessage st ret).pushes, ¬ p.2.Active) ∧
      ∀ r ∈ (Caller.afterMessage st ret).reads, ¬ r.Active := by
  unfold Caller.afterMessage
  split
  · split
    · exact ⟨Caller.pushes_nil rfl, Caller.reads_nil rfl⟩
    · exact ⟨Caller.pushes_write_loadHead, Caller.reads_nil rfl⟩
  · split
    · exact ⟨Caller.pushes_nil rfl, Caller.reads_nil rfl⟩
    · split
      · exact ⟨Caller.pushes_nil rfl, Caller.reads_nil rfl⟩
      · exact ⟨Caller.pushes_nil rfl, Caller.reads_nil rfl⟩

/-- A step of `ret_q_.read_once`: the answer leaves the queue when it returns. -/
theorem link_readOnce {r r' : ReadOnce (spscCap 64) DcCommonCode} {q : MsgQ DcCommonCode}
    (hl : Link failed s f) (hr : s.caller = .readOnce r)
    (hread : s.retQ.readOnce r = some (q, r')) :
    ∃ f', Link failed { s with retQ := q, caller := .afterRead s.fileReadState r' } f' ∧
      Moves (r'.taken.elim .quiet .received) f.commands f'.commands := by
  have hcmdQ := hl.cmdQ
  have hretQ := hl.retQ
  have hcaller := hl.caller
  rw [hr] at hcmdQ hretQ hcaller
  obtain ⟨hst, hfits⟩ := hcaller
  obtain ⟨rets, hsound, hrets⟩ := hretQ.readOnce_single hread
  cases r' with
  | returned v =>
    cases v with
    | none =>
      -- nothing was there, and the call answers `E_DC_CONTENT_RETRY`
      rw [show rets = f.rets from hrets.symm] at hsound
      exact ⟨f, ⟨hcmdQ, hsound.no_reads, hl.worker, hfits, hl.fd⟩, rfl⟩
    | some ret =>
      cases f with
      | replied cmd ret' =>
        obtain ⟨rfl, hnil⟩ := List.cons.inj hrets
        obtain rfl : rets = [] := hnil.symm
        obtain ⟨hpushes, hreads⟩ := not_active_afterMessage s.fileReadState ret'
        exact ⟨.none, ⟨hcmdQ.pushes_of_not_active hpushes, hsound.reads_of_not_active hreads,
          hl.worker.of_atRest trivial trivial, callerFits_afterMessage hst hfits hl.fd, trivial⟩,
          rfl, cmd, rfl⟩
      | _ => cases hrets
  | _ =>
    rw [show rets = f.rets from hrets.symm] at hsound
    exact ⟨f, ⟨hcmdQ, hsound, hl.worker, ⟨hst, hfits⟩, hl.fd⟩, rfl⟩

/-- **A step of the caller.** -/
theorem link_callerStep (hl : Link failed s f) (h : s.callerStep = some (s', o)) :
    ∃ f', Link failed s' f' ∧ Moves o f.commands f'.commands := by
  have hcaller := hl.caller
  cases hc : s.caller with
  | out =>
    simp only [callerStep, hc] at h
    cases h
  | setFilePath | setLinesSha1 =>
    simp only [callerStep, hc] at h
    obtain ⟨rfl, rfl⟩ := Prod.mk.inj (Option.some.inj h)
    rw [hc] at hcaller
    exact ⟨f, hl.goOn (Caller.pushes_nil rfl) (Caller.reads_nil rfl) rfl hcaller, rfl⟩
  | setEmptyLines =>
    -- the last assignment before the command is written
    simp only [callerStep, hc] at h
    obtain ⟨rfl, rfl⟩ := Prod.mk.inj (Option.some.inj h)
    rw [hc] at hcaller
    exact ⟨f, hl.goOn Caller.pushes_write_loadHead (Caller.reads_nil rfl) rfl hcaller.2, rfl⟩
  | write cmd c =>
    simp only [callerStep, hc] at h
    obtain ⟨⟨q, c'⟩, hpush, heq⟩ := Option.map_eq_some_iff.mp h
    obtain ⟨rfl, rfl⟩ := Prod.mk.inj heq
    exact link_write hl hc hpush
  | setState st =>
    simp only [callerStep, hc] at h
    obtain ⟨rfl, rfl⟩ := Prod.mk.inj (Option.some.inj h)
    rw [hc] at hcaller
    exact ⟨f, hl.goOn (Caller.pushes_nil rfl) (Caller.reads_nil rfl) rfl hcaller, rfl⟩
  | readOnce r =>
    simp only [callerStep, hc] at h
    obtain ⟨⟨q, r'⟩, hread, heq⟩ := Option.map_eq_some_iff.mp h
    obtain ⟨rfl, rfl⟩ := Prod.mk.inj heq
    obtain ⟨f', hl', hmoves⟩ := link_readOnce hl hc hread
    refine ⟨f', hl', ?_⟩
    cases htaken : r'.taken <;> rw [htaken] at hmoves <;> exact hmoves
  | seesOver =>
    -- the assertion holds, and the reader becomes ready for the next file
    simp only [callerStep, hc] at h
    rw [hc] at hcaller
    split at h
    · obtain ⟨rfl, rfl⟩ := Prod.mk.inj (Option.some.inj h)
      exact ⟨f, hl.goOn (Caller.pushes_nil rfl) (Caller.reads_nil rfl) rfl hcaller, rfl⟩
    · cases h

/-- While a command is on its way the caller does not rely on the descriptor. -/
theorem CallerFits.of_command {cmd : Cmd} {st : ReadState} {fd fd' : Int} {c : Caller}
    (h : CallerFits failed st [cmd] fd c) : CallerFits failed st [cmd] fd' c := by
  -- the states that speak of the descriptor are those without a command
  have hstate : ∀ st', StateFits failed st' [cmd] fd → StateFits failed st' [cmd] fd' := by
    intro st' h
    cases st' with
    | FILE_CONTENT_READ_INIT => cases h.1
    | FILE_CONTENT_READ_PREPAR =>
      rcases h with hcmd | ⟨-, hnil, -⟩
      · exact Or.inl hcmd
      · cases hnil
    | FILE_CONTENT_READ_DO => exact h
    | FILE_CONTENT_READ_OVER => cases h.1
  cases c with
  | out => exact hstate st h
  | setState st' => exact hstate st' h
  | readOnce => exact ⟨h.1, hstate st h.2⟩
  | setFilePath | setLinesSha1 | setEmptyLines => cases h.2.1
  | write | seesOver => cases h.1

/-- The worker goes on with a command. -/
theorem Link.workOn {cmd : Cmd} (hl : Link failed s (.running cmd)) {file : FileReader}
    {w : ThdWorker} (hpushes : w.pushes = []) (hreads : w.reads = [])
    (hworker : WorkerFits (.running cmd) w) (hfd : file.fileReadFd = s.file.fileReadFd) :
    Link failed { s with file := file, worker := w } (.running cmd) where
  cmdQ := by
    rw [hreads]
    exact hl.cmdQ.no_reads
  retQ := by
    rw [hpushes]
    exact hl.retQ.no_pushes
  worker := hworker
  caller := hl.caller.of_command
  fd := by
    change Needs cmd file.fileReadFd
    rw [hfd]
    exact hl.fd

/-- The worker is done with a command. -/
theorem Link.finish {cmd : Cmd} (hl : Link failed s (.running cmd)) {file : FileReader}
    {ret : DcCommonCode} (hret : Answers failed cmd ret file.fileReadFd) :
    Link failed { s with file := file, worker := .write ret .loadHead } (.done cmd ret) where
  cmdQ := hl.cmdQ.no_reads
  retQ := hl.retQ.pushes_of_not_active (List.forall_mem_singleton.mpr id)
  worker := ⟨cmd, rfl⟩
  caller := hl.caller.of_command
  fd := hret

theorem onFile_eq_some {r : Except Fault FileReader} {w : ThdWorker}
    (h : s.onFile r w = some s') :
    ∃ file, r = .ok file ∧ s' = { s with file := file, worker := w } := by
  unfold onFile at h
  split at h
  next file =>
    obtain rfl := Option.some.inj h
    exact ⟨file, rfl, rfl⟩
  · cases h

theorem link_prepare {memalign : Bool} {fd : Nat} (hl : Link failed s f)
    (hfailed : s.file.PrepareFails memalign (some fd) → failed)
    (h : s.prepare memalign fd = some s') :
    ∃ f', Link failed s' f' ∧ f'.commands = f.commands := by
  unfold prepare at h
  split at h
  next hw =>
    have hworker := hl.worker
    rw [hw] at hworker
    obtain rfl := hworker
    split at h
    next file ret hprep =>
      obtain rfl := Option.some.inj h
      refine ⟨.done .CMD_TYPE_FILE_CONTENT_PREPARE ret, hl.finish ?_, rfl⟩
      -- the worker answers, and the descriptor is what the answer says
      rcases FileReader.prepare_cases hl.fd hprep with hsucc | ⟨rfl | rfl, hclosed, hfails⟩
      · exact Or.inl hsucc
      · exact Or.inr ⟨hfailed hfails, rfl, hclosed⟩
      · cases FileReader.eq_none_of_prepare hprep
    · cases h
  · cases h

theorem link_read {buf : Bytes} (hl : Link failed s f) (h : s.read D buf = some s') :
    Link failed s' f := by
  unfold read at h
  split at h
  next hw =>
    have hworker := hl.worker
    rw [hw] at hworker
    obtain rfl := hworker
    split at h
    · obtain rfl := Option.some.inj h
      split
      · exact hl.workOn rfl rfl rfl rfl
      · exact hl.workOn rfl rfl rfl rfl
    · cases h
  · cases h

/-- After a buffer the file is still open: its end is handled next, or the command is done. -/
theorem link_afterLines (hl : Link failed s (.running .CMD_TYPE_FILE_CONTENT_READ))
    {file : FileReader} (hfd : file.fileReadFd = s.file.fileReadFd) (buf : Bytes) :
    ∃ f', Link failed { s with file := file, worker := .afterLines buf } f' ∧
      f'.commands = [.CMD_TYPE_FILE_CONTENT_READ] := by
  unfold ThdWorker.afterLines
  split
  · exact ⟨_, hl.workOn rfl rfl rfl hfd, rfl⟩
  · have hopen : 0 ≤ file.fileReadFd := by
      rw [hfd]
      exact hl.fd
    exact ⟨_, hl.finish (Or.inl ⟨rfl, hopen⟩), rfl⟩

/-- A step of `cmd_q_.read_once`: the worker takes the command when it returns. -/
theorem link_take {r r' : ReadOnce (spscCap 64) Cmd} {q : MsgQ Cmd} (hl : Link failed s f)
    (hr : s.worker = .readOnce r) (hread : s.cmdQ.readOnce r = some (q, r')) :
    ∃ f', Link failed { s with cmdQ := q, worker := .afterRead r' } f' ∧
      f'.commands = f.commands := by
  have hcmdQ := hl.cmdQ
  have hretQ := hl.retQ
  have hworker := hl.worker
  rw [hr] at hcmdQ hretQ hworker
  obtain ⟨cmds, hsound, hcmds⟩ := hcmdQ.readOnce_single hread
  cases r' with
  | returned v =>
    cases v with
    | none =>
      -- nothing was there, and the loop starts again
      rw [show cmds = f.cmds from hcmds.symm] at hsound
      exact ⟨f, ⟨hsound.reads_of_not_active (List.forall_mem_singleton.mpr id), hretQ, hworker,
        hl.caller, hl.fd⟩, rfl⟩
    | some cmd =>
      cases f with
      | sent cmd' =>
        obtain ⟨rfl, hnil⟩ := List.cons.inj hcmds
        obtain rfl : cmds = [] := hnil.symm
        refine ⟨.running cmd', ?_, rfl⟩
        cases cmd' with
        | CMD_TYPE_FILE_CONTENT_PREPARE =>
          exact ⟨hsound.no_reads, hretQ, rfl, hl.caller, hl.fd⟩
        | CMD_TYPE_FILE_CONTENT_READ =>
          exact ⟨hsound.no_reads, hretQ, rfl, hl.caller, hl.fd⟩
      | _ => cases hcmds
  | _ =>
    rw [show cmds = f.cmds from hcmds.symm] at hsound
    exact ⟨f, ⟨hsound, hretQ, hworker, hl.caller, hl.fd⟩, rfl⟩

/-- A step of `ret_q_.write`: the answer joins the queue when it returns. -/
theorem link_reply {ret : DcCommonCode} {c c' : Push (spscCap 64)} {q : MsgQ DcCommonCode}
    (hl : Link failed s f) (hw : s.worker = .write ret c)
    (hpush : s.retQ.push ret c = some (q, c')) :
    ∃ f', Link failed { s with retQ := q, worker := .afterWrite ret c' } f' ∧
      f'.commands = f.commands := by
  have hcmdQ := hl.cmdQ
  have hretQ := hl.retQ
  have hworker := hl.worker
  rw [hw] at hcmdQ hretQ hworker
  obtain ⟨cmd, rfl⟩ := hworker
  -- the answer joins an empty queue, whose reader does not notice
  obtain ⟨rets, hsound, hrets⟩ := hretQ.push_single hpush
  rcases hrets with ⟨rfl, rfl⟩ | ⟨hc', rfl⟩
  · exact ⟨.replied cmd ret, ⟨hcmdQ.reads_of_not_active (List.forall_mem_singleton.mpr id),
      hsound.no_pushes, trivial, hl.caller, hl.fd⟩, rfl⟩
  · have hafter : ThdWorker.afterWrite ret c' = .write ret c' := by
      cases c' with
      | returned => exact absurd rfl hc'
      | _ => rfl
    rw [hafter]
    exact ⟨.done cmd ret, ⟨hcmdQ, hsound, ⟨cmd, rfl⟩, hl.caller, hl.fd⟩, rfl⟩

/-- **A step of the worker** other than the two that the operating system answers. -/
theorem link_workerStep (hl : Link failed s f) (h : s.workerStep D = some s') :
    ∃ f', Link failed s' f' ∧ f'.commands = f.commands := by
  have hworker := hl.worker
  cases hw : s.worker with
  | readOnce r =>
    simp only [workerStep, hw] at h
    obtain ⟨⟨q, r'⟩, hread, rfl⟩ := Option.map_eq_some_iff.mp h
    exact link_take hl hw hread
  | prepare | read =>
    simp only [workerStep, hw] at h
    cases h
  | lines buf curLineBegin i rest =>
    rw [hw] at hworker
    obtain rfl := hworker
    -- behind the last byte the loop is over; a line ends at every other `\n`
    cases rest with
    | nil =>
      simp only [workerStep, hw] at h
      split at h
      · obtain ⟨file, happ, rfl⟩ := onFile_eq_some h
        exact link_afterLines hl (FileReader.fileReadFd_appendToPreLine happ) buf
      · obtain rfl := Option.some.inj h
        exact link_afterLines hl rfl buf
    | cons c rest =>
      simp only [workerStep, hw] at h
      split at h
      · obtain ⟨file, hline, rfl⟩ := onFile_eq_some h
        exact ⟨_, hl.workOn rfl rfl rfl (FileReader.fileReadFd_computeSha1OfSingleLine hline), rfl⟩
      · obtain rfl := Option.some.inj h
        exact ⟨_, hl.workOn rfl rfl rfl rfl, rfl⟩
  | flush =>
    rw [hw] at hworker
    obtain rfl := hworker
    simp only [workerStep, hw] at h
    obtain ⟨file, hflush, rfl⟩ := onFile_eq_some h
    exact ⟨_, hl.workOn rfl rfl rfl (FileReader.fileReadFd_flushPreLine hflush), rfl⟩
  | close =>
    rw [hw] at hworker
    obtain rfl := hworker
    simp only [workerStep, hw] at h
    obtain rfl := Option.some.inj h
    exact ⟨_, hl.finish (Or.inr ⟨rfl, rfl⟩), rfl⟩
  | write ret c =>
    simp only [workerStep, hw] at h
    obtain ⟨⟨q, c'⟩, hpush, rfl⟩ := Option.map_eq_some_iff.mp h
    exact link_reply hl hw hpush

/-! ### More failures -/

variable {failed' : Prop}

theorem StateFits.mono (hf : failed → failed') {st : ReadState} {cmds : List Cmd} {fd : Int}
    (h : StateFits failed st cmds fd) : StateFits failed' st cmds fd := by
  cases st with
  | FILE_CONTENT_READ_PREPAR =>
    rcases h with hcmd | ⟨hfail, hnone⟩
    · exact Or.inl hcmd
    · exact Or.inr ⟨hf hfail, hnone⟩
  | _ => exact h

theorem CallerFits.mono (hf : failed → failed') {st : ReadState} {cmds : List Cmd} {fd : Int}
    {c : Caller} (h : CallerFits failed st cmds fd c) : CallerFits failed' st cmds fd c := by
  cases c with
  | out => exact StateFits.mono hf h
  | setState st' => exact StateFits.mono hf h
  | readOnce => exact ⟨h.1, h.2.mono hf⟩
  | _ => exact h

theorem Answers.mono (hf : failed → failed') {cmd : Cmd} {ret : DcCommonCode} {fd : Int}
    (h : Answers failed cmd ret fd) : Answers failed' cmd ret fd := by
  cases cmd with
  | CMD_TYPE_FILE_CONTENT_PREPARE =>
    rcases h with hsucc | ⟨hfail, hmem⟩
    · exact Or.inl hsucc
    · exact Or.inr ⟨hf hfail, hmem⟩
  | CMD_TYPE_FILE_CONTENT_READ => exact h

theorem Link.mono (hl : Link failed s f) (hf : failed → failed') : Link failed' s f where
  cmdQ := hl.cmdQ
  retQ := hl.retQ
  worker := hl.worker
  caller := hl.caller.mono hf
  fd := by
    have hfd := hl.fd
    cases f with
    | none => trivial
    | sent | running => exact hfd
    | done | replied => exact hfd.mono hf

/-! ### What a state promises -/

/-- The commands in `cmd_q_`, the one at work and the answers in `ret_q_`. -/
def onTheWay (s : ReaderThreads) : Nat :=
  s.cmdQ.items.length + (if s.worker.executing then 1 else 0) + s.retQ.items.length

/-- `*lines_sha1_` and `*empty_lines_` -/
def outputs (s : ReaderThreads) : List Bytes × Int := (s.file.linesSha1, s.file.emptyLines)

/-- What the next steps assert of `file_read_fd_`. -/
structure Asserted (s : ReaderThreads) : Prop where
  prepare : s.worker = .prepare → s.file.fileReadFd = -1
  read : s.worker = .read → 0 ≤ s.file.fileReadFd
  seesOver : s.caller = .seesOver → s.file.fileReadFd = -1

/-- The number of commands on their way is that of the ones without an answer. -/
theorem onTheWay_eq (hl : Link failed s f) : s.onTheWay = f.commands.length := by
  have hcmds := congrArg List.length hl.cmdQ.items_eq
  have hrets := congrArg List.length hl.retQ.items_eq
  have hworker := hl.worker
  rw [List.length_map] at hcmds hrets
  unfold onTheWay
  rw [hcmds, hrets]
  -- where the worker stands says where the command is, or that it is elsewhere
  cases hw : s.worker with
  | readOnce r =>
    rw [hw] at hworker
    cases f with
    | running | done => exact hworker.elim
    | none | sent | replied => rfl
  | write ret c =>
    rw [hw] at hworker
    obtain ⟨cmd, rfl⟩ := hworker
    rfl
  | _ =>
    rw [hw] at hworker
    obtain rfl := hworker
    rfl

theorem onTheWay_le (hl : Link failed s f) : s.onTheWay ≤ 1 := by
  rw [onTheWay_eq hl]
  cases f with
  | none => exact Nat.zero_le 1
  | _ => exact le_refl 1

/-- Between two calls `file_read_state_` tells whether a command is on its way. -/
theorem onTheWay_iff (hl : Link failed s f) (hout : s.caller = .out) (hok : ¬ failed) :
    s.onTheWay = 1 ↔ s.fileReadState = .FILE_CONTENT_READ_PREPAR ∨
      s.fileReadState = .FILE_CONTENT_READ_DO := by
  have hcaller := hl.caller
  rw [hout] at hcaller
  rw [onTheWay_eq hl]
  -- without a failure `PREPAR` and `DO` are the states with a command
  cases hst : s.fileReadState <;> rw [hst] at hcaller
  case FILE_CONTENT_READ_INIT => simp [hcaller.1]
  case FILE_CONTENT_READ_PREPAR =>
    rcases hcaller with hcmd | ⟨hfail, -⟩
    · simp [hcmd]
    · exact absurd hfail hok
  case FILE_CONTENT_READ_OVER => simp [hcaller.1]
  case FILE_CONTENT_READ_DO => simp [show f.commands = _ from hcaller]

theorem asserted_of_link (hl : Link failed s f) : Asserted s where
  prepare hw := by
    have hworker := hl.worker
    rw [hw] at hworker
    obtain rfl := hworker
    exact hl.fd
  read hw := by
    have hworker := hl.worker
    rw [hw] at hworker
    obtain rfl := hworker
    exact hl.fd
  seesOver hc := by
    have hcaller := hl.caller
    rw [hc] at hcaller
    exact hcaller.2

/-- **The worker changes the outputs in a read command only.** -/
theorem running_of_outputs_ne {e : Event} (hl : Link failed s f) (he : e.isWorker = true)
    (hstep : step D s e = some (s', o)) (hne : s'.outputs ≠ s.outputs) :
    f = .running .CMD_TYPE_FILE_CONTENT_READ := by
  have hworker := hl.worker
  cases e with
  | doFileContent | getFileContent | caller => cases he
  | prepare memalign fd =>
    have h := (Machine.eq_some_of_map hstep).1
    unfold prepare at h
    split at h
    · split at h
      next file ret hprep =>
        obtain rfl := Option.some.inj h
        obtain ⟨hlines, hempty⟩ := FileReader.results_prepare hprep
        exact absurd (Prod.ext hlines hempty) hne
      · cases h
    · cases h
  | read buf =>
    have h := (Machine.eq_some_of_map hstep).1
    unfold read at h
    split at h
    next hw =>
      rw [hw] at hworker
      exact hworker
    · cases h
  | worker =>
    have h := (Machine.eq_some_of_map hstep).1
    cases hw : s.worker with
    | readOnce r =>
      -- on the channels the file is left alone
      simp only [workerStep, hw] at h
      obtain ⟨⟨q, r'⟩, -, rfl⟩ := Option.map_eq_some_iff.mp h
      exact absurd rfl hne
    | write ret c =>
      simp only [workerStep, hw] at h
      obtain ⟨⟨q, c'⟩, -, rfl⟩ := Option.map_eq_some_iff.mp h
      exact absurd rfl hne
    | prepare =>
      simp only [workerStep, hw] at h
      cases h
    | read | lines | flush | close =>
      rw [hw] at hworker
      exact hworker

/-! ### Whole runs -/

/-- What happened so far. -/
abbrev History := List (Event × ThreadOutput)

/-- The commands that the caller has written. -/
def sent (h : History) : List Cmd := h.filterMap fun x => x.2.sent?

/-- The answers that it has read. -/
def received (h : History) : List DcCommonCode := h.filterMap fun x => x.2.received?

/-- The commands that the caller has written and whose answers it has not read. -/
def outstanding (h : History) : List Cmd := (sent h).drop (received h).length

/-- The commands `cmds` are those of the history that have no answer. -/
def Unanswered (h : History) (cmds : List Cmd) : Prop :=
  ∃ past, sent h = past ++ cmds ∧ past.length = (received h).length

/-- No `posix_memalign` fails in this step. -/
def NotMemFails (_ : History) (s : ReaderThreads) (e : Event) (_ : ThreadOutput)
    (_ : ReaderThreads) : Prop :=
  ∀ memalign fd, e = .prepare memalign fd → ¬ s.file.PrepareFails memalign (some fd)

/-- What the protocol promises in a state. -/
structure Protocol (D : Digests) (h : History) (s : ReaderThreads) : Prop where
  /-- At most one command is on its way. -/
  atMostOne : s.onTheWay ≤ 1
  /-- When a call has returned, `file_read_state_` tells whether one is. -/
  returned : s.caller = .out → (s.onTheWay = 1 ↔ s.fileReadState = .FILE_CONTENT_READ_PREPAR ∨
    s.fileReadState = .FILE_CONTENT_READ_DO)
  /-- The worker changes the outputs while the caller waits for a read command. -/
  outputs : ∀ e s' o, e.isWorker = true → (machine D).step s e = some (s', o) →
    s'.outputs ≠ s.outputs → outstanding h = [.CMD_TYPE_FILE_CONTENT_READ] ∧
      (s.caller = .out → s.fileReadState = .FILE_CONTENT_READ_DO)
  /-- The assertions on the descriptor hold. -/
  asserted : Asserted s

/-- What holds in every reached state. -/
def Inv (D : Digests) (h : History) (s : ReaderThreads) : Prop :=
  ∃ f, Link (¬ (machine D).Always NotMemFails h) s f ∧ Unanswered h f.commands

variable {h : History} {e : Event}

theorem outstanding_eq {cmds : List Cmd} (hun : Unanswered h cmds) : outstanding h = cmds := by
  obtain ⟨past, hsent, hlen⟩ := hun
  unfold outstanding
  rw [hsent]
  exact List.drop_left' hlen

/-- An answer that is read belongs to the one command without an answer. -/
theorem Unanswered.snoc {cmds cmds' : List Cmd} (hun : Unanswered h cmds)
    (hmoves : Moves o cmds cmds') : Unanswered (h ++ [(e, o)]) cmds' := by
  obtain ⟨past, hsent, hlen⟩ := hun
  unfold Unanswered sent received
  rw [List.filterMap_append, List.filterMap_append, ← sent, ← received, hsent]
  cases o with
  | quiet =>
    -- what was sent and what was answered grow by at most one
    obtain rfl : cmds' = cmds := hmoves
    exact ⟨past, List.append_nil _, hlen.trans (congrArg List.length (List.append_nil _).symm)⟩
  | sent cmd =>
    obtain ⟨rfl, rfl⟩ := hmoves
    refine ⟨past, ?_, hlen.trans (congrArg List.length (List.append_nil _).symm)⟩
    rw [List.append_nil]
    rfl
  | received ret =>
    obtain ⟨rfl, cmd, rfl⟩ := hmoves
    refine ⟨past ++ [cmd], ?_, ?_⟩
    · rw [List.append_nil]
      exact List.append_nil _
    · rw [List.length_append, List.length_append, hlen]
      rfl

/-- A step that shows nothing leaves the commands without an answer as they were. -/
theorem inv_quiet (hun : Unanswered h f.commands) {op : Option ReaderThreads}
    (hop : op.map (fun s => (s, ThreadOutput.quiet)) = some (s', o))
    (hlink : op = some s' → ∃ f', Link (¬ (machine D).Always NotMemFails (h ++ [(e, o)])) s' f' ∧
      f'.commands = f.commands) : Inv D (h ++ [(e, o)]) s' := by
  obtain ⟨heq, rfl⟩ := Machine.eq_some_of_map hop
  obtain ⟨f', hl', hcmds⟩ := hlink heq
  exact ⟨f', hl', hun.snoc hcmds⟩

/-- Every step keeps the invariant. -/
theorem inv_step (hr : (machine D).Reach h s) (hinv : Inv D h s)
    (hstep : (machine D).step s e = some (s', o)) : Inv D (h ++ [(e, o)]) s' := by
  -- the last step keeps the link; what it shows moves the commands without an answer
  obtain ⟨f, hl, hun⟩ := hinv
  have hsnoc := Machine.always_snoc (Q := NotMemFails) hr hstep
  -- a failure stays one
  replace hl : Link (¬ (machine D).Always NotMemFails (h ++ [(e, o)])) s f :=
    hl.mono fun hfail hall => hfail (hsnoc.mp hall).1
  cases e with
  | doFileContent path => exact inv_quiet hun hstep fun hop => ⟨f, link_doFileContent hl hop, rfl⟩
  | getFileContent => exact inv_quiet hun hstep fun hop => ⟨f, link_getFileContent hl hop, rfl⟩
  | caller =>
    obtain ⟨f', hl', hmoves⟩ := link_callerStep hl hstep
    exact ⟨f', hl', hun.snoc hmoves⟩
  | prepare memalign fd =>
    refine inv_quiet hun hstep fun hop => link_prepare hl (fun hfails hall => ?_) hop
    exact (hsnoc.mp hall).2 memalign fd rfl hfails
  | read buf => exact inv_quiet hun hstep fun hop => ⟨f, link_read hl hop, rfl⟩
  | worker => exact inv_quiet hun hstep fun hop => link_workerStep hl hop

/-- The invariant holds in every reached state. -/
theorem inv_of_reach (hr : (machine D).Reach h s) : Inv D h s := by
  refine hr.invariant ⟨.none, ?_, [], rfl, rfl⟩
    fun _ _ _ _ _ hr hinv hstep => inv_step hr hinv hstep
  exact ⟨SPSCQueue.sound_empty.reads_of_not_active (List.forall_mem_singleton.mpr id),
    SPSCQueue.sound_empty, trivial, ⟨rfl, rfl⟩, trivial⟩

/-- Outputs only change under a read command, in every run. -/
theorem outstanding_of_outputs_ne (hr : (machine D).Reach h s) (he : e.isWorker = true)
    (hstep : (machine D).step s e = some (s', o)) (hne : s'.outputs ≠ s.outputs) :
    outstanding h = [.CMD_TYPE_FILE_CONTENT_READ] ∧
      (s.caller = .out → s.fileReadState = .FILE_CONTENT_READ_DO) := by
  obtain ⟨f, hl, hun⟩ := inv_of_reach hr
  obtain rfl := running_of_outputs_ne hl he hstep hne
  refine ⟨outstanding_eq hun, fun hout => ?_⟩
  have hcaller := hl.caller
  rw [hout] at hcaller
  cases hst : s.fileReadState <;> rw [hst] at hcaller
  case FILE_CONTENT_READ_PREPAR => rcases hcaller with hcmd | ⟨-, hcmd, -⟩ <;> cases hcmd
  all_goals cases hcaller.1

/-- **The protocol of the local reader.** In every run of the two threads in which no
`posix_memalign` fails, every reached state keeps its promises. -/
theorem protocol_of_not_memFails (hok : (machine D).Always NotMemFails h)
    (hr : (machine D).Reach h s) : Protocol D h s := by
  obtain ⟨f, hl, -⟩ := inv_of_reach hr
  exact {
    atMostOne := onTheWay_le hl
    returned := fun hout => onTheWay_iff hl hout (not_not_intro hok)
    outputs := fun _ _ _ he hstep hne => outstanding_of_outputs_ne hr he hstep hne
    asserted := asserted_of_link hl }

/-- `posix_memalign` fails in such a step, if it is called. -/
def Event.memFails : Event → Bool
  | prepare memalign _ => !memalign
  | _ => false

/-- A run in which `posix_memalign` always succeeds. -/
theorem always_notMemFails (hgood : ∀ x ∈ h, x.1.memFails = false) :
    (machine D).Always NotMemFails h := by
  refine Machine.always_of_forall_mem (fun e => e.memFails = false) ?_ hgood
  rintro _ s e _ _ hgood' memalign fd rfl hfails
  obtain rfl : memalign = true := by simpa [Event.memFails] using hgood'
  rcases hfails with ⟨-, hmem⟩ | hnone
  · cases hmem
  · cases hnone

/-- A file of one line, read to its end. The caller asks while the line is hashed. -/
def sampleEvents : List Event :=
  [[.doFileContent (ascii "f")], List.replicate 8 .caller, List.replicate 7 .worker,
    [.prepare true 3], List.replicate 4 .worker, [.getFileContent], List.replicate 12 .caller,
    List.replicate 7 .worker, [.read (ascii "a\n"), .worker, .getFileContent, .caller, .worker,
    .caller], List.replicate 7 .worker, [.getFileContent], List.replicate 9 .caller].flatten

/-- The protocol holds after it. -/
theorem protocol_sample :
    ∃ h s, (machine ⟨id, id⟩).Reach h s ∧ received h = [.S_SUCCESS, .E_DC_CONTENT_OVER] ∧
      s.outputs = ([ascii "a"], 0) ∧ Protocol ⟨id, id⟩ h s := by
  have hrun : ((machine ⟨id, id⟩).run? sampleEvents).any (fun r =>
      r.1.all (fun x => x.1.memFails = false) &&
        decide (received r.1 = [.S_SUCCESS, .E_DC_CONTENT_OVER] ∧
          r.2.outputs = ([ascii "a"], 0))) = true := by
    decide +kernel
  obtain ⟨h, s, hr, hcheck⟩ := Machine.exists_reach_of_run? hrun
  obtain ⟨hgood, hlast⟩ := Bool.and_eq_true_iff.mp hcheck
  obtain ⟨hreceived, houtputs⟩ := of_decide_eq_true hlast
  refine ⟨h, s, hr, hreceived, houtputs, protocol_of_not_memFails (always_notMemFails ?_) hr⟩
  exact fun x hx => of_decide_eq_true (List.all_eq_true.mp hgood x hx)

/-- `posix_memalign` fails, and `get_file_content` returns the error. -/
def memFailsEvents : List Event :=
  [[.doFileContent (ascii "f")], List.replicate 8 .caller, List.replicate 7 .worker,
    [.prepare false 3], List.replicate 4 .worker, [.getFileContent],
    List.replicate 7 .caller].flatten

/-- Then the state is still `FILE_CONTENT_READ_PREPAR`, and nothing is on its way. -/
theorem not_protocol_memFails :
    ¬ ∀ (D : Digests) (h : History) (s : ReaderThreads), (machine D).Reach h s →
      Protocol D h s := by
  intro hall
  have hrun : ((machine ⟨id, id⟩).run? memFailsEvents).any (fun r =>
      decide (r.2.caller = .out ∧ r.2.fileReadState = .FILE_CONTENT_READ_PREPAR ∧
        r.2.onTheWay = 0)) = true := by
    decide +kernel
  obtain ⟨h, s, hr, hcheck⟩ := Machine.exists_reach_of_run? hrun
  obtain ⟨hout, hst, hzero⟩ := of_decide_eq_true hcheck
  have hone := ((hall _ h s hr).returned hout).mpr (Or.inl hst)
  rw [hzero] at hone
  cases hone

end ReaderThreads

end Wfrest
