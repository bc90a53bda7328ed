import Wfrest.Compare.FileContent
import Wfrest.Lib.Fifo
import Wfrest.Lib.Run

/-!
# The local content reader

`dc_content_local_t` runs on two threads. The caller keeps `file_read_state_` and
sends commands over `cmd_q_`; the worker holds the descriptor and answers over
`ret_q_`. Here the two are one machine. A call is one step; the worker takes a command,
carries it out and replies in three.

At any time at most one command is on its way, and where it is fits the state of the
caller (`Inv`). A command that fails is answered by its code, which `get_file_content`
hands on without leaving its state: after an error the reader stays where it was
(`ready_iff_over`). In runs where no call of the operating system fails, the reader is
ready for the next file whenever `get_file_content` has an answer
(`recovers_of_not_fails`).

* A `write` to a full queue spins, so the step waits.
* A step that ends in a failed assertion does not happen, and the run stops there.
-/

namespace Wfrest

/-- The commands for file contents. -/
inductive Cmd where
  | CMD_TYPE_FILE_CONTENT_PREPARE
  | CMD_TYPE_FILE_CONTENT_READ
  deriving DecidableEq, Repr

/-- `file_read_state_` -/
inductive ReadState where
  | FILE_CONTENT_READ_INIT
  | FILE_CONTENT_READ_PREPAR
  | FILE_CONTENT_READ_OVER
  | FILE_CONTENT_READ_DO
  deriving DecidableEq, Repr

/-- Where `thd_worker` is in a round of its loop. -/
inductive Worker where
  | idle
  /-- Between `cmd_q_.read_once` and the work. -/
  | running (cmd : Cmd)
  /-- Between the work and `ret_q_.write`. -/
  | done (ret : DcCommonCode)
  deriving DecidableEq, Repr

/-- `dc_content_local_t` -/
structure LocalContent where
  file : FileReader
  fileReadState : ReadState
  cmdQ : Fifo 64 Cmd
  retQ : Fifo 64 DcCommonCode
  worker : Worker

namespace LocalContent

def start : LocalContent where
  file := .fresh []
  fileReadState := .FILE_CONTENT_READ_INIT
  cmdQ := .empty
  retQ := .empty
  worker := .idle

/-! ### The caller -/

/-- `do_file_content`, with results that are empty. -/
def doFileContent (s : LocalContent) (path : Bytes) : Option LocalContent :=
  if s.fileReadState = .FILE_CONTENT_READ_INIT then
    (s.cmdQ.push? .CMD_TYPE_FILE_CONTENT_PREPARE).map fun q =>
      { s with
        file := { s.file with filePath := path, linesSha1 := [], emptyLines := 0 }
        cmdQ := q
        fileReadState := .FILE_CONTENT_READ_PREPAR }
  else none

/-- Send a read command. -/
def sendRead (s : LocalContent) : Option (LocalContent × DcCommonCode) :=
  (s.cmdQ.push? .CMD_TYPE_FILE_CONTENT_READ).map fun q =>
    ({ s with cmdQ := q, fileReadState := .FILE_CONTENT_READ_DO }, .E_DC_CONTENT_RETRY)

/-- `get_file_content` -/
def getFileContent (s : LocalContent) : Option (LocalContent × DcCommonCode) :=
  match s.fileReadState with
  | .FILE_CONTENT_READ_PREPAR =>
    match s.retQ.pop? with
    | none => some (s, .E_DC_CONTENT_RETRY)
    | some (ret, q) =>
      let s := { s with retQ := q }
      -- an error leaves the state as it is
      if logCheckErr ret then some (s, ret) else s.sendRead
  | .FILE_CONTENT_READ_DO =>
    match s.retQ.pop? with
    | none => some (s, .E_DC_CONTENT_RETRY)
    | some (ret, q) =>
      let s := { s with retQ := q }
      if ret = .S_SUCCESS then
        some ({ s with fileReadState := .FILE_CONTENT_READ_OVER }, .E_DC_CONTENT_RETRY)
      else if ret = .E_DC_CONTENT_OVER then
        -- `DC_COMMON_ASSERT(file_read_fd_ == -1)`
        if s.file.fileReadFd = -1 then
          some ({ s with fileReadState := .FILE_CONTENT_READ_INIT }, .E_DC_CONTENT_OVER)
        else none
      else some (s, ret)
  -- another read is due
  | .FILE_CONTENT_READ_OVER => s.sendRead
  -- `DC_COMMON_ASSERT(0 == "not handle status")`
  | .FILE_CONTENT_READ_INIT => none

/-- `~dc_content_local_t`: the assertion after the worker has been joined. -/
def destroy (s : LocalContent) : Except Fault Unit := assertFault (s.file.fileReadFd = -1)

/-! ### The worker -/

/-- `cmd_q_.read_once` -/
def take (s : LocalContent) : Option LocalContent :=
  match s.worker with
  | .idle => s.cmdQ.pop?.map fun r => { s with cmdQ := r.2, worker := .running r.1 }
  | _ => none

/-- `thd_worker_file_content_prepare` -/
def prepare (s : LocalContent) (memalign : Bool) (fd : Option Nat) : Option LocalContent :=
  match s.worker with
  | .running .CMD_TYPE_FILE_CONTENT_PREPARE =>
    match s.file.prepare memalign fd with
    | .ok (file, ret) => some { s with file := file, worker := .done ret }
    | .error _ => none
  | _ => none

/-- `thd_worker_file_content_read`. A read delivers no more than the buffer holds. -/
def read (D : Digests) (s : LocalContent) (buf : Option Bytes) : Option LocalContent :=
  match s.worker with
  | .running .CMD_TYPE_FILE_CONTENT_READ =>
    if (buf.getD []).length ≤ DC_CONTENT_FILE_READ_BUF then
      match s.file.fileContentRead D buf with
      | .ok (file, ret) => some { s with file := file, worker := .done ret }
      | .error _ => none
    else none
  | _ => none

/-- `ret_q_.write` -/
def reply (s : LocalContent) : Option LocalContent :=
  match s.worker with
  | .done ret => (s.retQ.push? ret).map fun q => { s with retQ := q, worker := .idle }
  | _ => none

/-! ### The reader as a machine -/

/-- The steps of the two threads, with the answers of the operating system. -/
inductive Event where
  | doFileContent (path : Bytes)
  | getFileContent
  | take
  | prepare (memalign : Bool) (fd : Option Nat)
  | read (buf : Option Bytes)
  | reply
  deriving DecidableEq

/-- One step. The output is what a call returns. -/
def step (D : Digests) (s : LocalContent) :
    Event → Option (LocalContent × Option DcCommonCode)
  | .doFileContent path => (s.doFileContent path).map fun s => (s, some .S_SUCCESS)
  | .getFileContent => s.getFileContent.map fun r => (r.1, some r.2)
  | .take => s.take.map fun s => (s, none)
  | .prepare memalign fd => (s.prepare memalign fd).map fun s => (s, none)
  | .read buf => (s.read D buf).map fun s => (s, none)
  | .reply => s.reply.map fun s => (s, none)

/-- The reader from its construction. -/
def machine (D : Digests) : Machine LocalContent Event (Option DcCommonCode) where
  init := start
  step := step D

/-! ### The command on its way -/

/-- Where the one command of the caller is. -/
inductive Flight where
  | none
  | sent (cmd : Cmd)
  | running (cmd : Cmd)
  | done (ret : DcCommonCode)
  | replied (ret : DcCommonCode)

namespace Flight

/-- What is in `cmd_q_` then. -/
def cmds : Flight → List Cmd
  | sent cmd => [cmd]
  | _ => []

/-- What is in `ret_q_` then. -/
def rets : Flight → List DcCommonCode
  | replied ret => [ret]
  | _ => []

/-- Where the worker is then. -/
def worker : Flight → Worker
  | running cmd => .running cmd
  | done ret => .done ret
  | _ => .idle

end Flight

/-- The answers to a prepare command, with the descriptor that they leave. -/
def Prepared (ret : DcCommonCode) (fd : Int) : Prop :=
  (ret = .S_SUCCESS ∧ 0 ≤ fd) ∨ ((ret = .E_OS_ENV_MEM ∨ ret = .E_OS_ENV_OPEN) ∧ fd = -1)

/-- The answers to a read command, with the descriptor that they leave. -/
def ReadDone (ret : DcCommonCode) (fd : Int) : Prop :=
  (ret = .S_SUCCESS ∧ 0 ≤ fd) ∨ (ret = .E_DC_CONTENT_OVER ∧ fd = -1) ∨
    (ret = .E_OS_ENV_READ ∧ 0 ≤ fd)

/-- The state of the caller, the command on its way and the descriptor fit together.
Without a command, the states `PREPAR` and `DO` are those after an error. -/
def Fits : ReadState → Flight → Int → Prop
  | .FILE_CONTENT_READ_INIT, .none, fd => fd = -1
  | .FILE_CONTENT_READ_PREPAR, .sent .CMD_TYPE_FILE_CONTENT_PREPARE, fd => fd = -1
  | .FILE_CONTENT_READ_PREPAR, .running .CMD_TYPE_FILE_CONTENT_PREPARE, fd => fd = -1
  | .FILE_CONTENT_READ_PREPAR, .done ret, fd => Prepared ret fd
  | .FILE_CONTENT_READ_PREPAR, .replied ret, fd => Prepared ret fd
  | .FILE_CONTENT_READ_PREPAR, .none, fd => fd = -1
  | .FILE_CONTENT_READ_DO, .sent .CMD_TYPE_FILE_CONTENT_READ, fd => 0 ≤ fd
  | .FILE_CONTENT_READ_DO, .running .CMD_TYPE_FILE_CONTENT_READ, fd => 0 ≤ fd
  | .FILE_CONTENT_READ_DO, .done ret, fd => ReadDone ret fd
  | .FILE_CONTENT_READ_DO, .replied ret, fd => ReadDone ret fd
  | .FILE_CONTENT_READ_DO, .none, fd => 0 ≤ fd
  | .FILE_CONTENT_READ_OVER, .none, fd => 0 ≤ fd
  | _, _, _ => False

/-- No error is on its way, and none has been handed on. -/
def Clean : ReadState → Flight → Prop
  | _, .done ret => ret = .S_SUCCESS ∨ ret = .E_DC_CONTENT_OVER
  | _, .replied ret => ret = .S_SUCCESS ∨ ret = .E_DC_CONTENT_OVER
  | st, .none => st = .FILE_CONTENT_READ_INIT ∨ st = .FILE_CONTENT_READ_OVER
  | _, _ => True

/-- The two threads agree that the command is at `f`. -/
structure Link (s : LocalContent) (f : Flight) : Prop where
  cmds : s.cmdQ.items = f.cmds
  rets : s.retQ.items = f.rets
  worker : s.worker = f.worker
  fits : Fits s.fileReadState f s.file.fileReadFd

/-- Ready for the next file. -/
structure Ready (s : LocalContent) : Prop where
  init : s.fileReadState = .FILE_CONTENT_READ_INIT
  closed : s.file.fileReadFd = -1
  cmdQ : s.cmdQ.items = []
  retQ : s.retQ.items = []

/-- A ready reader passes the assertions of `do_file_content` and of the destructor. -/
theorem Ready.next {s : LocalContent} (h : s.Ready) (path : Bytes) :
    (∃ s', s.doFileContent path = some s') ∧ s.destroy = .ok () := by
  constructor
  · have hroom : s.cmdQ.items.length < 64 := by
      rw [h.cmdQ]
      decide
    unfold doFileContent Fifo.push?
    rw [if_pos h.init, dif_pos hroom]
    exact ⟨_, rfl⟩
  · exact assertFault_of h.closed

/-! ### One step -/

variable {s s' : LocalContent} {f : Flight} {c : DcCommonCode}

/-- Sending a read command for an open file. -/
theorem link_sendRead (hcmds : s.cmdQ.items = []) (hrets : s.retQ.items = [])
    (hworker : s.worker = .idle) (hfd : 0 ≤ s.file.fileReadFd)
    (h : s.sendRead = some (s', c)) :
    c = .E_DC_CONTENT_RETRY ∧ Link s' (.sent .CMD_TYPE_FILE_CONTENT_READ) := by
  obtain ⟨q, hpush, heq⟩ := Option.map_eq_some_iff.mp h
  obtain ⟨rfl, rfl⟩ := Prod.mk.inj heq
  have hitems := Fifo.push?_eq_some hpush
  rw [hcmds, List.nil_append] at hitems
  exact ⟨rfl, hitems, hrets, hworker, hfd⟩

theorem link_doFileContent {path : Bytes} (hl : Link s f) (h : s.doFileContent path = some s') :
    ∃ f', Link s' f' ∧ Clean s'.fileReadState f' := by
  unfold doFileContent at h
  split at h
  next hinit =>
    obtain ⟨q, hpush, rfl⟩ := Option.map_eq_some_iff.mp h
    have hitems := Fifo.push?_eq_some hpush
    have hfits := hl.fits
    rw [hinit] at hfits
    cases f with
    | none =>
      rw [hl.cmds] at hitems
      exact ⟨.sent .CMD_TYPE_FILE_CONTENT_PREPARE, ⟨hitems, hl.rets, hl.worker, hfits⟩, trivial⟩
    | _ => exact hfits.elim
  · cases h

/-- What `get_file_content` finds in `ret_q_`. -/
theorem rets_eq_of_pop (hl : Link s f) {ret : DcCommonCode} {q : Fifo 64 DcCommonCode}
    (hpop : s.retQ.pop? = some (ret, q)) : f = .replied ret ∧ q.items = [] := by
  have hitems := Fifo.pop?_eq_some hpop
  rw [hl.rets] at hitems
  cases f with
  | replied r =>
    obtain ⟨rfl, hnil⟩ := List.cons.inj hitems
    exact ⟨rfl, hnil.symm⟩
  | _ => cases hitems

/-- **What `get_file_content` does.** It answers `E_DC_CONTENT_RETRY`; or the file is
over and the reader is ready; or it hands on an error that was on its way, and is not. -/
theorem link_getFileContent (hl : Link s f) (h : s.getFileContent = some (s', c)) :
    ∃ f', Link s' f' ∧ (Clean s.fileReadState f → Clean s'.fileReadState f') ∧
      (c = .E_DC_CONTENT_RETRY ∨ (c = .E_DC_CONTENT_OVER ∧ Ready s') ∨
        (c ≠ .E_DC_CONTENT_RETRY ∧ c ≠ .E_DC_CONTENT_OVER ∧
          s'.fileReadState ≠ .FILE_CONTENT_READ_INIT ∧ ¬ Clean s.fileReadState f)) := by
  have hfits := hl.fits
  unfold getFileContent at h
  split at h
  next hst =>
    split at h
    next hpop =>
      obtain ⟨rfl, rfl⟩ := Prod.mk.inj (Option.some.inj h)
      exact ⟨f, hl, id, Or.inl rfl⟩
    next ret q hpop =>
      obtain ⟨rfl, hnil⟩ := rets_eq_of_pop hl hpop
      rw [hst] at hfits ⊢
      -- what the worker can have answered to a prepare command
      rcases hfits with ⟨rfl, hfd⟩ | ⟨hret, hfd⟩
      · -- prepared: the first read is sent
        obtain ⟨rfl, hlink⟩ :=
          link_sendRead (s := { s with retQ := q }) hl.cmds hnil hl.worker hfd h
        exact ⟨_, hlink, fun _ => trivial, Or.inl rfl⟩
      · -- an error: the state stays `PREPAR`
        have herr : logCheckErr ret = true := by rcases hret with rfl | rfl <;> rfl
        simp only [herr, if_true] at h
        obtain ⟨rfl, rfl⟩ := Prod.mk.inj (Option.some.inj h)
        have hclean : ¬ Clean .FILE_CONTENT_READ_PREPAR (.replied ret) := by
          rcases hret with rfl | rfl <;> rintro (heq | heq) <;> cases heq
        refine ⟨.none, ⟨hl.cmds, hnil, hl.worker, ?_⟩, fun hc => absurd hc hclean,
          Or.inr (Or.inr ⟨?_, ?_, ?_, hclean⟩)⟩
        · change Fits s.fileReadState .none s.file.fileReadFd
          rw [hst]
          exact hfd
        · rcases hret with rfl | rfl <;> decide
        · rcases hret with rfl | rfl <;> decide
        · change s.fileReadState ≠ _
          rw [hst]
          decide
  next hst =>
    split at h
    next hpop =>
      obtain ⟨rfl, rfl⟩ := Prod.mk.inj (Option.some.inj h)
      exact ⟨f, hl, id, Or.inl rfl⟩
    next ret q hpop =>
      obtain ⟨rfl, hnil⟩ := rets_eq_of_pop hl hpop
      rw [hst] at hfits ⊢
      -- what the worker can have answered to a read command
      rcases hfits with ⟨rfl, hfd⟩ | ⟨rfl, hfd⟩ | ⟨rfl, hfd⟩
      · -- a full buffer: another read is due
        obtain ⟨rfl, rfl⟩ := Prod.mk.inj (Option.some.inj h)
        exact ⟨.none, ⟨hl.cmds, hnil, hl.worker, hfd⟩, fun _ => Or.inr rfl, Or.inl rfl⟩
      · -- the end of the file: the worker has closed it
        simp only [reduceCtorEq, if_false, if_true, if_pos hfd] at h
        obtain ⟨rfl, rfl⟩ := Prod.mk.inj (Option.some.inj h)
        exact ⟨.none, ⟨hl.cmds, hnil, hl.worker, hfd⟩, fun _ => Or.inl rfl,
          Or.inr (Or.inl ⟨rfl, rfl, hfd, hl.cmds, hnil⟩)⟩
      · -- an error: the state stays `DO` and the file stays open
        obtain ⟨rfl, rfl⟩ := Prod.mk.inj (Option.some.inj h)
        have hclean : ¬ Clean .FILE_CONTENT_READ_DO (.replied .E_OS_ENV_READ) := by
          rintro (heq | heq) <;> cases heq
        refine ⟨.none, ⟨hl.cmds, hnil, hl.worker, ?_⟩, fun hc => absurd hc hclean,
          Or.inr (Or.inr ⟨by decide, by decide, ?_, hclean⟩)⟩
        · change Fits s.fileReadState .none s.file.fileReadFd
          rw [hst]
          exact hfd
        · change s.fileReadState ≠ _
          rw [hst]
          decide
  next hst =>
    rw [hst] at hfits ⊢
    cases f with
    | none =>
      -- `OVER`: the next read is sent for the file that is still open
      obtain ⟨rfl, hlink⟩ := link_sendRead hl.cmds hl.rets hl.worker hfits h
      exact ⟨_, hlink, fun _ => trivial, Or.inl rfl⟩
    | _ => exact hfits.elim
  · cases h

theorem link_take (hl : Link s f) (h : s.take = some s') :
    ∃ f', Link s' f' ∧ Clean s'.fileReadState f' := by
  unfold take at h
  split at h
  · obtain ⟨⟨cmd, q⟩, hpop, rfl⟩ := Option.map_eq_some_iff.mp h
    have hitems := Fifo.pop?_eq_some hpop
    rw [hl.cmds] at hitems
    have hfits := hl.fits
    cases f with
    | sent cmd' =>
      obtain ⟨rfl, hnil⟩ := List.cons.inj hitems
      refine ⟨.running cmd', ⟨hnil.symm, hl.rets, rfl, ?_⟩, trivial⟩
      change Fits s.fileReadState (.running cmd') s.file.fileReadFd
      cases hst : s.fileReadState <;> cases cmd' <;> rw [hst] at hfits <;> exact hfits
    | _ => cases hitems
  · cases h

theorem link_prepare {memalign : Bool} {fd : Option Nat} (hl : Link s f)
    (h : s.prepare memalign fd = some s') :
    ∃ f', Link s' f' ∧ (¬ s.file.PrepareFails memalign fd → Clean s'.fileReadState f') := by
  unfold prepare at h
  split at h
  next hrun =>
    split at h
    next file ret hprep =>
      obtain rfl := Option.some.inj h
      have hfits := hl.fits
      have hworker := hl.worker
      rw [hrun] at hworker
      cases f with
      | running cmd =>
        obtain rfl := Worker.running.inj hworker
        cases hst : s.fileReadState <;> rw [hst] at hfits
        case FILE_CONTENT_READ_PREPAR =>
          -- either the file is open, or it is closed and a call has failed
          have hcases := FileReader.prepare_cases hfits hprep
          refine ⟨.done ret, ⟨hl.cmds, hl.rets, rfl, ?_⟩, fun hok => ?_⟩
          · rcases hcases with hsucc | ⟨hret, hclosed, -⟩
            · exact Or.inl hsucc
            · exact Or.inr ⟨hret, hclosed⟩
          · rcases hcases with ⟨hret, -⟩ | ⟨-, -, hfails⟩
            · exact Or.inl hret
            · exact absurd hfails hok
        all_goals exact hfits.elim
      | _ => cases hworker
    · cases h
  · cases h

theorem link_read {D : Digests} {buf : Option Bytes} (hl : Link s f)
    (h : s.read D buf = some s') :
    ∃ f', Link s' f' ∧ (buf ≠ none → Clean s'.fileReadState f') := by
  unfold read at h
  split at h
  next hrun =>
    split at h
    · split at h
      next file ret hread =>
        obtain rfl := Option.some.inj h
        have hfits := hl.fits
        have hworker := hl.worker
        rw [hrun] at hworker
        cases f with
        | running cmd =>
          obtain rfl := Worker.running.inj hworker
          cases hst : s.fileReadState <;> rw [hst] at hfits
          case FILE_CONTENT_READ_DO =>
            -- the command was sent for an open file; each answer says what became of it
            obtain ⟨hopen, hcases⟩ := FileReader.fileContentRead_cases hread
            refine ⟨.done ret, ⟨hl.cmds, hl.rets, rfl, ?_⟩, fun hok => ?_⟩
            · rcases hcases with ⟨hret, hfd⟩ | hover | ⟨hret, hfd, -⟩
              · exact Or.inl ⟨hret, hfd ▸ hopen⟩
              · exact Or.inr (Or.inl hover)
              · exact Or.inr (Or.inr ⟨hret, hfd ▸ hopen⟩)
            · rcases hcases with ⟨hret, -⟩ | ⟨hret, -⟩ | ⟨-, -, hnone⟩
              · exact Or.inl hret
              · exact Or.inr hret
              · exact absurd hnone hok
          all_goals exact hfits.elim
        | _ => cases hworker
      · cases h
    · cases h
  · cases h

theorem link_reply (hl : Link s f) (h : s.reply = some s') :
    ∃ f', Link s' f' ∧ (Clean s.fileReadState f → Clean s'.fileReadState f') := by
  unfold reply at h
  split at h
  next ret hdone =>
    obtain ⟨q, hpush, rfl⟩ := Option.map_eq_some_iff.mp h
    have hitems := Fifo.push?_eq_some hpush
    have hfits := hl.fits
    have hworker := hl.worker
    rw [hdone] at hworker
    cases f with
    | done ret' =>
      obtain rfl := Worker.done.inj hworker
      rw [hl.rets] at hitems
      refine ⟨.replied ret, ⟨hl.cmds, hitems, rfl, ?_⟩, id⟩
      change Fits s.fileReadState (.replied ret) s.file.fileReadFd
      cases hst : s.fileReadState <;> rw [hst] at hfits <;> exact hfits
    | _ => cases hworker
  · cases h

/-! ### Whole runs -/

/-- What happened so far. -/
abbrev History := List (Event × Option DcCommonCode)

/-- A call of the operating system fails in this step. -/
def Fails (s : LocalContent) : Event → Prop
  | .prepare memalign fd => s.file.PrepareFails memalign fd
  | .read buf => buf = none
  | _ => False

/-- Nothing fails in this step. -/
def NotFails (_ : History) (s : LocalContent) (e : Event) (_ : Option DcCommonCode)
    (_ : LocalContent) : Prop := ¬ Fails s e

/-- When `get_file_content` has an answer, the reader is ready for the next file. -/
def Recovers (_ : History) (_ : LocalContent) (e : Event) (o : Option DcCommonCode)
    (s' : LocalContent) : Prop :=
  ∀ c, e = .getFileContent → o = some c → c ≠ .E_DC_CONTENT_RETRY → Ready s'

/-- What holds in every reached state. -/
def Inv (D : Digests) (h : History) (s : LocalContent) : Prop :=
  ∃ f, Link s f ∧ ((machine D).Always NotFails h → Clean s.fileReadState f)

variable {D : Digests} {h : History} {e : Event} {o : Option DcCommonCode}

/-- A step of `get_file_content` outputs its code. -/
theorem getFileContent_of_step {o : Option DcCommonCode}
    (h : (machine D).step s .getFileContent = some (s', o)) :
    ∃ c, o = some c ∧ s.getFileContent = some (s', c) := by
  obtain ⟨⟨s₁, c⟩, hget, heq⟩ := Option.map_eq_some_iff.mp h
  obtain ⟨rfl, rfl⟩ := Prod.mk.inj heq
  exact ⟨c, rfl, hget⟩

/-- Every step keeps the invariant. -/
theorem inv_step (hr : (machine D).Reach h s) (hinv : Inv D h s)
    (hstep : (machine D).step s e = some (s', o)) : Inv D (h ++ [(e, o)]) s' := by
  obtain ⟨f, hl, hclean⟩ := hinv
  have hsnoc := Machine.always_snoc (Q := NotFails) hr hstep
  cases e with
  | doFileContent path =>
    obtain ⟨f', hl', hc⟩ := link_doFileContent hl (Machine.eq_some_of_map hstep).1
    exact ⟨f', hl', fun _ => hc⟩
  | getFileContent =>
    obtain ⟨c, -, hget⟩ := getFileContent_of_step hstep
    obtain ⟨f', hl', hc, -⟩ := link_getFileContent hl hget
    exact ⟨f', hl', fun hall => hc (hclean (hsnoc.mp hall).1)⟩
  | take =>
    obtain ⟨f', hl', hc⟩ := link_take hl (Machine.eq_some_of_map hstep).1
    exact ⟨f', hl', fun _ => hc⟩
  | prepare memalign fd =>
    obtain ⟨f', hl', hc⟩ := link_prepare hl (Machine.eq_some_of_map hstep).1
    exact ⟨f', hl', fun hall => hc (hsnoc.mp hall).2⟩
  | read buf =>
    obtain ⟨f', hl', hc⟩ := link_read hl (Machine.eq_some_of_map hstep).1
    exact ⟨f', hl', fun hall => hc (hsnoc.mp hall).2⟩
  | reply =>
    obtain ⟨f', hl', hc⟩ := link_reply hl (Machine.eq_some_of_map hstep).1
    exact ⟨f', hl', fun hall => hc (hclean (hsnoc.mp hall).1)⟩

/-- The invariant holds in every reached state. -/
theorem inv_of_reach (hr : (machine D).Reach h s) : Inv D h s :=
  hr.invariant ⟨.none, ⟨rfl, rfl, rfl, rfl⟩, fun _ => Or.inl rfl⟩
    fun _ _ _ _ _ hr hinv hstep => inv_step hr hinv hstep

/-- **An answer leaves the reader ready exactly at the end of a file.** After an error
it keeps its state, whatever happened before. -/
theorem ready_iff_over (hr : (machine D).Reach h s)
    (hstep : (machine D).step s .getFileContent = some (s', some c))
    (hc : c ≠ .E_DC_CONTENT_RETRY) : Ready s' ↔ c = .E_DC_CONTENT_OVER := by
  obtain ⟨f, hl, -⟩ := inv_of_reach hr
  obtain ⟨c₁, hcode, hget⟩ := getFileContent_of_step hstep
  obtain rfl := Option.some.inj hcode
  obtain ⟨f', -, -, hretry | ⟨hover, hready⟩ | ⟨-, hne, hst, -⟩⟩ := link_getFileContent hl hget
  · exact absurd hretry hc
  · exact ⟨fun _ => hover, fun _ => hready⟩
  · exact ⟨fun hready => absurd hready.init hst, fun hover => absurd hover hne⟩

/-- **Without failures the reader recovers.** In every run of the two threads in which
no `posix_memalign`, `open` or `read` fails, the reader is ready for the next file
whenever `get_file_content` returns another code than `E_DC_CONTENT_RETRY`. -/
theorem recovers_of_not_fails (D : Digests) (h : History)
    (hok : (machine D).Always NotFails h) : (machine D).Always Recovers h := by
  intro h₁ e o h₂ s s' hsplit hr hstep c he ho hc
  subst he ho
  -- nothing has failed before this step
  have hok₁ : (machine D).Always NotFails h₁ := by
    intro g₁ e₁ o₁ g₂ t t' hg
    refine hok g₁ e₁ o₁ (g₂ ++ (.getFileContent, some c) :: h₂) t t' ?_
    rw [hsplit, hg, List.append_assoc]
    rfl
  obtain ⟨f, hl, hclean⟩ := inv_of_reach hr
  obtain ⟨c₁, hcode, hget⟩ := getFileContent_of_step hstep
  obtain rfl := Option.some.inj hcode
  obtain ⟨f', -, -, hretry | ⟨-, hready⟩ | ⟨-, -, -, herr⟩⟩ := link_getFileContent hl hget
  · exact absurd hretry hc
  · exact hready
  · exact absurd (hclean hok₁) herr

/-- An answer of the operating system that may be a failure. -/
def MayFail : Event → Bool
  | .prepare memalign fd => !memalign || fd.isNone
  | .read buf => buf.isNone
  | _ => false

/-- A run with good answers only has no failures. -/
theorem always_notFails (hgood : ∀ x ∈ h, MayFail x.1 = false) :
    (machine D).Always NotFails h := by
  refine Machine.always_of_forall_mem (fun e => MayFail e = false) ?_ hgood
  intro _ s e _ _ hgood' hfails
  cases e with
  | prepare memalign fd =>
    obtain ⟨rfl, hfd⟩ : memalign = true ∧ fd.isNone = false := by simpa [MayFail] using hgood'
    rcases hfails with ⟨-, hmem⟩ | rfl
    · cases hmem
    · cases hfd
  | read buf =>
    obtain rfl : buf = none := hfails
    cases hgood'
  | _ => exact hfails

/-- A file of one line, read to its end. -/
def sampleEvents : List Event :=
  [.doFileContent (ascii "f"), .take, .prepare true (some 3), .reply, .getFileContent, .take,
    .read (some (ascii "a\n")), .getFileContent, .reply, .getFileContent]

/-- The reader recovers after it. -/
theorem recovers_of_not_fails_sample :
    ∃ h s, (machine ⟨id, id⟩).Reach h s ∧ (.getFileContent, some .E_DC_CONTENT_OVER) ∈ h ∧
      (machine ⟨id, id⟩).Always Recovers h := by
  have hrun : ((machine ⟨id, id⟩).run? sampleEvents).any (fun r =>
      r.1.all (fun x => MayFail x.1 = false) &&
        decide ((.getFileContent, some .E_DC_CONTENT_OVER) ∈ r.1)) = true := by
    decide +kernel
  obtain ⟨h, s, hr, hcheck⟩ := Machine.exists_reach_of_run? hrun
  obtain ⟨hgood, hover⟩ := Bool.and_eq_true_iff.mp hcheck
  refine ⟨h, s, hr, of_decide_eq_true hover, recovers_of_not_fails _ h (always_notFails ?_)⟩
  exact fun x hx => of_decide_eq_true (List.all_eq_true.mp hgood x hx)

/-- `open` fails, and the worker replies. -/
def openFailsEvents : List Event :=
  [.doFileContent (ascii "f"), .take, .prepare true none, .reply]

/-- Then `get_file_content` returns the error and the reader is not ready. -/
theorem not_recovers_open_fails :
    ¬ ∀ (D : Digests) (h : History) (s : LocalContent), (machine D).Reach h s →
      (machine D).Always Recovers h := by
  intro hall
  have hrun : ((machine ⟨id, id⟩).run? openFailsEvents).any (fun r =>
      ((machine ⟨id, id⟩).step r.2 .getFileContent).any fun r' =>
        r'.2 = some .E_OS_ENV_OPEN) = true := by
    decide +kernel
  obtain ⟨h, s, hr, hcheck⟩ := Machine.exists_reach_of_run? hrun
  obtain ⟨⟨s', o⟩, hstep, ho⟩ := (Option.any_eq_true _ _).mp hcheck
  obtain rfl : o = some .E_OS_ENV_OPEN := of_decide_eq_true ho
  have hrecovers := ((Machine.always_snoc hr hstep).mp (hall _ _ _ (hr.snoc hstep))).2
  have hready := hrecovers _ rfl rfl (by decide)
  have hover := (ready_iff_over hr hstep (by decide)).mp hready
  cases hover

end LocalContent

end Wfrest
