import Wfrest.Compare.FilesInTurn
import Wfrest.Compare.ReaderThreads

/-!
# What the threads of the local reader compute

The caller and the worker of `dc_content_local_t` interleave step by step, and the caller
polls while the worker is in the middle of a buffer. What they compute does not depend on
it. The calls of `do_file_content` and the answers of the operating system, carried out one
after the other (`replay`), give the file of the reader once both threads have done what
they have begun (`rest_eq_replay`).

So a caller that is told the end of a file finds in the outputs what
`compute_file_sha1_skip_empty_line` computes from its content, in one pass and without a
thread (`outputs_of_files`).
-/

namespace Wfrest

open Lines FileReader

namespace ReaderThreads

variable (D : Digests)

/-! ### One after the other -/

/-- What a call or an answer of the operating system does to the reader, at once. -/
def effect (r : FileReader) : Event → Except Fault FileReader
  | .doFileContent path => .ok { r with filePath := path, linesSha1 := [], emptyLines := 0 }
  | .prepare memalign fd => (r.prepare memalign (some fd)).map Prod.fst
  | .read buf => (r.fileContentRead D (some buf)).map Prod.fst
  | .getFileContent => .ok r
  | .caller => .ok r
  | .worker => .ok r

/-- The events carried out one after the other. -/
def replay (r : FileReader) (es : List Event) : Except Fault FileReader := es.foldlM (effect D) r

/-- Does the event carry a call or an answer? -/
def Event.carries : Event → Bool
  | doFileContent _ => true
  | prepare _ _ => true
  | read _ => true
  | _ => false

theorem replay_append (r : FileReader) (es es' : List Event) :
    replay D r (es ++ es') = (replay D r es >>= fun r => replay D r es') :=
  List.foldlM_append

/-- The other events change nothing. -/
theorem replay_filter (r : FileReader) (es : List Event) :
    replay D r (es.filter Event.carries) = replay D r es := by
  induction es generalizing r with
  | nil => rfl
  | cons e es ih =>
    cases e with
    | doFileContent | prepare | read =>
      show (effect D r _ >>= fun r => replay D r (es.filter Event.carries)) =
        (effect D r _ >>= fun r => replay D r es)
      simp only [ih]
    | getFileContent | caller | worker => exact ih r

/-! ### What is begun -/

/-- The assignments that the caller has left. -/
def restOfCaller : Caller → FileReader → FileReader
  | .setFilePath path, r => { r with filePath := path, linesSha1 := [], emptyLines := 0 }
  | .setLinesSha1, r => { r with linesSha1 := [], emptyLines := 0 }
  | .setEmptyLines, r => { r with emptyLines := 0 }
  | _, r => r

/-- What follows at the end of the file. -/
def finishFile (r : FileReader) : Except Fault FileReader :=
  r.flushPreLine D >>= fun r => .ok r.close

/-- What follows the loop over the bytes of `buf`. -/
def finishBuf (buf : Bytes) (r : FileReader) : Except Fault FileReader :=
  if buf.length < DC_CONTENT_FILE_READ_BUF then finishFile D r else .ok r

/-- What the worker has left of a read command. -/
def restOfWorker : ThdWorker → FileReader → Except Fault FileReader
  | .lines buf curLineBegin i rest, r =>
    computeSha1ByLinesFrom D buf r curLineBegin i rest >>= finishBuf D buf
  | .flush, r => finishFile D r
  | .close, r => .ok r.close
  | _, r => .ok r

/-- The file when both threads have done what they have begun. -/
def rest (s : ReaderThreads) : Except Fault FileReader :=
  restOfWorker D s.worker (restOfCaller s.caller s.file)

variable {D} {failed : Prop} {s s' : ReaderThreads} {f : Flight} {o : ThreadOutput} {e : Event}

theorem restOfWorker_afterLines (buf : Bytes) (r : FileReader) :
    restOfWorker D (.afterLines buf) r = finishBuf D buf r := by
  unfold ThdWorker.afterLines finishBuf
  split <;> rfl

theorem restOfWorker_afterRead (r : ReadOnce (spscCap 64) Cmd) (file : FileReader) :
    restOfWorker D (.afterRead r) file = .ok file := by
  cases r with
  | returned v =>
    cases v with
    | none => rfl
    | some cmd => cases cmd <;> rfl
  | _ => rfl

theorem restOfWorker_afterWrite (ret : DcCommonCode) (c : Push (spscCap 64))
    (file : FileReader) : restOfWorker D (.afterWrite ret c) file = .ok file := by
  cases c <;> rfl

theorem restOfCaller_afterRead (st : ReadState) (r : ReadOnce (spscCap 64) DcCommonCode)
    (file : FileReader) : restOfCaller (.afterRead st r) file = file := by
  cases r with
  | returned v =>
    cases v with
    | none => rfl
    | some ret =>
      show restOfCaller (.afterMessage st ret) file = file
      unfold Caller.afterMessage
      split_ifs <;> rfl
  | _ => rfl

/-- A buffer that has been read is worked off as by `thd_worker_file_content_read`. -/
theorem restOfWorker_read {r : FileReader} {buf : Bytes} (hpath : 0 < r.filePath.length)
    (hfd : 0 ≤ r.fileReadFd) (hbuf : buf.length ≤ DC_CONTENT_FILE_READ_BUF) :
    restOfWorker D (if buf.length = 0 then .flush else .lines buf 0 0 buf)
        { r with md5 := D.md5 buf } =
      (r.fileContentRead D (some buf)).map Prod.fst := by
  unfold fileContentRead computeSha1ByLines
  rw [assertFault_of hpath, assertFault_of hfd]
  simp only [ok_bind]
  by_cases hzero : buf.length = 0
  · rw [if_pos hzero, if_pos hzero]
    show finishFile D _ = _
    unfold finishFile
    cases FileReader.flushPreLine D _ <;> rfl
  rw [if_neg hzero, if_neg hzero, assertFault_of (Nat.pos_of_ne_zero hzero)]
  simp only [ok_bind]
  show (computeSha1ByLinesFrom D buf _ 0 0 buf >>= finishBuf D buf) = _
  by_cases hshort : buf.length < DC_CONTENT_FILE_READ_BUF
  · rw [if_pos hshort]
    cases computeSha1ByLinesFrom D buf _ 0 0 buf with
    | error e => rfl
    | ok r =>
      simp only [ok_bind]
      rw [finishBuf, if_pos hshort]
      unfold finishFile
      cases FileReader.flushPreLine D _ <;> rfl
  · rw [if_neg hshort, assertFault_of (Nat.le_antisymm hbuf (Nat.le_of_not_lt hshort))]
    cases computeSha1ByLinesFrom D buf _ 0 0 buf with
    | error e => rfl
    | ok r =>
      simp only [ok_bind]
      rw [finishBuf, if_neg hshort]
      rfl

/-! ### One step -/

/-- The worker is at rest when no command is with it. -/
theorem restOfWorker_of_atRest {w : ThdWorker} {r : FileReader} (hw : WorkerFits f w)
    (hf : f.AtRest) : restOfWorker D w r = .ok r := by
  cases w with
  | lines | flush | close =>
    obtain rfl := hw
    exact hf.elim
  | _ => rfl

/-- While a command is on its way the caller has no assignment left. -/
theorem restOfCaller_of_command {cmd : Cmd} {st : ReadState} {fd : Int} {c : Caller}
    {r : FileReader} (h : CallerFits failed st [cmd] fd c) : restOfCaller c r = r := by
  cases c with
  | setFilePath | setLinesSha1 | setEmptyLines => cases h.2.1
  | _ => rfl

theorem atRest_of_commands (h : f.commands = []) : f.AtRest := by
  cases f with
  | none => trivial
  | _ => cases h

/-- A call of `do_file_content` begins with the worker at rest. -/
theorem rest_doFileContent {path : Bytes} (hl : Link failed s f)
    (h : s.doFileContent path = some s') :
    rest D s' = (rest D s >>= fun r => effect D r (.doFileContent path)) := by
  unfold doFileContent at h
  split at h
  next hinit =>
    obtain rfl := Option.some.inj h
    have hcaller := hl.caller
    rw [hinit.1, hinit.2] at hcaller
    have hrest := atRest_of_commands hcaller.1
    unfold rest
    rw [restOfWorker_of_atRest hl.worker hrest, restOfWorker_of_atRest hl.worker hrest, ok_bind,
      hinit.1]
    rfl
  · cases h

theorem rest_getFileContent (h : s.getFileContent = some s') : rest D s' = rest D s := by
  unfold getFileContent at h
  split at h
  next hout =>
    unfold rest
    rw [hout]
    split at h
    · obtain rfl := Option.some.inj h
      rfl
    · obtain rfl := Option.some.inj h
      rfl
    · obtain rfl := Option.some.inj h
      rfl
    · cases h
  · cases h

/-- The caller does what it had left. -/
theorem rest_callerStep (h : s.callerStep = some (s', o)) : rest D s' = rest D s := by
  unfold rest
  cases hc : s.caller with
  | out =>
    simp only [callerStep, hc] at h
    cases h
  | setFilePath | setLinesSha1 | setEmptyLines | setState =>
    simp only [callerStep, hc] at h
    obtain ⟨rfl, -⟩ := Prod.mk.inj (Option.some.inj h)
    rfl
  | write cmd c =>
    simp only [callerStep, hc] at h
    obtain ⟨⟨q, c'⟩, -, heq⟩ := Option.map_eq_some_iff.mp h
    obtain ⟨rfl, -⟩ := Prod.mk.inj heq
    cases c' <;> rfl
  | readOnce r =>
    simp only [callerStep, hc] at h
    obtain ⟨⟨q, r'⟩, -, heq⟩ := Option.map_eq_some_iff.mp h
    obtain ⟨rfl, -⟩ := Prod.mk.inj heq
    show restOfWorker D s.worker (restOfCaller (.afterRead s.fileReadState r') s.file) = _
    rw [restOfCaller_afterRead]
    rfl
  | seesOver =>
    simp only [callerStep, hc] at h
    split at h
    · obtain ⟨rfl, -⟩ := Prod.mk.inj (Option.some.inj h)
      rfl
    · cases h

theorem rest_prepare {memalign : Bool} {fd : Nat} (hl : Link failed s f)
    (h : s.prepare memalign fd = some s') :
    rest D s' = (rest D s >>= fun r => effect D r (.prepare memalign fd)) := by
  unfold prepare at h
  split at h
  next hw =>
    have hworker := hl.worker
    have hcaller := hl.caller
    rw [hw] at hworker
    obtain rfl := hworker
    split at h
    next file ret hprep =>
      obtain rfl := Option.some.inj h
      unfold rest
      rw [hw, restOfCaller_of_command hcaller, restOfCaller_of_command hcaller]
      show _ = (s.file.prepare memalign (some fd)).map Prod.fst
      rw [hprep]
      rfl
    · cases h
  · cases h

theorem rest_read {buf : Bytes} (hl : Link failed s f) (h : s.read D buf = some s') :
    rest D s' = (rest D s >>= fun r => effect D r (.read buf)) := by
  unfold read at h
  split at h
  next hw =>
    have hworker := hl.worker
    have hcaller := hl.caller
    rw [hw] at hworker
    obtain rfl := hworker
    split at h
    next hread =>
      obtain rfl := Option.some.inj h
      unfold rest
      rw [hw, restOfCaller_of_command hcaller, restOfCaller_of_command hcaller]
      exact restOfWorker_read hread.1 hread.2.1 hread.2.2
    · cases h
  · cases h

/-- The worker does what it had left. -/
theorem rest_workerStep (hl : Link failed s f) (h : s.workerStep D = some s') :
    rest D s' = rest D s := by
  have hworker := hl.worker
  have hcaller := hl.caller
  unfold rest
  cases hw : s.worker with
  | readOnce r =>
    simp only [workerStep, hw] at h
    obtain ⟨⟨q, r'⟩, -, rfl⟩ := Option.map_eq_some_iff.mp h
    exact restOfWorker_afterRead r' _
  | prepare | read =>
    simp only [workerStep, hw] at h
    cases h
  | lines buf curLineBegin i rest =>
    rw [hw] at hworker
    obtain rfl := hworker
    have hcalls : ∀ r, restOfCaller s.caller r = r := fun r => restOfCaller_of_command hcaller
    rw [hcalls]
    cases rest with
    | nil =>
      simp only [workerStep, hw] at h
      split at h
      next hlt =>
        obtain ⟨file, happ, rfl⟩ := onFile_eq_some h
        rw [hcalls, restOfWorker_afterLines, restOfWorker, computeSha1ByLinesFrom, if_pos hlt,
          happ]
        rfl
      next hle =>
        obtain rfl := Option.some.inj h
        rw [hcalls, restOfWorker_afterLines, restOfWorker, computeSha1ByLinesFrom, if_neg hle]
        rfl
    | cons c rest =>
      simp only [workerStep, hw] at h
      split at h
      next hlf =>
        obtain ⟨file, hline, rfl⟩ := onFile_eq_some h
        rw [hcalls, restOfWorker, restOfWorker, computeSha1ByLinesFrom, if_pos hlf, hline]
        rfl
      next hlf =>
        obtain rfl := Option.some.inj h
        rw [hcalls, restOfWorker, restOfWorker, computeSha1ByLinesFrom, if_neg hlf]
  | flush =>
    rw [hw] at hworker
    obtain rfl := hworker
    simp only [workerStep, hw] at h
    obtain ⟨file, hflush, rfl⟩ := onFile_eq_some h
    rw [restOfCaller_of_command hcaller, restOfCaller_of_command hcaller, restOfWorker,
      restOfWorker, finishFile, hflush]
    rfl
  | close =>
    rw [hw] at hworker
    obtain rfl := hworker
    simp only [workerStep, hw] at h
    obtain rfl := Option.some.inj h
    rw [restOfCaller_of_command hcaller, restOfCaller_of_command hcaller]
    rfl
  | write ret c =>
    simp only [workerStep, hw] at h
    obtain ⟨⟨q, c'⟩, -, rfl⟩ := Option.map_eq_some_iff.mp h
    exact restOfWorker_afterWrite ret c' _

/-- **One step.** It carries its event out, or does some of what is begun. -/
theorem rest_step (hl : Link failed s f) (h : step D s e = some (s', o)) :
    rest D s' = (rest D s >>= fun r => effect D r e) := by
  have hquiet : ∀ {x : Except Fault FileReader}, (x >>= fun r => Except.ok r) = x :=
    fun {x} => bind_pure x
  cases e with
  | doFileContent path => exact rest_doFileContent hl (Machine.eq_some_of_map h).1
  | getFileContent => exact (rest_getFileContent (Machine.eq_some_of_map h).1).trans hquiet.symm
  | caller => exact (rest_callerStep h).trans hquiet.symm
  | prepare memalign fd => exact rest_prepare hl (Machine.eq_some_of_map h).1
  | read buf => exact rest_read hl (Machine.eq_some_of_map h).1
  | worker => exact (rest_workerStep hl (Machine.eq_some_of_map h).1).trans hquiet.symm

variable {h : History}

/-- **The threads compute what their events do one after the other.** -/
theorem rest_eq_replay (hr : (machine D).Reach h s) :
    rest D s = replay D (.fresh []) (h.map Prod.fst) := by
  induction hr with
  | init => rfl
  | @snoc h s s' e o hr hstep ih =>
    obtain ⟨f, hl, -⟩ := inv_of_reach hr
    have hlast : ∀ r, replay D r [e] = effect D r e := fun r => bind_pure (effect D r e)
    rw [rest_step hl hstep, ih, List.map_append, replay_append]
    simp only [List.map_cons, List.map_nil, hlast]

/-- When both threads have nothing left, the file is that of the replay. -/
theorem replay_of_out (hr : (machine D).Reach h s) (hout : s.caller = .out)
    (hinit : s.fileReadState = .FILE_CONTENT_READ_INIT) :
    replay D (.fresh []) ((h.map Prod.fst).filter Event.carries) = .ok s.file ∧
      s.file.fileReadFd = -1 := by
  obtain ⟨f, hl, -⟩ := inv_of_reach hr
  have hcaller := hl.caller
  rw [hout, hinit] at hcaller
  refine ⟨?_, hcaller.2⟩
  rw [replay_filter, ← rest_eq_replay hr, rest, hout]
  exact restOfWorker_of_atRest hl.worker (atRest_of_commands hcaller.1)

/-! ### Files in turn -/

/-- The call for a file, and the answers that read it to its end. -/
def eventsOf (f : FileToRead) : List Event :=
  .doFileContent f.path :: .prepare true f.fd :: (reads f.content).map .read

/-- A read that fills the buffer is not the last one. -/
theorem code_of_full {r r' : FileReader} {code : DcCommonCode} {buf : Bytes}
    (hfull : buf.length = DC_CONTENT_FILE_READ_BUF)
    (h : r.fileContentRead D (some buf) = .ok (r', code)) : code = .S_SUCCESS := by
  obtain ⟨-, -, h⟩ := bind_eq_ok.mp h
  obtain ⟨-, -, h⟩ := bind_eq_ok.mp h
  have hzero : buf.length ≠ 0 := by
    rw [hfull]
    decide
  dsimp only at h
  rw [if_neg hzero, if_neg hfull.not_lt] at h
  obtain ⟨-, -, h⟩ := bind_eq_ok.mp h
  obtain ⟨r₁, -, h⟩ := bind_eq_ok.mp h
  exact (Prod.mk.inj (Except.ok.inj h)).2.symm

/-- Every read but the last one fills the buffer. -/
theorem replay_reads (r : FileReader) (content : Bytes) :
    replay D r ((reads content).map .read) = (r.readAll D (reads content)).map Prod.fst := by
  induction content using reads.induct generalizing r with
  | case1 content hshort =>
    rw [reads, if_pos hshort]
    show (effect D r (.read content) >>= fun r => .ok r) = _
    rw [FileReader.readAll]
    show ((r.fileContentRead D (some content)).map Prod.fst >>= fun r => .ok r) = _
    cases r.fileContentRead D (some content) with
    | error e => rfl
    | ok x =>
      obtain ⟨r', code⟩ := x
      show Except.ok r' = (if code = .S_SUCCESS then _ else _ : Except _ _).map _
      split_ifs with hcode <;> rfl
  | case2 content hlong ih =>
    have hfull : (content.take DC_CONTENT_FILE_READ_BUF).length = DC_CONTENT_FILE_READ_BUF :=
      List.length_take_of_le (Nat.le_of_not_lt hlong)
    rw [reads, if_neg hlong]
    generalize content.take DC_CONTENT_FILE_READ_BUF = buf at hfull
    generalize content.drop DC_CONTENT_FILE_READ_BUF = content' at ih
    show ((r.fileContentRead D (some buf)).map Prod.fst >>= fun r =>
      replay D r ((reads content').map .read)) = _
    rw [FileReader.readAll]
    cases hread : r.fileContentRead D (some buf) with
    | error e => rfl
    | ok x =>
      obtain ⟨r', code⟩ := x
      obtain rfl := code_of_full hfull hread
      exact ih r'

/-- The events of a file are the work on it. -/
theorem replay_eventsOf (r : FileReader) (f : FileToRead) :
    replay D r (eventsOf f) = (r.readNext D f).map Prod.fst := by
  show (Except.ok _ >>= fun r => (effect D r (.prepare true f.fd)) >>= fun r =>
    replay D r ((reads f.content).map .read)) = _
  simp only [ok_bind, replay_reads]
  unfold readNext effect
  dsimp only
  cases FileReader.prepare _ true (some f.fd) with
  | error e => rfl
  | ok x => rfl

/-- Files that are cleared leave a reader that reads like a new one. -/
theorem exists_replay {fs : List FileToRead} {r : FileReader} (hpre : r.filePreLine = [])
    (hfd : r.fileReadFd = -1)
    (hlines : ∀ f ∈ fs, ∀ line ∈ lines lf f.content, line.length < 2 ^ 31)
    (hclear : ∀ f ∈ fs, CarryCleared f.content) :
    ∃ r', replay D r (fs.flatMap eventsOf) = .ok r' ∧ r'.filePreLine = [] ∧
      r'.fileReadFd = -1 := by
  induction fs generalizing r with
  | nil => exact ⟨r, rfl, hpre, hfd⟩
  | cons f fs ih =>
    rw [List.forall_mem_cons] at hlines hclear
    obtain ⟨r₁, hread, -⟩ := readFile_spec D f.path_ne_nil f.fd hlines.1
    obtain ⟨-, hfd₁, hpre₁⟩ := filePreLine_readFile f.path_ne_nil hread
    obtain ⟨r', hrest⟩ := ih (hpre₁.mpr hclear.1) hfd₁ hlines.2 hclear.2
    refine ⟨r', ?_, hrest.2⟩
    rw [List.flatMap_cons, replay_append, replay_eventsOf, readNext_of_nil hpre hfd, hread]
    exact hrest.1

/-- **What the caller gets.** Whatever the interleaving, a caller that is told the end of a
file finds what one pass over the file gives, if the files before it were cleared. -/
theorem outputs_of_files {fs : List FileToRead} {f : FileToRead} (hr : (machine D).Reach h s)
    (hevents : (h.map Prod.fst).filter Event.carries = (fs ++ [f]).flatMap eventsOf)
    (hlines : ∀ g ∈ fs ++ [f], ∀ line ∈ lines lf g.content, line.length < 2 ^ 31)
    (hclear : ∀ g ∈ fs, CarryCleared g.content) (hout : s.caller = .out)
    (hinit : s.fileReadState = .FILE_CONTENT_READ_INIT) :
    s.outputs = computeFileSha1SkipEmptyLine D f.content ∧
      s.file.md5 = D.md5 (lastRead f.content) ∧ s.file.fileReadFd = -1 := by
  obtain ⟨hreplay, hfd⟩ := replay_of_out hr hout hinit
  rw [List.forall_mem_append, List.forall_mem_singleton] at hlines
  obtain ⟨r, hbefore, hpre, hclosed⟩ := exists_replay (D := D) (r := .fresh []) rfl rfl hlines.1
    hclear
  have hfile := readFile_of_lt D f.path_ne_nil f.fd hlines.2
  rw [hevents, List.flatMap_append, replay_append, hbefore, ok_bind, List.flatMap_singleton,
    replay_eventsOf, readNext_of_nil hpre hclosed, hfile] at hreplay
  have hsame := (Except.ok.inj hreplay).symm
  have hpass := foldl_countLine D (lines lf f.content) [] 0
  rw [List.nil_append, Int.zero_add] at hpass
  refine ⟨?_, by rw [hsame]; rfl, hfd⟩
  unfold outputs
  rw [hsame, computeFileSha1SkipEmptyLine_eq]
  exact hpass

/-- The steps of the two threads on a file that is read at once. -/
def sessionEvents (path content : Bytes) (fd work : Nat) : List Event :=
  [[.doFileContent path], List.replicate 8 .caller, List.replicate 7 .worker,
    [.prepare true fd], List.replicate 4 .worker, [.getFileContent], List.replicate 12 .caller,
    List.replicate 7 .worker, [.read content, .worker, .getFileContent, .caller, .caller],
    List.replicate work .worker, [.getFileContent], List.replicate 9 .caller].flatten

theorem eventsOf_of_lt {f : FileToRead} (h : f.content.length < DC_CONTENT_FILE_READ_BUF) :
    eventsOf f = [.doFileContent f.path, .prepare true f.fd, .read f.content] := by
  rw [eventsOf, reads, if_pos h]
  rfl

/-- The outputs after the second of two files. -/
theorem outputs_of_files_two :
    ∃ h s, (machine ⟨id, id⟩).Reach h s ∧ s.outputs = ([ascii "b"], 0) := by
  have hrun : ((machine ⟨id, id⟩).run? (sessionEvents (ascii "f") (ascii "a\n \n") 3 12 ++
      sessionEvents (ascii "g") (ascii "b") 4 7)).any (fun r =>
        decide ((r.1.map Prod.fst).filter Event.carries =
            [.doFileContent (ascii "f"), .prepare true 3, .read (ascii "a\n \n"),
              .doFileContent (ascii "g"), .prepare true 4, .read (ascii "b")] ∧
          r.2.caller = .out ∧ r.2.fileReadState = .FILE_CONTENT_READ_INIT)) = true := by
    decide +kernel
  obtain ⟨h, s, hr, hcheck⟩ := Machine.exists_reach_of_run? hrun
  obtain ⟨hevents, hout, hinit⟩ := of_decide_eq_true hcheck
  let f : FileToRead := ⟨ascii "f", by decide, 3, ascii "a\n \n"⟩
  let g : FileToRead := ⟨ascii "g", by decide, 4, ascii "b"⟩
  have hscript : (h.map Prod.fst).filter Event.carries = ([f] ++ [g]).flatMap eventsOf := by
    rw [hevents, List.flatMap_append, List.flatMap_singleton, List.flatMap_singleton,
      eventsOf_of_lt (by decide +kernel), eventsOf_of_lt (by decide +kernel)]
    rfl
  have hlines : ∀ x ∈ [f] ++ [g], ∀ line ∈ lines lf x.content, line.length < 2 ^ 31 := by
    rw [List.forall_mem_append, List.forall_mem_singleton, List.forall_mem_singleton]
    exact ⟨by decide +kernel, by decide +kernel⟩
  have hclear : ∀ x ∈ [f], CarryCleared x.content := List.forall_mem_singleton.mpr (Or.inl rfl)
  refine ⟨h, s, hr, (outputs_of_files hr hscript hlines hclear hout hinit).1.trans ?_⟩
  rw [computeFileSha1SkipEmptyLine_eq]
  decide +kernel

end ReaderThreads

end Wfrest
