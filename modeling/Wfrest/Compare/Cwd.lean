import Wfrest.Compare.Walk
import Wfrest.Lib.Run
import Wfrest.Server.StaticFiles

/-!
# The current directory

A compare job and the internal executor work in one process, each in a thread of its own,
and both use `chdir` to make the relative paths of a task those below its base directory.
The current directory belongs to the process. What a path leads to is therefore decided by
the last `chdir` of either thread.

Besides, `exe_sql_job1` asks for the path to compare before its `chdir`, and goes on when the
`chdir` fails; the executor does neither.

Paths keep to their tasks in every run where each `chdir` leads to the base directory of all
tasks that have relative paths left, where that of a job does not fail, and where a job with
a relative path begins in its base directory (`own_of_apart`), and in no others, as far as it
lies with the paths that are still to come (`apart_iff`).

* What the system answers is free: every step may find what it likes.
* A base directory that is relative itself is meant from where the process was started.
-/

namespace Wfrest

/-! ### The paths of a job -/

/-- `exe_sql_job_for_single_item_dir`: the paths that the local content asks for, and the
paths in `dir_q_`. -/
def queueDir (full : Nat → Bool) (newPath : Bytes) (dirQ : List Bytes) :
    List Bytes × List Bytes :=
  let dirQ := dirQ ++ [newPath]
  if full dirQ.length then (dirQ, []) else ([], dirQ)

/-- The paths that the loop of `exe_sql_job_for_dir` asks for, in their order, and those in
`dir_q_` after it. -/
def loopPaths (full : Nat → Bool) : Listing → Bytes → List Bytes → List Bytes × List Bytes
  | .done, _, dirQ => ([], dirQ)
  | .link rest, path, dirQ => loopPaths full rest path dirQ
  | .dir name opens sub rest, path, dirQ =>
    if name = [dot] ∨ name = [dot, dot] then loopPaths full rest path dirQ
    else
      let newPath := path ++ slash :: name
      let queued := queueDir full newPath dirQ
      let below := if opens then loopPaths full sub newPath queued.2 else ([], queued.2)
      let after := loopPaths full rest path below.2
      (queued.1 ++ newPath :: below.1 ++ after.1, after.2)
  | .other name none _, path, dirQ => ([path ++ slash :: name], dirQ)
  | .other name (some _) rest, path, dirQ =>
    let after := loopPaths full rest path dirQ
    ((path ++ slash :: name) :: after.1, after.2)

/-- The paths that `exe_sql_job1` asks for after its `chdir`. -/
def walkPaths (full : Nat → Bool) (opens : Bool) (listing : Listing) (path : Bytes) :
    List Bytes :=
  path ::
    if opens then
      let loop := loopPaths full listing path []
      if listing.stops then loop.1 else loop.1 ++ loop.2
    else []

theorem dirQ_singleItemDir {full : Nat → Bool} {job : CompareJob} {newPath : Bytes}
    {jsonIdx : Int} {w w' : Walk}
    (h : exeSqlJobForSingleItemDir full job newPath jsonIdx w = some w') :
    w'.dirQ.map Prod.fst = (queueDir full newPath (w.dirQ.map Prod.fst)).2 := by
  unfold exeSqlJobForSingleItemDir at h
  unfold queueDir
  have hlen : (w.dirQ.map Prod.fst ++ [newPath]).length =
      (w.dirQ ++ [(newPath, jsonIdx)]).length := by simp
  simp only [hlen]
  dsimp only at h
  split at h
  next hfull => rw [if_pos hfull, dirQ_of_singleItemDir1 h, List.map_nil]
  next hfull => rw [if_neg hfull, ← Option.some.inj h, List.map_append]; rfl

/-- **The paths are those of the walk.** They queue what the walk queues. -/
theorem dirQ_readLoop {full : Nat → Bool} {job : CompareJob} {listing : Listing} {path : Bytes}
    {depth : Nat} {w w' : Walk} {ret : DcCommonCode}
    (h : readLoop full job listing path depth w = some (ret, w')) :
    w'.dirQ.map Prod.fst = (loopPaths full listing path (w.dirQ.map Prod.fst)).2 := by
  induction listing generalizing path depth w ret w' with
  | done => rw [← (Prod.mk.inj (Option.some.inj h)).2]; rfl
  | link rest ih => exact ih h
  | dir name opens sub rest ihsub ihrest =>
    unfold loopPaths
    by_cases hdots : name = [dot] ∨ name = [dot, dot]
    · rw [readLoop_dots hdots] at h
      rw [if_pos hdots]
      exact ihrest h
    · rw [if_neg hdots]
      obtain ⟨json, w₁, r, -, hqueue, hsub, h⟩ := readLoop_dir hdots h
      have h₁ := dirQ_singleItemDir (w := w.emplaceBack json) hqueue
      rw [ihrest h]
      cases opens with
      | true =>
        rw [ihsub hsub, h₁]
        rfl
      | false =>
        rw [← Option.some.inj hsub, h₁]
        rfl
  | other name isReg rest ih =>
    cases isReg with
    | none => rw [← (Prod.mk.inj (Option.some.inj h)).2]; rfl
    | some isReg =>
      cases isReg with
      | false => exact ih h
      | true => exact ih (w := w.emplaceBack _) h

/-! ### One process -/

/-- Where the compare worker stands. -/
inductive ComparePhase where
  | idle
  /-- `stat` has found a directory, and `chdir` is next. -/
  | entering (baseDir : Bytes) (paths : List Bytes)
  /-- Behind the `chdir`, with `rest` left to ask for. -/
  | walking (baseDir : Bytes) (failed : Bool) (rest : List Bytes)

/-- Where the worker of the executor stands. -/
inductive ExecutorPhase where
  | idle
  /-- Behind the `chdir`, with `rest` left to ask for. -/
  | statting (baseDir : Bytes) (rest : List Bytes)

/-- The process. -/
structure Process where
  /-- The current directory. -/
  cwd : List Bytes
  compare : ComparePhase
  executor : ExecutorPhase

/-- A call of one of the threads. -/
inductive CwdEvent where
  /-- `exe_sql_job1` begins: `stat` of the path to compare of the standard server. -/
  | stat (info : ServerInfo) (kind : PathKind)
  /-- The `chdir` of `exe_sql_job1`. -/
  | enter (ok : Bool)
  /-- The next path of the job. -/
  | walk
  /-- `thd_worker_task_dir_attr_list` begins: `chdir`. -/
  | chdir (baseDir : Bytes) (dirs : List Bytes) (ok : Bool)
  /-- The next path of the list. -/
  | statDir

inductive CwdOutput where
  /-- A path of a task was resolved. Has the `chdir` of the task failed? -/
  | resolved (baseDir : Bytes) (failed : Bool) (path : Bytes)
  /-- A `chdir` of a task that had resolved `before` paths. -/
  | changed (ok : Bool) (before : Nat)
  deriving DecidableEq

/-- The path depends on the current directory. -/
def isRelative (path : Bytes) : Bool := path.head? ≠ some slash

/-- The base directory of a task. -/
def baseOf (start : List Bytes) (baseDir : Bytes) : List Bytes := resolve start (cStr baseDir)

/-- The directory is the base directory of a task that has these paths left, if one of them
is relative. -/
def Fits (start dir : List Bytes) (baseDir : Bytes) (paths : List Bytes) : Prop :=
  (∃ path ∈ paths, isRelative (cStr path) = true) → dir = baseOf start baseDir

instance decidableFits (start dir : List Bytes) (baseDir : Bytes) (paths : List Bytes) :
    Decidable (Fits start dir baseDir paths) :=
  inferInstanceAs (Decidable (_ → _))

/-- The directory fits the job. A `chdir` is still ahead of a job that is `entering`. -/
def ComparePhase.Fits (start dir : List Bytes) : ComparePhase → Prop
  | .walking baseDir _ rest => Wfrest.Fits start dir baseDir rest
  | _ => True

/-- The directory fits the task of the executor. -/
def ExecutorPhase.Fits (start dir : List Bytes) : ExecutorPhase → Prop
  | .statting baseDir rest => Wfrest.Fits start dir baseDir rest
  | .idle => True

instance decidableFitsCompare (start dir : List Bytes) :
    (phase : ComparePhase) → Decidable (phase.Fits start dir)
  | .walking baseDir _ rest => decidableFits start dir baseDir rest
  | .idle => .isTrue trivial
  | .entering _ _ => .isTrue trivial

instance decidableFitsExecutor (start dir : List Bytes) :
    (phase : ExecutorPhase) → Decidable (phase.Fits start dir)
  | .statting baseDir rest => decidableFits start dir baseDir rest
  | .idle => .isTrue trivial

namespace Process

/-- The phase with some paths left. -/
def walkOn (baseDir : Bytes) (failed : Bool) : List Bytes → ComparePhase
  | [] => .idle
  | rest => .walking baseDir failed rest

/-- The phase with some paths left. -/
def statOn (baseDir : Bytes) : List Bytes → ExecutorPhase
  | [] => .idle
  | rest => .statting baseDir rest

/-- What `exe_sql_job1` does behind its first `stat`. -/
def enterNext (info : ServerInfo) : PathKind → ComparePhase
  | .directory opens listing =>
    .entering info.baseDir (walkPaths overBatch opens listing (cStr info.pathToCompare))
  | _ => .idle

/-- The current directory after a `chdir`. -/
def cwdAfter (s : Process) (ok : Bool) (baseDir : Bytes) : List Bytes :=
  if ok then resolve s.cwd (cStr baseDir) else s.cwd

/-- One step. -/
def step (s : Process) (e : CwdEvent) : Option (Process × CwdOutput) :=
  match e, s.compare, s.executor with
  | .stat info kind, .idle, _ =>
    some ({ s with compare := enterNext info kind },
      .resolved info.baseDir false (cStr info.pathToCompare))
  | .enter ok, .entering baseDir paths, _ =>
    some ({ s with cwd := s.cwdAfter ok baseDir, compare := walkOn baseDir (!ok) paths },
      .changed ok 1)
  | .walk, .walking baseDir failed (path :: rest), _ =>
    some ({ s with compare := walkOn baseDir failed rest }, .resolved baseDir failed (cStr path))
  | .chdir baseDir dirs ok, _, .idle =>
    some ({ s with
      cwd := s.cwdAfter ok baseDir
      executor := if ok then statOn baseDir dirs else .idle }, .changed ok 0)
  | .statDir, _, .statting baseDir (dir :: rest) =>
    some ({ s with executor := statOn baseDir rest }, .resolved baseDir false (cStr dir))
  | _, _, _ => none

/-- The process, started in `start`. -/
def machine (start : List Bytes) : Machine Process CwdEvent CwdOutput :=
  ⟨⟨start, .idle, .idle⟩, step⟩

/-- **Paths keep to their task.** A relative path is resolved in the base directory of its
task, and a task whose `chdir` fails resolves no path, neither behind it nor before. -/
def Own (start : List Bytes) (_ : List (CwdEvent × CwdOutput)) (s : Process) (_ : CwdEvent)
    (o : CwdOutput) (_ : Process) : Prop :=
  (∀ baseDir failed path, o = .resolved baseDir failed path →
    (isRelative path = true → s.cwd = baseOf start baseDir) ∧ failed = false) ∧
    ∀ before, o = .changed false before → before = 0

/-! ### When the threads keep apart -/

/-- Where the `chdir` of the job would lead fits both tasks. -/
def EnterFits (start : List Bytes) (s : Process) : Prop :=
  match s.compare with
  | .entering baseDir paths =>
    Fits start (resolve s.cwd (cStr baseDir)) baseDir paths ∧
      s.executor.Fits start (resolve s.cwd (cStr baseDir))
  | _ => True

/-- **The threads keep apart** at a step. A job with a relative path begins in its base
directory; its `chdir` does not fail; and where a `chdir` leads fits the tasks of both
threads. -/
def Apart (start : List Bytes) (s : Process) : CwdEvent → Prop
  | .stat info _ => Fits start s.cwd info.baseDir [info.pathToCompare]
  | .enter ok => ok = true ∧ s.EnterFits start
  | .chdir baseDir dirs ok =>
    ok = true → Fits start (resolve s.cwd (cStr baseDir)) baseDir dirs ∧
      s.compare.Fits start (resolve s.cwd (cStr baseDir))
  | _ => True

instance decidableEnterFits (start : List Bytes) (s : Process) : Decidable (s.EnterFits start) := by
  unfold EnterFits
  cases s.compare <;> infer_instance

instance decidableApart (start : List Bytes) (s : Process) :
    (e : CwdEvent) → Decidable (Apart start s e)
  | .stat info _ => decidableFits start s.cwd info.baseDir [info.pathToCompare]
  | .enter ok => inferInstanceAs (Decidable (ok = true ∧ s.EnterFits start))
  | .chdir _ _ _ => inferInstanceAs (Decidable (_ → _ ∧ _))
  | .walk => .isTrue trivial
  | .statDir => .isTrue trivial

/-! ### One step -/

variable {start : List Bytes} {h : List (CwdEvent × CwdOutput)} {s s' : Process} {e : CwdEvent}
  {o : CwdOutput}

/-- What one step can do. -/
inductive StepCase (s : Process) : CwdEvent → CwdOutput → Process → Prop
  | begun {info : ServerInfo} {kind : PathKind} (hcompare : s.compare = .idle) :
      StepCase s (.stat info kind) (.resolved info.baseDir false (cStr info.pathToCompare))
        { s with compare := enterNext info kind }
  | entered {ok : Bool} {baseDir : Bytes} {paths : List Bytes}
      (hcompare : s.compare = .entering baseDir paths) :
      StepCase s (.enter ok) (.changed ok 1)
        { s with cwd := s.cwdAfter ok baseDir, compare := walkOn baseDir (!ok) paths }
  | walked {baseDir : Bytes} {failed : Bool} {path : Bytes} {rest : List Bytes}
      (hcompare : s.compare = .walking baseDir failed (path :: rest)) :
      StepCase s .walk (.resolved baseDir failed (cStr path))
        { s with compare := walkOn baseDir failed rest }
  | changed {baseDir : Bytes} {dirs : List Bytes} {ok : Bool} (hexecutor : s.executor = .idle) :
      StepCase s (.chdir baseDir dirs ok) (.changed ok 0)
        { s with
          cwd := s.cwdAfter ok baseDir
          executor := if ok then statOn baseDir dirs else .idle }
  | statted {baseDir dir : Bytes} {rest : List Bytes}
      (hexecutor : s.executor = .statting baseDir (dir :: rest)) :
      StepCase s .statDir (.resolved baseDir false (cStr dir))
        { s with executor := statOn baseDir rest }

/-- **Inversion.** A step does one of the five things above. -/
theorem step_cases (hstep : s.step e = some (s', o)) : StepCase s e o s' := by
  unfold step at hstep
  split at hstep
  next hcompare =>
    obtain ⟨rfl, rfl⟩ := Prod.mk.inj (Option.some.inj hstep)
    exact .begun hcompare
  next hcompare =>
    obtain ⟨rfl, rfl⟩ := Prod.mk.inj (Option.some.inj hstep)
    exact .entered hcompare
  next hcompare =>
    obtain ⟨rfl, rfl⟩ := Prod.mk.inj (Option.some.inj hstep)
    exact .walked hcompare
  next hexecutor =>
    obtain ⟨rfl, rfl⟩ := Prod.mk.inj (Option.some.inj hstep)
    exact .changed hexecutor
  next hexecutor =>
    obtain ⟨rfl, rfl⟩ := Prod.mk.inj (Option.some.inj hstep)
    exact .statted hexecutor
  · cases hstep

/-- A path less to ask for. -/
theorem fits_tail {dir : List Bytes} {baseDir path : Bytes} {rest : List Bytes}
    (hfits : Fits start dir baseDir (path :: rest)) : Fits start dir baseDir rest := by
  rintro ⟨p, hp, hrel⟩
  exact hfits ⟨p, List.mem_cons_of_mem _ hp, hrel⟩

theorem fits_walkOn {dir : List Bytes} {baseDir : Bytes} {failed : Bool} {rest : List Bytes}
    (hfits : Fits start dir baseDir rest) : (walkOn baseDir failed rest).Fits start dir := by
  cases rest with
  | nil => trivial
  | cons path rest => exact hfits

theorem fits_statOn {dir : List Bytes} {baseDir : Bytes} {rest : List Bytes}
    (hfits : Fits start dir baseDir rest) : (statOn baseDir rest).Fits start dir := by
  cases rest with
  | nil => trivial
  | cons path rest => exact hfits

/-! ### Whole runs -/

/-- What holds in the states of a run in which the threads keep apart. -/
structure Settled (start : List Bytes) (s : Process) : Prop where
  compare : s.compare.Fits start s.cwd
  executor : s.executor.Fits start s.cwd
  /-- The `chdir` of the job has not failed. -/
  entered : ∀ baseDir failed rest, s.compare = .walking baseDir failed rest → failed = false

theorem settled_start (start : List Bytes) : Settled start ⟨start, .idle, .idle⟩ :=
  ⟨trivial, trivial, nofun⟩

theorem walkOn_eq_walking {baseDir baseDir' : Bytes} {failed failed' : Bool}
    {rest rest' : List Bytes} (h : walkOn baseDir failed rest = .walking baseDir' failed' rest') :
    failed = failed' := by
  cases rest with
  | nil => cases h
  | cons path rest => exact (ComparePhase.walking.inj h).2.1

/-- A step at which the threads keep apart keeps the paths to their tasks. -/
theorem own_step (hsettled : Settled start s) (hapart : Apart start s e)
    (hstep : s.step e = some (s', o)) : Own start h s e o s' ∧ Settled start s' := by
  cases step_cases hstep with
  | @begun info kind hcompare =>
    -- the job asks for its path before its `chdir`
    refine ⟨⟨?_, nofun⟩, ?_, hsettled.executor, ?_⟩
    · rintro baseDir failed path heq
      obtain ⟨rfl, rfl, rfl⟩ := CwdOutput.resolved.inj heq
      exact ⟨fun hrel => hapart ⟨_, List.mem_cons_self, hrel⟩, rfl⟩
    · cases kind <;> trivial
    · cases kind <;> exact nofun
  | @entered ok baseDir paths hcompare =>
    -- the new directory is its own, and the executor has no relative path left
    obtain ⟨rfl, henter⟩ := hapart
    unfold EnterFits at henter
    rw [hcompare] at henter
    obtain ⟨hcomp, hexec⟩ := henter
    refine ⟨⟨nofun, nofun⟩, fits_walkOn hcomp, hexec, ?_⟩
    exact fun _ _ _ heq => (walkOn_eq_walking heq).symm
  | @walked baseDir failed path rest hcompare =>
    have hfits := hsettled.compare
    rw [hcompare] at hfits
    have hfailed := hsettled.entered _ _ _ hcompare
    refine ⟨⟨?_, nofun⟩, fits_walkOn (fits_tail hfits), hsettled.executor, ?_⟩
    · rintro baseDir' failed' path' heq
      obtain ⟨rfl, rfl, rfl⟩ := CwdOutput.resolved.inj heq
      exact ⟨fun hrel => hfits ⟨path, List.mem_cons_self, hrel⟩, hfailed⟩
    · exact fun _ _ _ heq => (walkOn_eq_walking heq).symm.trans hfailed
  | @changed baseDir dirs ok hexecutor =>
    refine ⟨⟨nofun, ?_⟩, ?_⟩
    · rintro before heq
      exact (CwdOutput.changed.inj heq).2.symm
    -- where the `chdir` fails the process stays and the executor gives the task up
    cases ok with
    | true =>
      obtain ⟨hexec, hcomp⟩ := hapart rfl
      exact ⟨hcomp, fits_statOn hexec, hsettled.entered⟩
    | false => exact ⟨hsettled.compare, trivial, hsettled.entered⟩
  | @statted baseDir dir rest hexecutor =>
    have hfits := hsettled.executor
    rw [hexecutor] at hfits
    refine ⟨⟨?_, nofun⟩, hsettled.compare, fits_statOn (fits_tail hfits), hsettled.entered⟩
    rintro baseDir' failed' path' heq
    obtain ⟨rfl, rfl, rfl⟩ := CwdOutput.resolved.inj heq
    exact ⟨fun hrel => hfits ⟨dir, List.mem_cons_self, hrel⟩, rfl⟩

/-- **Paths keep to their tasks while the threads keep apart.** Wherever the process was
started and whatever the system answers: in every run at each step of which the threads keep
apart, every relative path is resolved in the base directory of its task, and a task whose
`chdir` fails resolves none. -/
theorem own_of_apart (start : List Bytes) {h : List (CwdEvent × CwdOutput)} {s : Process}
    (hr : (machine start).Reach h s)
    (hapart : (machine start).Always (fun _ s e _ _ => Apart start s e) h) :
    (machine start).Always (Own start) h := by
  suffices hall : (machine start).Always (Own start) h ∧ Settled start s from hall.1
  induction hr with
  | init => exact ⟨Machine.always_nil, settled_start start⟩
  | snoc hr hstep ih =>
    obtain ⟨hbefore, hlast⟩ := (Machine.always_snoc hr hstep).mp hapart
    obtain ⟨hown, hsettled⟩ := ih hbefore
    obtain ⟨hown', hsettled'⟩ := own_step hsettled hlast hstep
    exact ⟨(Machine.always_snoc hr hstep).mpr ⟨hown, hown'⟩, hsettled'⟩

/-! ### When they do not keep apart -/

/-- `h` can go on, without another `chdir`, to a path that leaves its task. -/
def Breaks (start : List Bytes) (h : List (CwdEvent × CwdOutput)) : Prop :=
  ∃ h' s, (∀ x ∈ h', x.1 = .walk ∨ x.1 = .statDir) ∧ (machine start).Reach (h ++ h') s ∧
    ¬ (machine start).Always (Own start) (h ++ h')

theorem breaks_of_not_always (hr : (machine start).Reach h s)
    (hnot : ¬ (machine start).Always (Own start) h) : Breaks start h :=
  ⟨[], s, nofun, (List.append_nil h).symm ▸ hr, (List.append_nil h).symm ▸ hnot⟩

theorem Breaks.of_snoc (he : e = .walk ∨ e = .statDir) (hbreaks : Breaks start (h ++ [(e, o)])) :
    Breaks start h := by
  obtain ⟨h', t, hh', hr, hnot⟩ := hbreaks
  rw [List.append_assoc] at hr hnot
  refine ⟨(e, o) :: h', t, ?_, hr, hnot⟩
  rintro x hx
  rcases List.mem_cons.mp hx with rfl | hx
  · exact he
  · exact hh' x hx

/-- A thread that has a relative path left gets to it. `left paths s` says that `paths` are
left in `s`, and `e` is the step that asks for the next one. -/
theorem breaks_of_left (left : List Bytes → Process → Prop) (failed : Bool) {e : CwdEvent}
    {baseDir : Bytes} (hfree : e = .walk ∨ e = .statDir)
    (hnext : ∀ path rest s, left (path :: rest) s → ∃ s', left rest s' ∧ s'.cwd = s.cwd ∧
      (machine start).step s e = some (s', .resolved baseDir failed (cStr path)))
    {paths : List Bytes} (hr : (machine start).Reach h s) (hleft : left paths s)
    (hfits : ¬ Fits start s.cwd baseDir paths) : Breaks start h := by
  obtain ⟨hrel, hcwd⟩ := Classical.not_imp.mp hfits
  clear hfits
  induction paths generalizing h s with
  | nil =>
    obtain ⟨_, hp, -⟩ := hrel
    cases hp
  | cons path rest ih =>
    obtain ⟨s', hleft', hsame, hstep⟩ := hnext path rest s hleft
    suffices hafter : Breaks start (h ++ [(e, .resolved baseDir failed (cStr path))]) from
      hafter.of_snoc hfree
    by_cases hpath : isRelative (cStr path) = true
    · -- it is resolved where the process is
      refine breaks_of_not_always (hr.snoc hstep) fun hall => ?_
      exact hcwd ((((Machine.always_snoc hr hstep).mp hall).2.1 _ _ _ rfl).1 hpath)
    · -- an absolute path comes first
      refine ih (hr.snoc hstep) hleft' ?_ (hsame ▸ hcwd)
      obtain ⟨p, hp, hprel⟩ := hrel
      rcases List.mem_cons.mp hp with rfl | hp
      · exact absurd hprel hpath
      · exact ⟨p, hp, hprel⟩

/-- A job that has a relative path left gets to it. -/
theorem breaks_of_walking (hr : (machine start).Reach h s) {baseDir : Bytes} {failed : Bool}
    {paths : List Bytes} (hcompare : s.compare = walkOn baseDir failed paths)
    (hfits : ¬ Fits start s.cwd baseDir paths) : Breaks start h := by
  refine breaks_of_left (fun paths s => s.compare = walkOn baseDir failed paths) failed
    (Or.inl rfl) (fun path rest s hleft => ?_) hr hcompare hfits
  refine ⟨{ s with compare := walkOn baseDir failed rest }, rfl, rfl, ?_⟩
  change s.step .walk = _
  unfold step
  rw [hleft]
  rfl

/-- A task of the executor that has a relative path left gets to it. -/
theorem breaks_of_statting (hr : (machine start).Reach h s) {baseDir : Bytes}
    {dirs : List Bytes} (hexecutor : s.executor = statOn baseDir dirs)
    (hfits : ¬ Fits start s.cwd baseDir dirs) : Breaks start h := by
  refine breaks_of_left (fun dirs s => s.executor = statOn baseDir dirs) false
    (Or.inr rfl) (fun dir rest s hleft => ?_) hr hexecutor hfits
  refine ⟨{ s with executor := statOn baseDir rest }, rfl, rfl, ?_⟩
  change s.step .statDir = _
  unfold step
  rw [hleft]
  cases s.compare <;> rfl

theorem eq_walkOn_of_not_fits {dir : List Bytes} {phase : ComparePhase}
    (hfits : ¬ phase.Fits start dir) :
    ∃ baseDir failed rest, phase = walkOn baseDir failed rest ∧
      ¬ Fits start dir baseDir rest := by
  cases phase with
  | walking baseDir failed rest =>
    cases rest with
    | nil => exact absurd (fun ⟨_, hp, _⟩ => nomatch hp) hfits
    | cons path rest => exact ⟨baseDir, failed, path :: rest, rfl, hfits⟩
  | _ => exact absurd trivial hfits

theorem eq_statOn_of_not_fits {dir : List Bytes} {phase : ExecutorPhase}
    (hfits : ¬ phase.Fits start dir) :
    ∃ baseDir rest, phase = statOn baseDir rest ∧ ¬ Fits start dir baseDir rest := by
  cases phase with
  | statting baseDir rest =>
    cases rest with
    | nil => exact absurd (fun ⟨_, hp, _⟩ => nomatch hp) hfits
    | cons path rest => exact ⟨baseDir, path :: rest, rfl, hfits⟩
  | idle => exact absurd trivial hfits

/-- **Nothing less will do.** A step at which the threads do not keep apart breaks the
property, or lets the tasks that are under way break it. -/
theorem breaks_of_not_apart (hr : (machine start).Reach h s)
    (hstep : (machine start).step s e = some (s', o)) (hnot : ¬ Apart start s e) :
    Breaks start (h ++ [(e, o)]) := by
  have hr' := hr.snoc hstep
  have hlast : ¬ Own start h s e o s' → Breaks start (h ++ [(e, o)]) := fun hown =>
    breaks_of_not_always hr' fun hall => hown ((Machine.always_snoc hr hstep).mp hall).2
  cases step_cases hstep with
  | @begun info kind hcompare =>
    -- the step itself asks for a path
    refine hlast fun hown => hnot ?_
    rintro ⟨p, hp, hrel⟩
    obtain rfl := List.mem_singleton.mp hp
    exact (hown.1 _ _ _ rfl).1 hrel
  | @entered ok baseDir paths hcompare =>
    -- the job walks on after a failed `chdir`, or one of the two threads is led astray
    cases ok with
    | false => exact hlast fun hown => absurd (hown.2 1 rfl) (by decide)
    | true =>
      have henter : ¬ s.EnterFits start := fun h => hnot ⟨rfl, h⟩
      unfold EnterFits at henter
      rw [hcompare] at henter
      by_cases hcomp : Fits start (resolve s.cwd (cStr baseDir)) baseDir paths
      · obtain ⟨_, _, hphase, hfits⟩ := eq_statOn_of_not_fits fun hexec => henter ⟨hcomp, hexec⟩
        exact breaks_of_statting hr' hphase hfits
      · exact breaks_of_walking hr' rfl hcomp
  | walked => exact absurd trivial hnot
  | @changed baseDir dirs ok hexecutor =>
    cases ok with
    | false => exact absurd (fun h => nomatch h) hnot
    | true =>
      by_cases hexec : Fits start (resolve s.cwd (cStr baseDir)) baseDir dirs
      · obtain ⟨_, _, _, hphase, hfits⟩ := eq_walkOn_of_not_fits fun hcomp =>
          hnot fun _ => ⟨hexec, hcomp⟩
        exact breaks_of_walking hr' hphase hfits
      · exact breaks_of_statting hr' rfl hexec
  | statted => exact absurd trivial hnot

/-- A step within a task asks nothing. -/
theorem apart_of_free (he : e = .walk ∨ e = .statDir) : Apart start s e := by
  rcases he with rfl | rfl
  · trivial
  · trivial

/-- **The condition is exact.** The threads keep apart in a run if and only if no beginning
of it breaks the property or lets the tasks that are under way break it. -/
theorem apart_iff (hr : (machine start).Reach h s) :
    (machine start).Always (fun _ s e _ _ => Apart start s e) h ↔
      ∀ h₁, h₁ <+: h → ¬ Breaks start h₁ := by
  constructor
  · rintro hapart h₁ ⟨h₂, rfl⟩ ⟨h', t, hfree, hr', hnot⟩
    refine hnot (own_of_apart start hr' fun g e o g' u u' hsplit hg hstep => ?_)
    rcases List.append_eq_append_iff.mp hsplit with ⟨m, rfl, htail⟩ | ⟨m, rfl, htail⟩
    · -- a step of the continuation does not change the directory
      exact apart_of_free (hfree _ (htail ▸ List.mem_append_right _ List.mem_cons_self))
    · cases m with
      | nil =>
        have hmem : (e, o) ∈ h' := by
          rw [List.nil_append] at htail
          exact htail ▸ List.mem_cons_self
        exact apart_of_free (hfree _ hmem)
      | cons x m =>
        obtain ⟨rfl, -⟩ := List.cons.inj htail
        exact hapart g e o (m ++ h₂) u u' (by simp) hg hstep
  · intro hall g e o g' u u' hsplit hg hstep
    by_contra hnot
    refine hall (g ++ [(e, o)]) ⟨g', ?_⟩ (breaks_of_not_apart hg hstep hnot)
    rw [hsplit, List.append_assoc]
    rfl

/-! ### Two runs -/

/-- A standard server that compares what is in `/a`. -/
def stdServer : ServerInfo where
  center := ascii "m1"
  host := ascii "localhost"
  user := ascii "admin"
  password := ascii "admin"
  port := 8888
  standard := true
  excludedFileRegex := []
  baseDir := ascii "/a"
  pathToCompare := ascii "."

/-- A task of the executor between the `chdir` of a job and its walk. -/
def crossedEvents (baseDir : String) : List CwdEvent :=
  [.stat stdServer (.directory true .done), .enter true, .chdir (ascii baseDir) [ascii "d"] true,
    .walk, .statDir]

/-- Two tasks with one base directory do not disturb each other. -/
theorem own_same_base :
    ∃ h s, (machine [ascii "a"]).Reach h s ∧ h.length = 5 ∧
      (machine [ascii "a"]).Always (Own [ascii "a"]) h := by
  have hrun : (((machine [ascii "a"]).restrict (Apart [ascii "a"])).run?
      (crossedEvents "/a")).any (fun r => decide (r.1.length = 5)) = true := by
    decide
  obtain ⟨h, s, hr, hlen⟩ := Machine.exists_reach_of_run? hrun
  obtain ⟨hreach, hapart⟩ := hr.of_restrict
  exact ⟨h, s, hreach, of_decide_eq_true hlen, own_of_apart _ hreach hapart⟩

/-- With another base directory the walk of the job opens `.` in `/b`. -/
theorem not_own_crossed :
    ¬ ∀ start h s, (machine start).Reach h s → (machine start).Always (Own start) h := by
  intro hall
  have hrun : ((machine [ascii "a"]).run? ((crossedEvents "/b").take 3)).any
      (fun r => decide (r.2.cwd = [ascii "b"] ∧ (r.2.step .walk).map Prod.snd =
        some (.resolved (ascii "/a") false (ascii ".")))) = true := by
    decide
  obtain ⟨h, s, hr, hcheck⟩ := Machine.exists_reach_of_run? hrun
  obtain ⟨hcwd, hwalk⟩ := of_decide_eq_true hcheck
  obtain ⟨⟨s', o⟩, hstep, rfl⟩ := Option.map_eq_some_iff.mp hwalk
  have hown := ((Machine.always_snoc hr hstep).mp (hall _ _ _ (hr.snoc hstep))).2
  have hdir := (hown.1 _ _ _ rfl).1 rfl
  exact absurd (hcwd.symm.trans hdir) (by decide)

end Process

end Wfrest
