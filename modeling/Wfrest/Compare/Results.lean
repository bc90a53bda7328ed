import Wfrest.Compare.Service

/-!
# Whose result a client gets

The two channels and the worker between them keep the order of the tasks: the
results that were handed out, the tasks on the way and the order of acceptance are
always one list (`Inv.order`). A `GET` therefore gets the result of the oldest
accepted task that was not handed out yet, whatever uuid it asks for.

So results go to their own task exactly in the runs where every `GET` that finds a
result asks for that oldest task (`results_own_iff`).
-/

namespace Wfrest.Service

/-- What happened so far. -/
abbrev History := List (Event × Output)

/-- The accepted tasks, in order. -/
def accepted (h : History) : List DcApiTask :=
  h.filterMap fun e =>
    match e.2 with
    | .reply (.accepted task _) => some task
    | _ => none

/-- The tasks that the worker has put into `out_q_`. -/
def finished (h : History) : List DcApiTask :=
  h.filterMap fun e =>
    match e.2 with
    | .finished task => some task
    | _ => none

/-- The results that were handed out, in order. -/
def delivered (h : History) : List Json :=
  h.filterMap fun e =>
    match e.2 with
    | .reply (.delivered json) => some json
    | _ => none

/-! What a step adds to these lists is what its own output shows. -/

theorem accepted_concat (h : History) (x : Event × Output) :
    accepted (h ++ [x]) = accepted h ++ accepted [x] := List.filterMap_append

theorem finished_concat (h : History) (x : Event × Output) :
    finished (h ++ [x]) = finished h ++ finished [x] := List.filterMap_append

theorem delivered_concat (h : History) (x : Event × Output) :
    delivered (h ++ [x]) = delivered h ++ delivered [x] := List.filterMap_append

/-- `json` is the result of an accepted task whose uuid is `u`. -/
def OwnResult (h : History) (u : Bytes) (json : Json) : Prop :=
  ∃ task ∈ accepted h, task.taskUuid = u ∧
    ∃ job, ∃ done ∈ finished h, task.execute job = some done ∧ done.compareResultJson = json

/-- A step does right: a result that it hands out is the asker's own, and it
removes a uuid only when that uuid's own result has been delivered to it. -/
def Served (h : History) (s : Service) (e : Event) (o : Output) (s' : Service) : Prop :=
  (∀ u json, e = .get u → o = .reply (.delivered json) → OwnResult h u json) ∧
    ∀ u ∈ s.taskUuidSet, u ∉ s'.taskUuidSet →
      ∃ json, (.get u, .reply (.delivered json)) ∈ h ++ [(e, o)] ∧ OwnResult h u json

/-- A step is in order: a `GET` for a known uuid that finds a finished result asks
for the oldest accepted task whose result was not handed out. -/
def InOrder (h : History) (s : Service) (e : Event) (_ : Output) (_ : Service) : Prop :=
  ∀ u, e = .get u → u ∈ s.taskUuidSet → s.outQ.items ≠ [] →
    ((accepted h)[(delivered h).length]?).map DcApiTask.taskUuid = some u

/-! ### One step -/

/-- What one step of the service can do. -/
inductive StepCase (parse : Bytes → Option CJson) (s : Service) :
    Event → Output → Service → Prop
  | refused {e : Event} {json : Json}
      (hget : ∀ u, e = .get u → u = [] ∨ u ∉ s.taskUuidSet ∨ s.outQ.items = []) :
      StepCase parse s e (.reply (.refused json)) s
  | accepted {req : TaskReq} {task : DcApiTask} {json : Json} {q : TaskChan}
      (hne : req.uuid ≠ [])
      (hbuild : buildTaskFromJson req.body (parse (cStr req.body)) = .ok task)
      (huuid : req.uuid = task.taskUuid) (hpush : s.taskQ.push? task = some q) :
      StepCase parse s (.post req) (.reply (.accepted task json))
        { s with taskQ := q, taskUuidSet := insert req.uuid s.taskUuidSet }
  | delivered {u : Bytes} {task : DcApiTask} {q : TaskChan}
      (hmem : u ∈ s.taskUuidSet) (hpop : s.outQ.pop? = some (task, q)) :
      StepCase parse s (.get u) (.reply (.delivered task.compareResultJson))
        { s with outQ := q, taskUuidSet := s.taskUuidSet.erase u }
  | taken {task : DcApiTask} {q : TaskChan}
      (hrun : s.running = none) (hpop : s.taskQ.pop? = some (task, q)) :
      StepCase parse s .take .taken { s with taskQ := q, running := some task }
  | finished {job : Job} {task done : DcApiTask} {q : TaskChan}
      (hrun : s.running = some task) (hexec : task.execute job = some done)
      (hpush : s.outQ.push? done = some q) :
      StepCase parse s (.finish job) (.finished done) { s with running := none, outQ := q }

variable {parse : Bytes → Option CJson} {h : History} {s s' : Service} {e : Event} {o : Output}

private theorem postTask_cases {req : TaskReq} {r : Reply}
    (hpost : s.postTask parse req = some (s', r)) :
    StepCase parse s (.post req) (.reply r) s' := by
  have hget : ∀ u, Event.post req = .get u → u = [] ∨ u ∉ s.taskUuidSet ∨ s.outQ.items = [] :=
    fun u hu => nomatch hu
  unfold postTask at hpost
  -- one refusal after the other, in the order of the handler
  split at hpost
  · obtain ⟨rfl, rfl⟩ := Prod.mk.inj (Option.some.inj hpost)
    exact .refused hget
  next hne =>
  split at hpost
  · obtain ⟨rfl, rfl⟩ := Prod.mk.inj (Option.some.inj hpost)
    exact .refused hget
  split at hpost
  · obtain ⟨rfl, rfl⟩ := Prod.mk.inj (Option.some.inj hpost)
    exact .refused hget
  split at hpost
  · cases hpost
  · cases hpost
  · obtain ⟨rfl, rfl⟩ := Prod.mk.inj (Option.some.inj hpost)
    exact .refused hget
  next task hbuild =>
  split at hpost
  · obtain ⟨rfl, rfl⟩ := Prod.mk.inj (Option.some.inj hpost)
    exact .refused hget
  next huuid =>
  obtain ⟨s₁, hadd, heq⟩ := Option.map_eq_some_iff.mp hpost
  obtain ⟨q, hpush, rfl⟩ := Option.map_eq_some_iff.mp hadd
  obtain ⟨rfl, rfl⟩ := Prod.mk.inj heq
  exact .accepted hne hbuild (not_not.mp huuid) hpush

private theorem getTask_cases (u : Bytes) :
    StepCase parse s (.get u) (.reply (s.getTask u).2) (s.getTask u).1 := by
  unfold getTask
  split
  -- no uuid, an unknown one, nothing finished: in each case nothing is taken
  next hu =>
    refine .refused fun v hv => ?_
    cases hv
    exact .inl hu
  split
  next hmem =>
    refine .refused fun v hv => ?_
    cases hv
    exact .inr (.inl hmem)
  next hmem =>
  unfold get
  cases hpop : s.outQ.pop? with
  | none =>
    refine .refused fun v hv => ?_
    exact .inr (.inr (Fifo.pop?_eq_none_iff.mp hpop))
  | some r => exact .delivered (not_not.mp hmem) hpop

/-- **Inversion.** A step does one of the five things above. -/
theorem step_cases (hstep : step parse s e = some (s', o)) : StepCase parse s e o s' := by
  cases e with
  | post req =>
    obtain ⟨⟨s₁, r⟩, hpost, heq⟩ := Option.map_eq_some_iff.mp hstep
    obtain ⟨rfl, rfl⟩ := Prod.mk.inj heq
    exact postTask_cases hpost
  | get u =>
    obtain ⟨rfl, rfl⟩ := Prod.mk.inj (Option.some.inj hstep)
    exact getTask_cases u
  | take =>
    obtain ⟨s₁, htake, heq⟩ := Option.map_eq_some_iff.mp hstep
    obtain ⟨rfl, rfl⟩ := Prod.mk.inj heq
    unfold take at htake
    split at htake
    · cases htake
    next hrun =>
    obtain ⟨⟨task, q⟩, hpop, rfl⟩ := Option.map_eq_some_iff.mp htake
    exact .taken hrun hpop
  | finish job =>
    obtain ⟨⟨s₁, done⟩, hfinish, heq⟩ := Option.map_eq_some_iff.mp hstep
    obtain ⟨rfl, rfl⟩ := Prod.mk.inj heq
    obtain ⟨task, hrun, hfinish⟩ := Option.bind_eq_some_iff.mp hfinish
    obtain ⟨done', hexec, hfinish⟩ := Option.bind_eq_some_iff.mp hfinish
    obtain ⟨q, hpush, hfinish⟩ := Option.bind_eq_some_iff.mp hfinish
    obtain ⟨rfl, rfl⟩ := Prod.mk.inj (Option.some.inj hfinish)
    exact .finished hrun hexec hpush

/-! ### The order of tasks -/

/-- A task without its result, as it was accepted. -/
def input (task : DcApiTask) : DcApiTask := { task with compareResultJson := .null }

/-- The tasks on the way, the oldest first. -/
def pending (s : Service) : List DcApiTask :=
  s.outQ.items.map input ++ s.running.toList ++ s.taskQ.items

theorem execute_spec {task done : DcApiTask} {job : Job} (hexec : task.execute job = some done) :
    input done = input task ∧ done.compareResultJson.get? "uuid" = some (.str task.taskUuid) := by
  have hne : ∀ key ∈ ["diffs", "next_shard", "errno", "error"], ascii "uuid" ≠ ascii key := by
    decide
  unfold DcApiTask.execute at hexec
  split at hexec
  · obtain rfl := Option.some.inj hexec
    refine ⟨rfl, ?_⟩
    simp only [Json.get?_set, if_neg (hne _ _), List.mem_cons, true_or, or_true, if_true]
  · obtain ⟨msg, -, rfl⟩ := Option.map_eq_some_iff.mp hexec
    refine ⟨rfl, ?_⟩
    simp only [Json.get?_set, if_neg (hne _ _), List.mem_cons, true_or, or_true, if_true]

theorem input_eq_self {task : DcApiTask} (h : task.compareResultJson = .null) :
    input task = task := by
  cases task
  cases h
  rfl

/-- What holds in every reached state. -/
structure Inv (h : History) (s : Service) : Prop where
  /-- Handed out, then on the way: together the order of acceptance. -/
  order : ∃ out, out.length = (delivered h).length ∧ accepted h = out ++ s.pending
  /-- What waits in `out_q_` was finished by the worker. -/
  waiting : ∀ done ∈ s.outQ.items, done ∈ finished h
  /-- What the worker finished is the result of an accepted task. -/
  result : ∀ done ∈ finished h, ∃ task ∈ accepted h, ∃ job, task.execute job = some done
  /-- Only the worker writes results. -/
  blank : ∀ task ∈ s.running.toList ++ s.taskQ.items, input task = task

theorem inv_start : Inv [] start :=
  ⟨⟨[], rfl, rfl⟩, fun _ hmem => (by cases hmem), fun _ hmem => (by cases hmem),
    fun _ hmem => (by cases hmem)⟩

/-- Every step keeps the invariant. -/
theorem inv_step (hinv : Inv h s) (hstep : step parse s e = some (s', o)) :
    Inv (h ++ [(e, o)]) s' := by
  obtain ⟨out, hlen, horder⟩ := hinv.order
  have hacc := accepted_concat h (e, o)
  have hfin := finished_concat h (e, o)
  have hdel := delivered_concat h (e, o)
  -- in each case two of the three lists stay as they are
  cases step_cases hstep with
  | refused =>
    have hacc := hacc.trans (List.append_nil _)
    have hfin := hfin.trans (List.append_nil _)
    have hdel := hdel.trans (List.append_nil _)
    refine ⟨⟨out, ?_, ?_⟩, ?_, ?_, hinv.blank⟩
    · rw [hdel, hlen]
    · rw [hacc, horder]
    · rw [hfin]
      exact hinv.waiting
    · rw [hfin, hacc]
      exact hinv.result
  | @accepted req task json q hne hbuild huuid hpush =>
    have hacc : _ = accepted h ++ [task] := hacc
    have hfin := hfin.trans (List.append_nil _)
    have hdel := hdel.trans (List.append_nil _)
    have hblank := input_eq_self (compareResultJson_of_buildTaskFromJson hbuild)
    have hitems := Fifo.push?_eq_some hpush
    refine ⟨⟨out, ?_, ?_⟩, ?_, ?_, ?_⟩
    · rw [hdel, hlen]
    · rw [hacc, horder]
      simp [pending, hitems]
    · rw [hfin]
      exact hinv.waiting
    · rw [hfin, hacc]
      intro done hdone
      obtain ⟨t, ht, hexec⟩ := hinv.result done hdone
      exact ⟨t, List.mem_append_left _ ht, hexec⟩
    · intro t ht
      rw [hitems, ← List.append_assoc, List.mem_append, List.mem_singleton] at ht
      rcases ht with ht | rfl
      · exact hinv.blank t ht
      · exact hblank
  | @delivered u task q hmem hpop =>
    have hacc := hacc.trans (List.append_nil _)
    have hfin := hfin.trans (List.append_nil _)
    have hdel : _ = delivered h ++ [task.compareResultJson] := hdel
    have hitems := Fifo.pop?_eq_some hpop
    -- the front of `out_q_` moves over to what was handed out
    refine ⟨⟨out ++ [input task], ?_, ?_⟩, ?_, ?_, hinv.blank⟩
    · rw [hdel, List.length_append, List.length_append, hlen]
      rfl
    · rw [hacc, horder]
      simp [pending, hitems]
    · rw [hfin]
      intro done hdone
      exact hinv.waiting done (by rw [hitems]; exact List.mem_cons_of_mem _ hdone)
    · rw [hfin, hacc]
      exact hinv.result
  | @taken task q hrun hpop =>
    have hacc := hacc.trans (List.append_nil _)
    have hfin := hfin.trans (List.append_nil _)
    have hdel := hdel.trans (List.append_nil _)
    have hitems := Fifo.pop?_eq_some hpop
    refine ⟨⟨out, ?_, ?_⟩, ?_, ?_, ?_⟩
    · rw [hdel, hlen]
    · rw [hacc, horder]
      simp [pending, hitems, hrun]
    · rw [hfin]
      exact hinv.waiting
    · rw [hfin, hacc]
      exact hinv.result
    · simpa [hrun, hitems] using hinv.blank
  | @finished job task done q hrun hexec hpush =>
    have hacc := hacc.trans (List.append_nil _)
    have hfin : _ = finished h ++ [done] := hfin
    have hdel := hdel.trans (List.append_nil _)
    have hitems := Fifo.push?_eq_some hpush
    have hblank : input task = task := hinv.blank task (by simp [hrun])
    -- the worker only has tasks that were accepted, so its result is one of theirs
    have hpending : task ∈ accepted h := by
      rw [horder]
      exact List.mem_append_right _ (by simp [pending, hrun])
    refine ⟨⟨out, ?_, ?_⟩, ?_, ?_, ?_⟩
    · rw [hdel, hlen]
    · have hdone : input done = task := (execute_spec hexec).1.trans hblank
      rw [hacc, horder]
      simp [pending, hitems, hrun, hdone]
    · rw [hfin]
      intro t ht
      rw [hitems, List.mem_append] at ht
      rcases ht with ht | ht
      · exact List.mem_append_left _ (hinv.waiting t ht)
      · exact List.mem_append_right _ ht
    · rw [hfin, hacc]
      intro t ht
      rcases List.mem_append.mp ht with ht | ht
      · exact hinv.result t ht
      · rw [List.mem_singleton] at ht
        exact ⟨task, hpending, job, ht ▸ hexec⟩
    · intro t ht
      exact hinv.blank t (List.mem_append_right _ (by simpa using ht))

/-- The invariant holds in every reached state. -/
theorem inv_of_reach (hr : (machine parse).Reach h s) : Inv h s :=
  hr.invariant inv_start fun _ _ _ _ _ _ hinv hstep => inv_step hinv hstep

/-- **First in, first out.** The result that waits longest is that of the oldest
accepted task that was not handed out. -/
theorem oldest_of_pop (hinv : Inv h s) {task : DcApiTask} {q : TaskChan}
    (hpop : s.outQ.pop? = some (task, q)) :
    (accepted h)[(delivered h).length]? = some (input task) := by
  obtain ⟨out, hlen, horder⟩ := hinv.order
  rw [horder, ← hlen, List.getElem?_append_right le_rfl, Nat.sub_self, pending,
    Fifo.pop?_eq_some hpop]
  rfl

/-- The result that waits longest belongs to a uuid exactly when it is the task of
that uuid. -/
theorem ownResult_pop_iff (hinv : Inv h s) {task : DcApiTask} {q : TaskChan}
    (hpop : s.outQ.pop? = some (task, q)) (u : Bytes) :
    OwnResult h u task.compareResultJson ↔ task.taskUuid = u := by
  have hmem : task ∈ finished h :=
    hinv.waiting task (by rw [Fifo.pop?_eq_some hpop]; exact List.mem_cons_self)
  -- the result was computed from an accepted task of the same uuid
  obtain ⟨t, ht, job, hexec⟩ := hinv.result task hmem
  have huuid : t.taskUuid = task.taskUuid := by
    change (input t).taskUuid = (input task).taskUuid
    rw [(execute_spec hexec).1]
  constructor
  · rintro ⟨t', -, rfl, job', done, -, hexec', hjson⟩
    -- the uuid can be read off the result
    have h₁ := (execute_spec hexec').2
    have h₂ := (execute_spec hexec).2
    rw [hjson, h₂] at h₁
    have heq : t.taskUuid = t'.taskUuid := by simpa using h₁
    exact huuid.symm.trans heq
  · rintro rfl
    exact ⟨t, ht, huuid, job, task, hmem, hexec, rfl⟩

/-- The empty uuid is never known: `POST` refuses it. -/
theorem nil_notMem_of_reach (hr : (machine parse).Reach h s) : [] ∉ s.taskUuidSet := by
  refine hr.invariant (I := fun _ s => [] ∉ s.taskUuidSet) (by simp [machine, start]) ?_
  intro h s e s' o _ hnil hstep
  obtain hc := step_cases hstep
  cases hc with
  | accepted hne =>
    intro hmem
    rcases Finset.mem_insert.mp hmem with heq | hmem
    · exact hne heq.symm
    · exact hnil hmem
  | delivered => exact fun hmem => hnil (Finset.mem_of_mem_erase hmem)
  | refused => exact hnil
  | taken => exact hnil
  | finished => exact hnil

/-! ### Whole runs -/

/-- At a step of a run, doing right and being in order are the same. -/
theorem served_iff_inOrder (hr : (machine parse).Reach h s)
    (hstep : (machine parse).step s e = some (s', o)) :
    Served h s e o s' ↔ InOrder h s e o s' := by
  have hinv := inv_of_reach hr
  obtain hc := step_cases hstep
  cases hc with
  | refused hget =>
    constructor
    -- a refused `GET` found no result, so the order asks nothing of it
    · intro _ u he hmem hne
      rcases hget u he with rfl | hnot | hnil
      · exact absurd hmem (nil_notMem_of_reach hr)
      · exact absurd hmem hnot
      · exact absurd hnil hne
    · intro _
      refine ⟨fun u json _ ho => ?_, fun u hmem hnot => absurd hmem hnot⟩
      cases ho
  | accepted =>
    constructor
    · intro _ u he
      cases he
    · intro _
      refine ⟨fun u json he => (by cases he), fun u hmem hnot => ?_⟩
      exact absurd (Finset.mem_insert_of_mem hmem) hnot
  | @delivered u task q hmem hpop =>
    have hown := ownResult_pop_iff hinv hpop
    have hold := oldest_of_pop hinv hpop
    constructor
    -- what is handed out is the oldest result, whoever asks
    · intro hserved v he _ _
      obtain rfl : u = v := Event.get.inj he
      have htask := (hown u).mp (hserved.1 u _ rfl rfl)
      rw [hold]
      exact congrArg some htask
    · intro horder
      have hne : s.outQ.items ≠ [] := by
        rw [Fifo.pop?_eq_some hpop]
        exact List.cons_ne_nil _ _
      have htask := horder u rfl hmem hne
      rw [hold] at htask
      have howner := (hown u).mpr (Option.some.inj htask)
      refine ⟨fun v json he ho => ?_, fun v hv hnot => ?_⟩
      · cases he
        cases ho
        exact howner
      · -- `erase` removes `u` alone
        have hvu : v = u := by
          by_contra hvu
          exact hnot (Finset.mem_erase_of_ne_of_mem hvu hv)
        subst hvu
        exact ⟨_, List.mem_append_right _ (List.mem_singleton_self _), howner⟩
  | taken =>
    constructor
    · intro _ u he
      cases he
    · intro _
      exact ⟨fun u json he => (by cases he), fun u hmem hnot => absurd hmem hnot⟩
  | finished =>
    constructor
    · intro _ u he
      cases he
    · intro _
      exact ⟨fun u json he => (by cases he), fun u hmem hnot => absurd hmem hnot⟩

/-- **Results go to their own task exactly in ordered runs.** Whatever the clients
and the worker do and in whatever order: every step of the run does right if and only
if every `GET` that finds a finished result asks for the oldest accepted task whose
result was not handed out. -/
theorem results_own_iff (parse : Bytes → Option CJson) (h : History) :
    (machine parse).Always Served h ↔ (machine parse).Always InOrder h :=
  Machine.always_congr (fun _ _ _ _ _ hr hstep => served_iff_inOrder hr hstep) h

/-! ### A client that asks out of order -/

/-- The document of a task over one server. -/
def sampleBody (uuid : String) : Bytes :=
  ascii ("\x7b\"uuid\":\"" ++ uuid ++ "\",\"servers\":[\x7b\"center\":\"m1\"," ++
    "\"host\":\"localhost\",\"user\":\"admin\",\"password\":\"admin\",\"port\":8091," ++
    "\"standard\":true,\"path_to_compare\":\"/tmp\",\"base_dir\":\"/\"\x7d]\x7d")

/-- The bytes of the document, literal by literal. -/
private theorem sampleBody_eq (uuid : String) :
    sampleBody uuid =
      ascii "\x7b\"uuid\":\"" ++ ascii uuid ++ ascii "\",\"servers\":[\x7b\"center\":\"m1\"," ++
        ascii "\"host\":\"localhost\",\"user\":\"admin\",\"password\":\"admin\",\"port\":8091," ++
        ascii "\"standard\":true,\"path_to_compare\":\"/tmp\",\"base_dir\":\"/\"\x7d]\x7d" := by
  simp only [sampleBody, ascii_append, List.append_assoc]

/-- Its tree. -/
def sampleTree (uuid : String) : CJson :=
  .object [(ascii "uuid", .string (ascii uuid)),
    (ascii "servers", .array [.object [(ascii "center", .string (ascii "m1")),
      (ascii "host", .string (ascii "localhost")), (ascii "user", .string (ascii "admin")),
      (ascii "password", .string (ascii "admin")), (ascii "port", .number 8091 (.fin 8091)),
      (ascii "standard", .true), (ascii "path_to_compare", .string (ascii "/tmp")),
      (ascii "base_dir", .string (ascii "/"))]])]

/-- `cJSON_Parse` on the two documents of the run below. -/
def sampleParse (body : Bytes) : Option CJson :=
  if body = sampleBody "a" then some (sampleTree "a")
  else if body = sampleBody "b" then some (sampleTree "b")
  else none

/-- Tasks `a` and `b` are posted and the worker finishes `a`. -/
def sampleEvents : List Event :=
  [.post ⟨ascii "a", .APPLICATION_JSON, sampleBody "a"⟩,
    .post ⟨ascii "b", .APPLICATION_JSON, sampleBody "b"⟩, .take, .finish ⟨.S_SUCCESS, []⟩]

/-- Asked for `b` then, the service answers with the result of `a`. -/
theorem not_served_second :
    ¬ ∀ (parse : Bytes → Option CJson) (h : History) (s : Service),
      (machine parse).Reach h s → (machine parse).Always Served h := by
  intro hall
  have hrun : ((machine sampleParse).run? sampleEvents).any (fun r =>
      decide ((finished r.1).map DcApiTask.taskUuid = [ascii "a"] ∧
        ascii "b" ∈ r.2.taskUuidSet ∧ r.2.outQ.items.length = 1)) = true := by
    have hparse : sampleParse = fun body =>
        if body = sampleBody "a" then some (sampleTree "a")
        else if body = sampleBody "b" then some (sampleTree "b")
        else none := rfl
    rw [hparse]
    simp only [sampleEvents, sampleBody_eq]
    decide +kernel
  obtain ⟨h, s, hr, hcheck⟩ := Machine.exists_reach_of_run? hrun
  obtain ⟨hfin, hmem, hlen⟩ := of_decide_eq_true hcheck
  obtain ⟨task, q, hpop⟩ : ∃ task q, s.outQ.pop? = some (task, q) := by
    cases hpop : s.outQ.pop? with
    | none => simp [Fifo.pop?_eq_none_iff.mp hpop] at hlen
    | some r => exact ⟨r.1, r.2, rfl⟩
  have hinv := inv_of_reach hr
  have hstep : (machine sampleParse).step s (.get (ascii "b")) =
      some ({ s with outQ := q, taskUuidSet := s.taskUuidSet.erase (ascii "b") },
        .reply (.delivered task.compareResultJson)) := by
    have hne : ascii "b" ≠ [] := by decide
    simp [machine, step, getTask, get, hne, hmem, hpop]
  have hserved := ((Machine.always_snoc hr hstep).mp
    (hall _ _ _ (hr.snoc hstep))).2
  -- the result belongs to `b` only if a finished task has this uuid
  have huuid := (ownResult_pop_iff hinv hpop _).mp (hserved.1 _ _ rfl rfl)
  have hmem' : task ∈ finished h :=
    hinv.waiting task (by rw [Fifo.pop?_eq_some hpop]; exact List.mem_cons_self)
  have hone : task.taskUuid ∈ (finished h).map DcApiTask.taskUuid :=
    List.mem_map_of_mem hmem'
  rw [hfin, huuid, List.mem_singleton] at hone
  exact absurd hone (by decide)

end Wfrest.Service
