import Mathlib.Data.Fin.VecNotation
import Mathlib.Data.Fintype.Card
import Mathlib.Data.List.DropRight
import Wfrest.Compare.Internal
import Wfrest.Lib.Run

/-!
# Polling the contents

`exe_sql_job_for_single_item_dir1` sends a list of directories to all contents, and then
asks them in rounds until each has given an answer other than `E_DC_CONTENT_RETRY`. Here an
iteration of its loops is a step, and between two of them any message may arrive, in any
order. The lists of a job are sent to the same contents one after the other.

The counter and the indexes are `int`s. With fewer than `2 ^ 31` contents every content is
asked until its final answer and not again, whatever it answers (`polledOnce`). So a
`dc_content_remote_t` is never asked in `DIR_LIST_STATUS_OVER`. With more contents the
counter is wrong (`not_counted_overflow`).
-/

namespace Wfrest

/-- A `dc_content_t`, as far as lists of directories are concerned. -/
inductive DirContent where
  /-- `dc_content_local_t`, with its `ret_q_`. -/
  | localThread (retQ : List DcCommonCode)
  /-- `dc_content_remote_t` -/
  | remote (c : ContentRemote)
  /-- Any other one. What it answers comes with the events. -/
  | other

/-- What arrives at a content. -/
inductive Delivery where
  /-- An answer of the worker of a local content, or the code of a `POST`. -/
  | code (code : DcCommonCode)
  /-- The body of the answer to a `GET`. -/
  | body (json : Json)

namespace DirContent

/-- `do_dir_list_attr` -/
def doDirListAttr (code : DcCommonCode) : DirContent → DirContent × DcCommonCode
  | .localThread retQ => (.localThread retQ, .S_SUCCESS)
  | .remote c =>
    (.remote { c with attrList := [], getDirListStatus := .DIR_LIST_STATUS_INIT }, .S_SUCCESS)
  | .other => (.other, code)

/-- `get_dir_list_attr` -/
def getDirListAttr (code : DcCommonCode) : DirContent → Except Fault (DirContent × DcCommonCode)
  | .localThread [] => .ok (.localThread [], .E_DC_CONTENT_RETRY)
  | .localThread (ret :: retQ) =>
    .ok (.localThread retQ, if logCheckErr ret then ret else .S_SUCCESS)
  | .remote c => do
    let (c, ret) ← c.getDirListAttr
    return (.remote c, ret)
  | .other => .ok (.other, code)

/-- The worker of a local content writes to `ret_q_`, and the callbacks of a remote one to
`dir_list_out_q_`. -/
def deliver : DirContent → Delivery → Option DirContent
  | .localThread retQ, .code ret => some (.localThread (retQ ++ [ret]))
  | .remote c, .code ret => some (.remote { c with dirListOutQ := c.dirListOutQ ++ [ret] })
  | .remote c, .body json => (c.httpGetCallback json).toOption.map .remote
  | _, _ => none

/-- It must not be asked: `DIR_LIST_STATUS_OVER`. -/
def IsOver : DirContent → Prop
  | .remote c => c.getDirListStatus = .DIR_LIST_STATUS_OVER
  | .localThread _ | .other => False

theorem not_isOver_doDirListAttr (d : DirContent) (code : DcCommonCode) :
    ¬ (d.doDirListAttr code).1.IsOver := by
  cases d with
  | localThread | other => exact id
  | remote c => exact nofun

/-- A remote content that is over after a call has just succeeded. -/
theorem remote_eq_success {c c' : ContentRemote} {ret : DcCommonCode}
    (h : c.getDirListAttr = .ok (c', ret)) (hover : c'.getDirListStatus = .DIR_LIST_STATUS_OVER) :
    ret = .S_SUCCESS := by
  unfold ContentRemote.getDirListAttr at h
  split at h
  · cases h
  next hne =>
    obtain ⟨rfl, -⟩ := Prod.mk.inj (Except.ok.inj h)
    exact absurd hover hne
  next hstatus _ =>
    split at h
    · obtain ⟨rfl, -⟩ := Prod.mk.inj (Except.ok.inj h)
      exact absurd (hstatus.symm.trans hover) nofun
    · obtain ⟨rfl, -⟩ := Prod.mk.inj (Except.ok.inj h)
      cases hover
  next hstatus _ =>
    split at h
    · obtain ⟨rfl, -⟩ := Prod.mk.inj (Except.ok.inj h)
      exact absurd (hstatus.symm.trans hover) nofun
    split at h
    · obtain ⟨rfl, -⟩ := Prod.mk.inj (Except.ok.inj h)
      exact absurd (hstatus.symm.trans hover) nofun
    -- only behind the body does the status change, and then the code is fixed
    obtain ⟨⟨code, attrs⟩, -, h⟩ := bind_eq_ok.mp h
    change (if code ≠ .S_SUCCESS then _ else _) = _ at h
    split at h
    · obtain ⟨rfl, -⟩ := Prod.mk.inj (Except.ok.inj h)
      exact absurd (hstatus.symm.trans hover) nofun
    · exact (Prod.mk.inj (Except.ok.inj h)).2.symm

/-- A content that is over after a call has just succeeded. -/
theorem eq_success_of_isOver {d d' : DirContent} {code ret : DcCommonCode}
    (h : d.getDirListAttr code = .ok (d', ret)) (hover : d'.IsOver) : ret = .S_SUCCESS := by
  cases d with
  | localThread retQ =>
    cases retQ with
    -- only a remote content is ever over
    | nil | cons =>
      obtain ⟨rfl, -⟩ := Prod.mk.inj (Except.ok.inj h)
      exact absurd hover id
  | other =>
    obtain ⟨rfl, -⟩ := Prod.mk.inj (Except.ok.inj h)
    exact absurd hover id
  | remote c =>
    obtain ⟨⟨c', ret'⟩, hget, heq⟩ := bind_eq_ok.mp h
    obtain ⟨rfl, rfl⟩ := Prod.mk.inj (Except.ok.inj heq)
    exact remote_eq_success hget hover

/-- What arrives does not make a content over. -/
theorem isOver_of_deliver {d d' : DirContent} {x : Delivery} (h : d.deliver x = some d')
    (hover : d'.IsOver) : d.IsOver := by
  cases d with
  | localThread retQ =>
    cases x with
    | code ret =>
      obtain rfl := Option.some.inj h
      exact hover
    | body json => cases h
  | other => cases x <;> cases h
  | remote c =>
    cases x with
    | code ret =>
      obtain rfl := Option.some.inj h
      exact hover
    | body json =>
      -- the callback writes the body and the queue, not the status
      obtain ⟨c', hc', rfl⟩ := Option.map_eq_some_iff.mp h
      obtain ⟨code, -, heq⟩ := bind_eq_ok.mp (toOption_eq_some.mp hc')
      obtain rfl := Except.ok.inj heq
      exact hover

end DirContent

/-! ### The loops -/

namespace Polling

variable {n : Nat}

/-- What a step shows. -/
inductive Note (n : Nat) where
  | batch
  /-- `do_dir_list_attr` has returned. -/
  | started (j : Fin n) (ret : DcCommonCode)
  /-- A round of the loop begins. -/
  | round
  | skipped
  /-- `get_dir_list_attr` has returned. -/
  | answered (j : Fin n) (ret : DcCommonCode)
  | endOfList
  | exited
  | delivered
  deriving DecidableEq

inductive Event (n : Nat) where
  /-- The function is called. -/
  | batch
  /-- The next iteration. A content that is called answers `code` if it is none of the two
  that are known. -/
  | next (code : DcCommonCode)
  | deliver (j : Fin n) (x : Delivery)

/-- Where the function is. -/
inductive Phase where
  | idle
  /-- At the head of the first loop. -/
  | starting (i : Int)
  /-- At the head of the `while` loop. -/
  | check
  /-- At the head of the loop in it. -/
  | polling (i : Int)
  | finished

end Polling

/-- The variables of `exe_sql_job_for_single_item_dir1`, with the contents. -/
structure Polling (n : Nat) where
  contents : Fin n → DirContent
  hasDone : Fin n → Bool
  hasFailed : Fin n → DcCommonCode
  hasDoneCnt : Int
  phase : Polling.Phase

namespace Polling

variable {n : Nat}

/-- The content `j` is done. -/
def finish (s : Polling n) (j : Fin n) (ret : DcCommonCode) : Polling n :=
  { s with
    hasDone := Function.update s.hasDone j true
    hasFailed := if ret ≠ .S_SUCCESS then Function.update s.hasFailed j ret else s.hasFailed
    hasDoneCnt := toInt (s.hasDoneCnt + 1) }

/-- A call on the content `j` has returned. The content is done unless it returned `goesOn`. -/
def called (s : Polling n) (j : Fin n) (goesOn : DcCommonCode) (r : DirContent × DcCommonCode) :
    Polling n :=
  let s := { s with contents := Function.update s.contents j r.1 }
  if r.2 = goesOn then s else s.finish j r.2

/-- The function is called. `t_server_info_arr` is as long as the list of contents. -/
def begin (stdIdx : Int) (s : Polling n) : Option (Polling n × Note n) :=
  if 0 ≤ stdIdx ∧ stdIdx < toInt n then
    some
      ({ s with
          hasDone := fun _ => false
          hasFailed := fun _ => .S_SUCCESS
          hasDoneCnt := 0
          phase := .starting 0 }, .batch)
  else none

/-- An iteration of the first loop. -/
def start (s : Polling n) (code : DcCommonCode) (j : Fin n) : Polling n × Note n :=
  let r := (s.contents j).doDirListAttr code
  (s.called j .S_SUCCESS r, .started j r.2)

/-- An iteration of the loop in the `while` loop. -/
def poll (s : Polling n) (code : DcCommonCode) (j : Fin n) : Option (Polling n × Note n) :=
  if s.hasDone j then some (s, .skipped)
  else ((s.contents j).getDirListAttr code).toOption.map fun r =>
    (s.called j .E_DC_CONTENT_RETRY r, .answered j r.2)

/-- The next iteration. -/
def next (s : Polling n) (code : DcCommonCode) : Option (Polling n × Note n) :=
  match s.phase with
  | .idle | .finished => none
  | .starting i =>
    if h : toSize i < n then
      some ({ s with phase := .starting (toInt (i + 1)) }.start code ⟨toSize i, h⟩)
    else some ({ s with phase := .check }, .endOfList)
  | .check =>
    if toSize s.hasDoneCnt < n then some ({ s with phase := .polling 0 }, .round)
    else some ({ s with phase := .finished }, .exited)
  | .polling i =>
    if h : toSize i < n then
      { s with phase := .polling (toInt (i + 1)) }.poll code ⟨toSize i, h⟩
    else some ({ s with phase := .check }, .endOfList)

/-- One step. -/
def step (stdIdx : Int) (s : Polling n) : Event n → Option (Polling n × Note n)
  | .batch =>
    match s.phase with
    | .idle | .finished => s.begin stdIdx
    | _ => none
  | .next code => s.next code
  | .deliver j x => ((s.contents j).deliver x).map fun d =>
    ({ s with contents := Function.update s.contents j d }, .delivered)

/-- The contents before the first list. -/
def fresh (contents : Fin n → DirContent) : Polling n where
  contents := contents
  hasDone := fun _ => false
  hasFailed := fun _ => .S_SUCCESS
  hasDoneCnt := 0
  phase := .idle

/-- The lists of a job, with `t_std_idx`. -/
def machine (stdIdx : Int) (contents : Fin n → DirContent) :
    Machine (Polling n) (Event n) (Note n) :=
  ⟨fresh contents, step stdIdx⟩

/-- The next iteration calls `get_dir_list_attr` of the content `j`. -/
def Asks (s : Polling n) (j : Fin n) : Prop :=
  ∃ i, s.phase = .polling i ∧ toSize i = j ∧ s.hasDone j = false

/-! ### What happened since the function was called -/

/-- The steps since then. -/
def thisBatch (h : List (Event n × Note n)) : List (Note n) :=
  (h.map Prod.snd).rtakeWhile (· ≠ .batch)

/-- The codes of `j` after which it is done. -/
def finals (j : Fin n) (os : List (Note n)) : List DcCommonCode :=
  os.filterMap fun
    | .started j' ret => if j' = j ∧ ret ≠ .S_SUCCESS then some ret else none
    | .answered j' ret => if j' = j ∧ ret ≠ .E_DC_CONTENT_RETRY then some ret else none
    | _ => none

/-- How often `j` has answered `E_DC_CONTENT_RETRY`. -/
def retries (j : Fin n) (os : List (Note n)) : Nat := os.count (.answered j .E_DC_CONTENT_RETRY)

/-- The rounds of the `while` loop. -/
def rounds (os : List (Note n)) : Nat := os.count .round

/-- The iterations of the loops. -/
def steps (os : List (Note n)) : Nat := os.countP (· ≠ .delivered)

/-! ### One step -/

variable {stdIdx : Int} {h : List (Event n × Note n)} {s s' : Polling n} {e : Event n}
  {o : Note n}

/-- What one step can do. -/
inductive StepCase (stdIdx : Int) (s : Polling n) : Event n → Note n → Polling n → Prop
  | batch (hphase : s.phase = .idle ∨ s.phase = .finished) :
      StepCase stdIdx s .batch .batch
        { s with
          hasDone := fun _ => false
          hasFailed := fun _ => .S_SUCCESS
          hasDoneCnt := 0
          phase := .starting 0 }
  | started {code : DcCommonCode} {i : Int} {j : Fin n} (hphase : s.phase = .starting i)
      (hj : toSize i = j) :
      StepCase stdIdx s (.next code) (.started j ((s.contents j).doDirListAttr code).2)
        ({ s with phase := .starting (toInt (i + 1)) }.called j .S_SUCCESS
          ((s.contents j).doDirListAttr code))
  | startEnd {code : DcCommonCode} {i : Int} (hphase : s.phase = .starting i)
      (hi : ¬ toSize i < n) :
      StepCase stdIdx s (.next code) .endOfList { s with phase := .check }
  | round {code : DcCommonCode} (hphase : s.phase = .check) (hcnt : toSize s.hasDoneCnt < n) :
      StepCase stdIdx s (.next code) .round { s with phase := .polling 0 }
  | exited {code : DcCommonCode} (hphase : s.phase = .check) (hcnt : ¬ toSize s.hasDoneCnt < n) :
      StepCase stdIdx s (.next code) .exited { s with phase := .finished }
  | skipped {code : DcCommonCode} {i : Int} {j : Fin n} (hphase : s.phase = .polling i)
      (hj : toSize i = j) (hdone : s.hasDone j = true) :
      StepCase stdIdx s (.next code) .skipped { s with phase := .polling (toInt (i + 1)) }
  | answered {code : DcCommonCode} {i : Int} {j : Fin n} {r : DirContent × DcCommonCode}
      (hphase : s.phase = .polling i) (hj : toSize i = j) (hdone : s.hasDone j = false)
      (hget : (s.contents j).getDirListAttr code = .ok r) :
      StepCase stdIdx s (.next code) (.answered j r.2)
        ({ s with phase := .polling (toInt (i + 1)) }.called j .E_DC_CONTENT_RETRY r)
  | pollEnd {code : DcCommonCode} {i : Int} (hphase : s.phase = .polling i)
      (hi : ¬ toSize i < n) :
      StepCase stdIdx s (.next code) .endOfList { s with phase := .check }
  | delivered {j : Fin n} {x : Delivery} {d : DirContent} (hd : (s.contents j).deliver x = some d) :
      StepCase stdIdx s (.deliver j x) .delivered
        { s with contents := Function.update s.contents j d }

private theorem next_cases {code : DcCommonCode} (hnext : s.next code = some (s', o)) :
    StepCase stdIdx s (.next code) o s' := by
  -- one case for each place, in the order of the source: first loop, `while`, inner loop
  unfold next at hnext
  split at hnext
  · cases hnext
  · cases hnext
  next i hphase =>
    split at hnext
    next hi =>
      obtain ⟨rfl, rfl⟩ := Prod.mk.inj (Option.some.inj hnext)
      exact .started hphase rfl
    next hi =>
      obtain ⟨rfl, rfl⟩ := Prod.mk.inj (Option.some.inj hnext)
      exact .startEnd hphase hi
  next hphase =>
    split at hnext
    next hcnt =>
      obtain ⟨rfl, rfl⟩ := Prod.mk.inj (Option.some.inj hnext)
      exact .round hphase hcnt
    next hcnt =>
      obtain ⟨rfl, rfl⟩ := Prod.mk.inj (Option.some.inj hnext)
      exact .exited hphase hcnt
  next i hphase =>
    split at hnext
    next hi =>
      unfold poll at hnext
      split at hnext
      next hdone =>
        obtain ⟨rfl, rfl⟩ := Prod.mk.inj (Option.some.inj hnext)
        exact .skipped hphase rfl hdone
      next hdone =>
        obtain ⟨r, hget, heq⟩ := Option.map_eq_some_iff.mp hnext
        obtain ⟨rfl, rfl⟩ := Prod.mk.inj heq
        exact .answered hphase rfl (Bool.eq_false_of_not_eq_true hdone) (toOption_eq_some.mp hget)
    next hi =>
      obtain ⟨rfl, rfl⟩ := Prod.mk.inj (Option.some.inj hnext)
      exact .pollEnd hphase hi

/-- **Inversion.** Every step is an iteration of a loop, a call of the function or the
arrival of something. -/
theorem step_cases (hstep : s.step stdIdx e = some (s', o)) : StepCase stdIdx s e o s' := by
  cases e with
  | batch =>
    -- the function is called when it is not running
    have hbegin : ∀ {p : Phase}, s.phase = p → p = .idle ∨ p = .finished →
        s.begin stdIdx = some (s', o) → StepCase stdIdx s .batch o s' := by
      intro p hp hor hbegin
      unfold begin at hbegin
      split at hbegin
      · obtain ⟨rfl, rfl⟩ := Prod.mk.inj (Option.some.inj hbegin)
        exact .batch (hp ▸ hor)
      · cases hbegin
    unfold step at hstep
    dsimp only at hstep
    split at hstep
    next hphase => exact hbegin hphase (.inl rfl) hstep
    next hphase => exact hbegin hphase (.inr rfl) hstep
    · cases hstep
  | next code => exact next_cases hstep
  | deliver j x =>
    obtain ⟨d, hd, heq⟩ := Option.map_eq_some_iff.mp hstep
    obtain ⟨rfl, rfl⟩ := Prod.mk.inj heq
    exact .delivered hd

/-! The fields after a call. -/

section Called

variable {j k : Fin n} {goesOn : DcCommonCode} {r : DirContent × DcCommonCode}

@[simp] theorem contents_called :
    (s.called j goesOn r).contents = Function.update s.contents j r.1 := by
  unfold called
  split <;> rfl

@[simp] theorem phase_called : (s.called j goesOn r).phase = s.phase := by
  unfold called
  split <;> rfl

theorem called_of_eq (heq : r.2 = goesOn) : s.called j goesOn r =
    { s with contents := Function.update s.contents j r.1 } := if_pos heq

theorem called_of_ne (hne : r.2 ≠ goesOn) : s.called j goesOn r =
    { s with contents := Function.update s.contents j r.1 }.finish j r.2 := if_neg hne

theorem hasDone_called_of_ne (hk : k ≠ j) : (s.called j goesOn r).hasDone k = s.hasDone k := by
  unfold called
  split
  · rfl
  · exact Function.update_of_ne hk _ _

/-- A content that is not done after its call has returned `goesOn`. -/
theorem eq_goesOn (hdone : (s.called j goesOn r).hasDone j = false) : r.2 = goesOn := by
  by_contra hne
  rw [called_of_ne hne] at hdone
  change Function.update s.hasDone j true j = false at hdone
  rw [Function.update_self] at hdone
  cases hdone

end Called

/-! The lists grow with the steps. -/

theorem thisBatch_concat (h : List (Event n × Note n)) (e : Event n) (ho : o ≠ .batch) :
    thisBatch (h ++ [(e, o)]) = thisBatch h ++ [o] := by
  unfold thisBatch
  rw [List.map_append, List.map_singleton]
  exact List.rtakeWhile_concat_pos _ _ _ (by simpa using ho)

theorem thisBatch_batch (h : List (Event n × Note n)) (e : Event n) :
    thisBatch (h ++ [(e, .batch)]) = [] := by
  unfold thisBatch
  rw [List.map_append, List.map_singleton]
  exact List.rtakeWhile_concat_neg _ _ _ (by simp)

theorem finals_concat (j : Fin n) (os : List (Note n)) (o : Note n) :
    finals j (os ++ [o]) = finals j os ++ finals j [o] := List.filterMap_append

theorem retries_concat (j : Fin n) (os : List (Note n)) (o : Note n) :
    retries j (os ++ [o]) = retries j os + retries j [o] := List.count_append

theorem rounds_concat (os : List (Note n)) (o : Note n) :
    rounds (os ++ [o]) = rounds os + rounds [o] := List.count_append

theorem steps_concat (os : List (Note n)) (o : Note n) :
    steps (os ++ [o]) = steps os + steps [o] := List.countP_append

theorem finals_started (j k : Fin n) (ret : DcCommonCode) :
    finals k [.started j ret] = if j = k ∧ ret ≠ .S_SUCCESS then [ret] else [] := by
  by_cases hret : j = k ∧ ret ≠ .S_SUCCESS
  · rw [if_pos hret]
    exact List.filterMap_cons_some (if_pos hret)
  · rw [if_neg hret]
    exact List.filterMap_cons_none (if_neg hret)

theorem finals_answered (j k : Fin n) (ret : DcCommonCode) :
    finals k [.answered j ret] = if j = k ∧ ret ≠ .E_DC_CONTENT_RETRY then [ret] else [] := by
  by_cases hret : j = k ∧ ret ≠ .E_DC_CONTENT_RETRY
  · rw [if_pos hret]
    exact List.filterMap_cons_some (if_pos hret)
  · rw [if_neg hret]
    exact List.filterMap_cons_none (if_neg hret)

theorem retries_answered (j k : Fin n) (ret : DcCommonCode) :
    retries k [.answered j ret] = if j = k ∧ ret = .E_DC_CONTENT_RETRY then 1 else 0 := by
  unfold retries
  rw [List.count_singleton]
  simp

/-! ### The flags, the codes and the counter -/

/-- What the variables say about the batch so far. -/
structure Settled (os : List (Note n)) (s : Polling n) : Prop where
  count : s.hasDoneCnt = (Finset.univ.filter fun j => s.hasDone j = true).card
  finals : ∀ j, finals j os = if s.hasDone j then [s.hasFailed j] else []
  waiting : ∀ j, s.hasDone j = false → s.hasFailed j = .S_SUCCESS

/-- A step that only moves on. -/
theorem Settled.note {os : List (Note n)} (hs : Settled os s) (ho : ∀ j, Polling.finals j [o] = [])
    (hdone : s'.hasDone = s.hasDone) (hfailed : s'.hasFailed = s.hasFailed)
    (hcnt : s'.hasDoneCnt = s.hasDoneCnt) : Settled (os ++ [o]) s' where
  count := by
    rw [hcnt, hdone]
    exact hs.count
  finals j := by
    rw [finals_concat, ho, List.append_nil, hdone, hfailed]
    exact hs.finals j
  waiting j := by
    rw [hdone, hfailed]
    exact hs.waiting j

theorem Settled.inPhase {os : List (Note n)} (hs : Settled os s) (p : Phase) :
    Settled os { s with phase := p } := ⟨hs.count, hs.finals, hs.waiting⟩

/-- The content that gets done was not counted before. -/
theorem card_finish {f : Fin n → Bool} {j : Fin n} (hj : f j = false) :
    (Finset.univ.filter fun k => Function.update f j true k = true).card =
      (Finset.univ.filter fun k => f k = true).card + 1 := by
  have hset : (Finset.univ.filter fun k => Function.update f j true k = true) =
      insert j (Finset.univ.filter fun k => f k = true) := by
    ext k
    by_cases hk : k = j
    · subst hk
      simp
    · simp [hk]
  rw [hset, Finset.card_insert_of_notMem]
  simp [hj]

/-- A final answer. -/
theorem Settled.finish {os : List (Note n)} (hn : n < 2 ^ 31) (hs : Settled os s) {j : Fin n}
    {ret : DcCommonCode} (hdone : s.hasDone j = false) (hself : Polling.finals j [o] = [ret])
    (hother : ∀ k, k ≠ j → Polling.finals k [o] = []) :
    Settled (os ++ [o]) (s.finish j ret) where
  count := by
    have hcard := card_finish hdone
    have hle : (Finset.univ.filter fun k => Function.update s.hasDone j true k = true).card ≤ n :=
      (Finset.card_le_univ _).trans_eq (Fintype.card_fin n)
    change toInt (s.hasDoneCnt + 1) =
      (Finset.univ.filter fun k => Function.update s.hasDone j true k = true).card
    -- at most `n` contents are counted, so the `int` does not overflow
    rw [hs.count, ← Nat.cast_succ, Nat.succ_eq_add_one, ← hcard]
    exact toInt_of_lt (hle.trans_lt hn)
  finals k := by
    rw [finals_concat, hs.finals k]
    by_cases hk : k = j
    · subst hk
      change _ = if Function.update s.hasDone k true k then
        [(if ret ≠ .S_SUCCESS then Function.update s.hasFailed k ret else s.hasFailed) k] else []
      rw [hself, hdone, Function.update_self]
      by_cases hret : ret = .S_SUCCESS
      · -- a success is not written: it is there from the start
        rw [if_neg (not_not.mpr hret), hs.waiting k hdone, hret]
        rfl
      · rw [if_pos hret, Function.update_self]
        rfl
    · change _ = if Function.update s.hasDone j true k then
        [(if ret ≠ .S_SUCCESS then Function.update s.hasFailed j ret else s.hasFailed) k] else []
      rw [hother k hk, List.append_nil, Function.update_of_ne hk]
      by_cases hret : ret = .S_SUCCESS
      · rw [if_neg (not_not.mpr hret)]
      · rw [if_pos hret, Function.update_of_ne hk]
  waiting k := by
    change Function.update s.hasDone j true k = false →
      (if ret ≠ .S_SUCCESS then Function.update s.hasFailed j ret else s.hasFailed) k = _
    intro hk
    have hne : k ≠ j := by
      rintro rfl
      rw [Function.update_self] at hk
      cases hk
    rw [Function.update_of_ne hne] at hk
    by_cases hret : ret = .S_SUCCESS
    · rw [if_neg (not_not.mpr hret)]
      exact hs.waiting k hk
    · rw [if_pos hret, Function.update_of_ne hne]
      exact hs.waiting k hk

/-- A call. -/
theorem Settled.called {os : List (Note n)} (hn : n < 2 ^ 31) (hs : Settled os s) {j : Fin n}
    {goesOn : DcCommonCode} {r : DirContent × DcCommonCode} (hdone : s.hasDone j = false)
    (ho : ∀ k, Polling.finals k [o] = if j = k ∧ r.2 ≠ goesOn then [r.2] else []) :
    Settled (os ++ [o]) (s.called j goesOn r) := by
  by_cases hret : r.2 = goesOn
  · rw [called_of_eq hret]
    refine hs.note (fun k => ?_) rfl rfl rfl
    rw [ho, if_neg fun hk => hk.2 hret]
  · rw [called_of_ne hret]
    have hs' : Settled os { s with contents := Function.update s.contents j r.1 } :=
      ⟨hs.count, hs.finals, hs.waiting⟩
    refine hs'.finish hn hdone ?_ fun k hk => ?_
    · rw [ho, if_pos ⟨rfl, hret⟩]
    · rw [ho, if_neg fun hk' => hk hk'.1.symm]

/-! ### The contents that are not done -/

/-- None of them must not be asked. -/
def Askable (s : Polling n) : Prop := ∀ j, s.hasDone j = false → ¬ (s.contents j).IsOver

theorem Askable.called {j : Fin n} {goesOn : DcCommonCode} {r : DirContent × DcCommonCode}
    (hs : ∀ k, k ≠ j → s.hasDone k = false → ¬ (s.contents k).IsOver)
    (hr : r.2 = goesOn → ¬ r.1.IsOver) : Askable (s.called j goesOn r) := by
  intro k hk
  rw [contents_called]
  by_cases hkj : k = j
  · subst hkj
    rw [Function.update_self]
    exact hr (eq_goesOn hk)
  · rw [Function.update_of_ne hkj]
    rw [hasDone_called_of_ne hkj] at hk
    exact hs k hkj hk

/-- The first loop, before its iteration `i`. -/
structure StartingInv (os : List (Note n)) (s : Polling n) (i : Int) : Prop where
  nonneg : 0 ≤ i
  le : i ≤ n
  askable : ∀ j : Fin n, (j : Int) < i → s.hasDone j = false → ¬ (s.contents j).IsOver
  untouched : ∀ j : Fin n, i ≤ j → s.hasDone j = false
  retries : ∀ j, retries j os = 0
  rounds : rounds os = 0
  steps : (steps os : Int) = i

/-- The head of the `while` loop. -/
structure CheckInv (os : List (Note n)) (s : Polling n) : Prop where
  askable : Askable s
  retries : ∀ j, s.hasDone j = false → retries j os = rounds os
  steps : steps os + 1 = (rounds os + 1) * (n + 2)

/-- The loop in it, before its iteration `i`. -/
structure PollingInv (os : List (Note n)) (s : Polling n) (i : Int) : Prop where
  nonneg : 0 ≤ i
  le : i ≤ n
  askable : Askable s
  retries : ∀ j : Fin n, s.hasDone j = false →
    retries j os + 1 = rounds os + if (j : Int) < i then 1 else 0
  steps : (steps os : Int) = (rounds os * (n + 2) : Nat) + i

/-- What holds where the function is. -/
def PhaseInv (os : List (Note n)) (s : Polling n) : Phase → Prop
  | .idle => steps os = 0
  | .starting i => StartingInv os s i
  | .check => CheckInv os s
  | .polling i => PollingInv os s i
  | .finished => (∀ j, s.hasDone j = true) ∧ steps os = (rounds os + 1) * (n + 2)

/-- What the variables and the contents say at any time. -/
structure Inv (h : List (Event n × Note n)) (s : Polling n) : Prop where
  settled : Settled (thisBatch h) s
  phase : PhaseInv (thisBatch h) s s.phase
  rounds_le : ∀ K, (∀ j, retries j (thisBatch h) ≤ K) → rounds (thisBatch h) ≤ K + 1

/-! An index of the loops. -/

theorem toSize_index (hn : n < 2 ^ 31) {i : Int} (h0 : 0 ≤ i) (hi : i ≤ n) :
    (toSize i : Int) = i := toSize_of_nonneg h0 (by omega)

/-- An iteration is about the content with its index, and the next one has the next index. -/
theorem index_spec (hn : n < 2 ^ 31) {i : Int} (h0 : 0 ≤ i) (hle : i ≤ n) {j : Fin n}
    (hj : toSize i = j) : i = j ∧ toInt (i + 1) = j + 1 := by
  have hij : i = j := (toSize_index hn h0 hle).symm.trans (congrArg Nat.cast hj)
  have hlt := j.2
  exact ⟨hij, toInt_eq_of (q := 0) (by omega) (by omega) (by omega)⟩

/-- The first loop calls `do_dir_list_attr` of the content `j`. -/
theorem StartingInv.started {os : List (Note n)} {i : Int} (hs : StartingInv os s i)
    (hn : n < 2 ^ 31) {j : Fin n} (hj : toSize i = j) (p : Phase) (code : DcCommonCode) :
    StartingInv (os ++ [.started j ((s.contents j).doDirListAttr code).2])
      ({ s with phase := p }.called j .S_SUCCESS ((s.contents j).doDirListAttr code))
      (toInt (i + 1)) := by
  obtain ⟨rfl, hnext⟩ := index_spec hn hs.nonneg hs.le hj
  have hlt : (j : Int) < n := Int.ofNat_lt.mpr j.2
  rw [hnext]
  refine ⟨by omega, by omega, fun k hk hdone => ?_, fun k hk => ?_, fun k => ?_, ?_, ?_⟩
  · rw [contents_called]
    by_cases hkj : k = j
    · subst hkj
      rw [Function.update_self]
      exact (s.contents k).not_isOver_doDirListAttr code
    · rw [Function.update_of_ne hkj]
      rw [hasDone_called_of_ne hkj] at hdone
      exact hs.askable k (by omega) hdone
  · have hkj : k ≠ j := by
      rintro rfl
      omega
    rw [hasDone_called_of_ne hkj]
    exact hs.untouched k (by omega)
  · rw [retries_concat, hs.retries k]
    rfl
  · rw [rounds_concat, hs.rounds]
    rfl
  · rw [steps_concat, Nat.cast_add, hs.steps]
    rfl

/-- The last content has got its list. -/
theorem StartingInv.startEnd {os : List (Note n)} {i : Int} (hs : StartingInv os s i)
    (hn : n < 2 ^ 31) (hi : ¬ toSize i < n) :
    CheckInv (os ++ [.endOfList]) { s with phase := .check } := by
  have hself := toSize_index hn hs.nonneg hs.le
  have hin : i = n := by
    have := hs.le
    omega
  have hsteps := hs.steps
  refine ⟨fun j hdone => hs.askable j (by omega) hdone, fun j _ => ?_, ?_⟩
  · rw [retries_concat, hs.retries j, rounds_concat, hs.rounds]
    rfl
  · rw [steps_concat, rounds_concat, hs.rounds]
    change Polling.steps os + 1 + 1 = (0 + 0 + 1) * (n + 2)
    omega

/-- A round begins. -/
theorem CheckInv.round {os : List (Note n)} (hs : CheckInv os s) (p : Phase) :
    PollingInv (os ++ [.round]) { s with phase := p } 0 := by
  have hsteps := hs.steps
  refine ⟨le_rfl, Int.natCast_nonneg n, hs.askable, fun j hdone => ?_, ?_⟩
  · rw [retries_concat, rounds_concat, hs.retries j hdone, if_neg (by omega)]
    rfl
  · rw [steps_concat, rounds_concat, add_zero]
    exact congrArg Nat.cast hsteps

/-- A content that is done is passed over. -/
theorem PollingInv.skipped {os : List (Note n)} {i : Int} (hs : PollingInv os s i)
    (hn : n < 2 ^ 31) {j : Fin n} (hj : toSize i = j) (hdone : s.hasDone j = true) (p : Phase) :
    PollingInv (os ++ [.skipped]) { s with phase := p } (toInt (i + 1)) := by
  obtain ⟨rfl, hnext⟩ := index_spec hn hs.nonneg hs.le hj
  have hlt : (j : Int) < n := Int.ofNat_lt.mpr j.2
  have hsteps := hs.steps
  rw [hnext]
  refine ⟨by omega, by omega, hs.askable, fun k hk => ?_, ?_⟩
  · have hkj : (k : Int) ≠ j := by
      intro hkj
      obtain rfl : k = j := Fin.ext (Int.ofNat_inj.mp hkj)
      exact absurd (hdone.symm.trans hk) nofun
    have hiff : (k : Int) < j + 1 ↔ (k : Int) < j := by omega
    rw [retries_concat, rounds_concat, if_congr hiff rfl rfl]
    exact hs.retries k hk
  · rw [steps_concat, rounds_concat, Nat.cast_add, hsteps, add_assoc]
    rfl

/-- The loop calls `get_dir_list_attr` of the content `j`. -/
theorem PollingInv.answered {os : List (Note n)} {i : Int} (hs : PollingInv os s i)
    (hn : n < 2 ^ 31) {j : Fin n} (hj : toSize i = j) (hdone : s.hasDone j = false) (p : Phase)
    {code : DcCommonCode} {r : DirContent × DcCommonCode}
    (hget : (s.contents j).getDirListAttr code = .ok r) :
    PollingInv (os ++ [.answered j r.2])
      ({ s with phase := p }.called j .E_DC_CONTENT_RETRY r) (toInt (i + 1)) := by
  obtain ⟨rfl, hnext⟩ := index_spec hn hs.nonneg hs.le hj
  have hlt : (j : Int) < n := Int.ofNat_lt.mpr j.2
  have hsteps := hs.steps
  rw [hnext]
  refine ⟨by omega, by omega, ?_, fun k hk => ?_, ?_⟩
  · refine Askable.called (fun k _ => hs.askable k) fun hretry hover => ?_
    have hsuccess := DirContent.eq_success_of_isOver hget hover
    exact absurd (hretry.symm.trans hsuccess) nofun
  -- the round does not change; the content of the iteration has retried once more
  · rw [retries_concat, rounds_concat, retries_answered]
    change _ = Polling.rounds os + 0 + _
    by_cases hkj : k = j
    · -- it is asked again in the next round
      subst hkj
      have hretry := eq_goesOn hk
      have hbefore := hs.retries k hdone
      rw [if_neg (lt_irrefl _)] at hbefore
      rw [if_pos ⟨rfl, hretry⟩, if_pos (by omega)]
      omega
    · rw [hasDone_called_of_ne hkj] at hk
      have hne : (k : Int) ≠ j := fun heq => hkj (Fin.ext (Int.ofNat_inj.mp heq))
      have hiff : (k : Int) < j + 1 ↔ (k : Int) < j := by omega
      rw [if_neg fun hjk => hkj hjk.1.symm, if_congr hiff rfl rfl]
      exact hs.retries k hk
  · rw [steps_concat, rounds_concat, Nat.cast_add, hsteps, add_assoc]
    rfl

/-- The end of a round. -/
theorem PollingInv.pollEnd {os : List (Note n)} {i : Int} (hs : PollingInv os s i)
    (hn : n < 2 ^ 31) (hi : ¬ toSize i < n) (p : Phase) :
    CheckInv (os ++ [.endOfList]) { s with phase := p } := by
  have hself := toSize_index hn hs.nonneg hs.le
  have hin : i = n := by
    have := hs.le
    omega
  have hsteps := hs.steps
  refine ⟨hs.askable, fun j hdone => ?_, ?_⟩
  · have hretries := hs.retries j hdone
    rw [if_pos (by omega)] at hretries
    rw [retries_concat, rounds_concat]
    change Polling.retries j os + 0 = Polling.rounds os + 0
    omega
  · rw [steps_concat, rounds_concat, Nat.succ_mul]
    change Polling.steps os + 1 + 1 = Polling.rounds os * (n + 2) + (n + 2)
    omega

/-! ### Whole runs -/

variable {contents : Fin n → DirContent}

/-- A step that is not the head of the `while` loop keeps the number of rounds. -/
theorem rounds_le_concat {os : List (Note n)}
    (hs : ∀ K, (∀ j, retries j os ≤ K) → rounds os ≤ K + 1) (ho : rounds [o] = 0) (K : Nat)
    (hK : ∀ j, retries j (os ++ [o]) ≤ K) : rounds (os ++ [o]) ≤ K + 1 := by
  rw [rounds_concat, ho]
  refine hs K fun j => ?_
  have := hK j
  rw [retries_concat] at this
  omega

theorem Inv.of_concat (ho : o ≠ .batch) (hsettled : Settled (thisBatch h ++ [o]) s')
    (hphase : PhaseInv (thisBatch h ++ [o]) s' s'.phase)
    (hrounds : ∀ K, (∀ j, retries j (thisBatch h ++ [o]) ≤ K) →
      rounds (thisBatch h ++ [o]) ≤ K + 1) : Inv (h ++ [(e, o)]) s' := by
  constructor <;> rwa [thisBatch_concat h e ho]

/-- A step that begins no round. -/
theorem Inv.move (hs : Inv h s) (ho : o ≠ .batch) (hround : rounds [o] = 0)
    (hsettled : Settled (thisBatch h ++ [o]) s')
    (hphase : PhaseInv (thisBatch h ++ [o]) s' s'.phase) : Inv (h ++ [(e, o)]) s' :=
  .of_concat ho hsettled hphase (rounds_le_concat hs.rounds_le hround)

/-- Something arrives. -/
theorem Inv.delivered (hs : Inv h s) {j : Fin n} {x : Delivery} {d : DirContent}
    (hd : (s.contents j).deliver x = some d) :
    Inv (h ++ [(e, .delivered)]) { s with contents := Function.update s.contents j d } := by
  -- only the content that it arrives at changes
  have hover : ∀ k, (Function.update s.contents j d k).IsOver → (s.contents k).IsOver := by
    intro k hk
    by_cases hkj : k = j
    · subst hkj
      rw [Function.update_self] at hk
      exact DirContent.isOver_of_deliver hd hk
    · rwa [Function.update_of_ne hkj] at hk
  have hretries : ∀ k, retries k (thisBatch h ++ [.delivered]) = retries k (thisBatch h) :=
    fun k => retries_concat k _ _
  have hrounds : rounds (thisBatch h ++ [.delivered]) = rounds (thisBatch h) :=
    rounds_concat _ _
  have hsteps : steps (thisBatch h ++ [.delivered]) = steps (thisBatch h) := steps_concat _ _
  -- nothing is counted, and what is over was over before
  have hphase := hs.phase
  refine hs.move (by simp) rfl ?_ ?_
  · exact hs.settled.note (fun _ => rfl) rfl rfl rfl
  · dsimp only
    generalize s.phase = p at hphase
    cases p with
    | idle => exact hsteps.trans hphase
    | finished => exact ⟨hphase.1, by rw [hsteps, hrounds, hphase.2]⟩
    | starting i =>
      refine ⟨hphase.nonneg, hphase.le, fun k hk hdone hk' => ?_, hphase.untouched, fun k => ?_,
        ?_, ?_⟩
      · exact hphase.askable k hk hdone (hover k hk')
      · rw [hretries, hphase.retries]
      · rw [hrounds, hphase.rounds]
      · rw [hsteps, hphase.steps]
    | check =>
      refine ⟨fun k hdone hk' => hphase.askable k hdone (hover k hk'), fun k hdone => ?_, ?_⟩
      · rw [hretries, hrounds, hphase.retries k hdone]
      · rw [hsteps, hrounds, hphase.steps]
    | polling i =>
      refine ⟨hphase.nonneg, hphase.le, fun k hdone hk' => hphase.askable k hdone (hover k hk'),
        fun k hdone => ?_, ?_⟩
      · rw [hretries, hrounds, hphase.retries k hdone]
      · rw [hsteps, hrounds, hphase.steps]

/-- The loop condition. -/
theorem Settled.lt_iff {os : List (Note n)} (hn : n < 2 ^ 31) (hs : Settled os s) :
    toSize s.hasDoneCnt < n ↔ ∃ j, s.hasDone j = false := by
  have hle : (Finset.univ.filter fun j => s.hasDone j = true).card ≤ n :=
    (Finset.card_le_univ _).trans_eq (Fintype.card_fin n)
  have hself := toSize_index hn (Int.natCast_nonneg _) (Int.ofNat_le.mpr hle)
  rw [hs.count, Int.ofNat_inj.mp hself]
  constructor
  · intro hlt
    by_contra hall
    push Not at hall
    rw [Finset.filter_true_of_mem fun j _ => Bool.eq_true_of_not_eq_false (hall j),
      Finset.card_univ, Fintype.card_fin] at hlt
    exact lt_irrefl _ hlt
  · rintro ⟨j, hj⟩
    -- if all were counted, all would be done
    refine lt_of_le_of_ne hle fun heq => ?_
    have huniv : (Finset.univ.filter fun j => s.hasDone j = true) = Finset.univ :=
      Finset.eq_univ_of_card _ (heq.trans (Fintype.card_fin n).symm)
    have hmem : j ∈ Finset.univ.filter fun j => s.hasDone j = true := by
      rw [huniv]
      exact Finset.mem_univ j
    exact absurd (hj.symm.trans (Finset.mem_filter.mp hmem).2) nofun

theorem Settled.start (s : Polling n) (hdone : s.hasDone = fun _ => false)
    (hfailed : s.hasFailed = fun _ => .S_SUCCESS) (hcnt : s.hasDoneCnt = 0) : Settled [] s where
  count := by
    rw [hcnt, hdone]
    simp
  finals _ := by
    rw [hdone]
    rfl
  waiting j _ := by rw [hfailed]

/-- **One step** keeps the invariant. -/
theorem Inv.step (hn : n < 2 ^ 31) (hs : Inv h s) (hstep : s.step stdIdx e = some (s', o)) :
    Inv (h ++ [(e, o)]) s' := by
  have hphase := hs.phase
  cases step_cases hstep with
  -- everything is counted from the call on
  | batch _ =>
    constructor <;> rw [thisBatch_batch]
    · exact Settled.start _ rfl rfl rfl
    · exact ⟨le_rfl, Int.natCast_nonneg n, fun j hj => absurd hj (by omega), fun _ _ => rfl,
        fun _ => rfl, rfl, rfl⟩
    · exact fun K _ => Nat.zero_le _
  | started hp hj =>
    rw [hp] at hphase
    refine hs.move (by simp) rfl ?_ ?_
    · refine (hs.settled.inPhase _).called hn ?_ fun k => finals_started _ _ _
      exact hphase.untouched _ (index_spec hn hphase.nonneg hphase.le hj).1.le
    · rw [phase_called]
      exact hphase.started hn hj _ _
  | startEnd hp hi =>
    rw [hp] at hphase
    refine hs.move (by simp) rfl ?_ ?_
    · exact hs.settled.note (fun _ => rfl) rfl rfl rfl
    · exact hphase.startEnd hn hi
  | round hp hcnt =>
    rw [hp] at hphase
    refine .of_concat (by simp) ?_ ?_ ?_
    · exact hs.settled.note (fun _ => rfl) rfl rfl rfl
    · exact hphase.round _
    · -- some content is not done, and has been asked in every round so far
      intro K hK
      obtain ⟨j, hj⟩ := (hs.settled.lt_iff hn).mp hcnt
      have hle := hK j
      rw [retries_concat, hphase.retries j hj] at hle
      rw [rounds_concat]
      exact Nat.add_le_add_right (Nat.le_of_add_right_le hle) 1
  | exited hp hcnt =>
    rw [hp] at hphase
    refine hs.move (by simp) rfl ?_ ?_
    · exact hs.settled.note (fun _ => rfl) rfl rfl rfl
    · refine ⟨fun j => ?_, ?_⟩
      · by_contra hj
        exact hcnt ((hs.settled.lt_iff hn).mpr ⟨j, Bool.eq_false_of_not_eq_true hj⟩)
      · rw [steps_concat, rounds_concat]
        exact hphase.steps
  | skipped hp hj hdone =>
    rw [hp] at hphase
    refine hs.move (by simp) rfl ?_ ?_
    · exact hs.settled.note (fun _ => rfl) rfl rfl rfl
    · exact hphase.skipped hn hj hdone _
  | answered hp hj hdone hget =>
    rw [hp] at hphase
    refine hs.move (by simp) rfl ?_ ?_
    · exact (hs.settled.inPhase _).called hn hdone fun k => finals_answered _ _ _
    · rw [phase_called]
      exact hphase.answered hn hj hdone _ hget
  | pollEnd hp hi =>
    rw [hp] at hphase
    refine hs.move (by simp) rfl ?_ ?_
    · exact hs.settled.note (fun _ => rfl) rfl rfl rfl
    · exact hphase.pollEnd hn hi _
  | delivered hd => exact hs.delivered hd

theorem inv_of_reach (hn : n < 2 ^ 31) (hr : (machine stdIdx contents).Reach h s) : Inv h s := by
  refine hr.invariant ⟨Settled.start _ rfl rfl rfl, rfl, fun K _ => Nat.zero_le _⟩ ?_
  exact fun h s e s' o _ hs hstep => hs.step hn hstep

/-- The loops at work. -/
structure PolledOnce (stdIdx : Int) (h : List (Event n × Note n)) (s : Polling n) : Prop where
  /-- `has_done_cnt` counts `has_done`. -/
  count : s.hasDoneCnt = (Finset.univ.filter fun j => s.hasDone j = true).card
  /-- A content that is asked has given no final answer yet, and its assertion holds. -/
  asked : ∀ j, s.Asks j → finals j (thisBatch h) = [] ∧ ¬ (s.contents j).IsOver
  /-- The loop exits exactly when all contents are done. -/
  exits : s.phase = .check → ∀ code,
    (∃ s', s.step stdIdx (.next code) = some (s', .exited)) ↔ ∀ j, s.hasDone j = true
  /-- After it every content has given one final answer, which is in `has_failed`. -/
  result : s.phase = .finished → ∀ j, finals j (thisBatch h) = [s.hasFailed j]
  /-- Only a content that stops in its call stops the loops. -/
  moves : s.phase ≠ .idle → s.phase ≠ .finished → ∀ code,
    (∀ j, s.Asks j → ∃ r, (s.contents j).getDirListAttr code = .ok r) →
      ∃ r, s.step stdIdx (.next code) = some r
  /-- They end when the contents retry only so often. -/
  ends : ∀ K, (∀ j, retries j (thisBatch h) ≤ K) → steps (thisBatch h) ≤ (K + 2) * (n + 2)

theorem PhaseInv.steps_le {os : List (Note n)} {p : Phase} (hs : PhaseInv os s p) :
    steps os ≤ (rounds os + 1) * (n + 2) := by
  cases p with
  | idle => exact (Nat.le_of_eq hs).trans (Nat.zero_le _)
  | starting i =>
    have hsteps := hs.steps
    have hle := hs.le
    rw [hs.rounds]
    omega
  | check => exact (Nat.le_succ _).trans_eq hs.steps
  | polling i =>
    have hsteps := hs.steps
    have hle := hs.le
    rw [Nat.succ_mul]
    omega
  | finished => exact hs.2.le

/-- The head of the `while` loop. -/
theorem next_check (hphase : s.phase = .check) (code : DcCommonCode) :
    s.next code = if toSize s.hasDoneCnt < n then some ({ s with phase := .polling 0 }, .round)
      else some ({ s with phase := .finished }, .exited) := by
  unfold next
  simp only [hphase]

theorem next_starting {i : Int} {j : Fin n} (hphase : s.phase = .starting i) (hj : toSize i = j)
    (code : DcCommonCode) :
    s.next code = some ({ s with phase := .starting (toInt (i + 1)) }.start code j) := by
  unfold next
  simp only [hphase]
  rw [dif_pos (hj ▸ j.2)]
  exact congrArg (fun k => some (start _ code k)) (Fin.ext hj)

theorem step_batch (hphase : s.phase = .idle ∨ s.phase = .finished)
    (hstd : 0 ≤ stdIdx ∧ stdIdx < toInt n) :
    s.step stdIdx .batch =
      some
        ({ s with
            hasDone := fun _ => false
            hasFailed := fun _ => .S_SUCCESS
            hasDoneCnt := 0
            phase := .starting 0 }, .batch) := by
  unfold step
  rcases hphase with hphase | hphase
  · simp only [hphase]
    exact if_pos hstd
  · simp only [hphase]
    exact if_pos hstd

/-- The loops wait only for a content that is asked. -/
theorem exists_next (hidle : s.phase ≠ .idle) (hfinished : s.phase ≠ .finished)
    {code : DcCommonCode}
    (hcall : ∀ j, s.Asks j → ∃ r, (s.contents j).getDirListAttr code = .ok r) :
    ∃ r, s.next code = some r := by
  unfold next
  split
  next hphase => exact absurd hphase hidle
  next hphase => exact absurd hphase hfinished
  next i hphase =>
    split
    · exact ⟨_, rfl⟩
    · exact ⟨_, rfl⟩
  next hphase =>
    split
    · exact ⟨_, rfl⟩
    · exact ⟨_, rfl⟩
  next i hphase =>
    split
    next hi =>
      unfold poll
      split
      · exact ⟨_, rfl⟩
      next hdone =>
        obtain ⟨r, hr⟩ := hcall ⟨toSize i, hi⟩ ⟨i, hphase, rfl, Bool.eq_false_of_not_eq_true hdone⟩
        have hr : ((s.contents ⟨toSize i, hi⟩).getDirListAttr code).toOption = some r :=
          toOption_eq_some.mpr hr
        dsimp only
        rw [hr]
        exact ⟨_, rfl⟩
    · exact ⟨_, rfl⟩

/-- **Every content is asked until its final answer, and not again.** With fewer than `2 ^ 31`
contents of any kind, whatever their calls return, whatever arrives and whenever it does, and
whatever the lists before were: `has_done_cnt` counts the contents that are done, only a
content without a final answer is asked, the loop exits when all are done and has the one
final answer of each then. -/
theorem polledOnce (hn : n < 2 ^ 31) (stdIdx : Int) (contents : Fin n → DirContent)
    {h : List (Event n × Note n)} {s : Polling n} (hr : (machine stdIdx contents).Reach h s) :
    PolledOnce stdIdx h s := by
  have hinv := inv_of_reach hn hr
  have hphase := hinv.phase
  constructor
  · exact hinv.settled.count
  -- what is asked is not done, so it has no final answer
  · rintro j ⟨i, hp, -, hdone⟩
    rw [hp] at hphase
    refine ⟨?_, hphase.askable j hdone⟩
    rw [hinv.settled.finals, hdone]
    rfl
  · intro hp code
    have hlt := hinv.settled.lt_iff hn
    change (∃ s', s.next code = some (s', .exited)) ↔ _
    rw [next_check hp]
    -- the condition of the loop says that some content is not done
    by_cases hcnt : toSize s.hasDoneCnt < n
    · rw [if_pos hcnt]
      obtain ⟨j, hj⟩ := hlt.mp hcnt
      constructor
      · rintro ⟨s', heq⟩
        cases heq
      · intro hall
        exact absurd (hj.symm.trans (hall j)) nofun
    · rw [if_neg hcnt]
      refine ⟨fun _ j => ?_, fun _ => ⟨_, rfl⟩⟩
      by_contra hj
      exact hcnt (hlt.mpr ⟨j, Bool.eq_false_of_not_eq_true hj⟩)
  · intro hp j
    rw [hp] at hphase
    rw [hinv.settled.finals, hphase.1 j]
    rfl
  · intro hidle hfinished code hcall
    exact exists_next hidle hfinished hcall
  · intro K hK
    calc steps (thisBatch h) ≤ (rounds (thisBatch h) + 1) * (n + 2) := hphase.steps_le
      _ ≤ (K + 2) * (n + 2) :=
        Nat.mul_le_mul_right _ (Nat.add_le_add_right (hinv.rounds_le K hK) 1)

/-- One content of each kind. -/
def threeContents : Fin 3 → DirContent :=
  ![.localThread [], .remote (ContentRemote.waiting (ascii "t")), .other]

/-- The first two need two rounds, and the third one does not get its list. Then the next list
is sent. -/
def threeEvents : List (Event 3) :=
  .batch :: List.replicate 4 (.next .E_OS_ENV_OPEN) ++
    [.deliver 1 (.code .S_SUCCESS)] ++ List.replicate 5 (.next .S_SUCCESS) ++
    [.deliver 0 (.code .E_OS_ENV_STAT), .deliver 1 (.code .E_NOT_FOUND)] ++
    List.replicate 6 (.next .S_SUCCESS) ++ [.batch]

theorem polledOnce_three :
    ∃ h, ∃ s : Polling 3, (machine 0 threeContents).Reach h s ∧ PolledOnce 0 h s ∧
      (Note.exited : Note 3) ∈ h.map Prod.snd := by
  have hrun : ((machine 0 threeContents).run? threeEvents).any
      (fun r => decide ((Note.exited : Note 3) ∈ r.1.map Prod.snd)) = true := by decide +kernel
  obtain ⟨h, s, hr, hmem⟩ := Machine.exists_reach_of_run? hrun
  exact ⟨h, s, hr, polledOnce (by decide) 0 threeContents hr, of_decide_eq_true hmem⟩

/-! ### Too many contents -/

/-- No content gets its list. -/
theorem exists_reach_failing (hn : 2 ^ 31 ≤ n) (hpos : 0 < toInt n) {m : Nat} (hm : m ≤ 2 ^ 31) :
    ∃ h s, (machine 0 fun _ : Fin n => DirContent.other).Reach h s ∧
      s.phase = .starting (toInt m) ∧ s.hasDoneCnt = toInt m ∧ ∀ j, s.contents j = .other := by
  induction m with
  | zero =>
    have hinit : ∃ s₀, (machine 0 fun _ : Fin n => DirContent.other).Reach [] s₀ ∧
        s₀.phase = .idle ∧ ∀ j, s₀.contents j = .other := ⟨_, .init, rfl, fun _ => rfl⟩
    obtain ⟨s₀, hr, hphase, hcontents⟩ := hinit
    have hstep : (machine 0 fun _ : Fin n => DirContent.other).step s₀ .batch = _ :=
      step_batch (.inl hphase) ⟨le_rfl, hpos⟩
    exact ⟨_, _, hr.snoc hstep, rfl, rfl, hcontents⟩
  | succ m ih =>
    obtain ⟨h, s, hr, hphase, hcnt, hcontents⟩ := ih (by omega)
    -- up to here the index and the counter are what they count
    have hself : toInt m = m := toInt_of_lt (by omega)
    have hj : toSize (toInt m) = m := by
      have hsize := toSize_of_nonneg (n := toInt m) (by omega) (by omega)
      omega
    let j : Fin n := ⟨m, by omega⟩
    let r := (s.contents j).doDirListAttr .E_OS_ENV_OPEN
    have hr₁ : r = (.other, .E_OS_ENV_OPEN) := by
      change (s.contents j).doDirListAttr _ = _
      rw [hcontents]
      rfl
    have hstep : (machine 0 fun _ : Fin n => DirContent.other).step s (.next .E_OS_ENV_OPEN) =
        some ({ s with phase := .starting (toInt (toInt m + 1)) }.called j .S_SUCCESS r,
          .started j r.2) := next_starting (j := j) hphase hj _
    refine ⟨_, _, hr.snoc hstep, ?_, ?_, fun k => ?_⟩
    · rw [phase_called, hself, Nat.cast_succ]
    · rw [called_of_ne (by rw [hr₁]; decide)]
      change toInt (s.hasDoneCnt + 1) = _
      rw [hcnt, hself, Nat.cast_succ]
    · rw [contents_called, hr₁]
      by_cases hkj : k = j
      · rw [hkj, Function.update_self]
      · rw [Function.update_of_ne hkj]
        exact hcontents k

/-- After `2 ^ 31` contents that did not get their lists the counter is negative. -/
theorem not_counted_overflow :
    ¬ ∀ (n : Nat) (stdIdx : Int) (contents : Fin n → DirContent) (h : List (Event n × Note n))
      (s : Polling n), (machine stdIdx contents).Reach h s → PolledOnce stdIdx h s := by
  intro hall
  have hpos : 0 < toInt (2 ^ 32 + 1 : Nat) := by
    have hone : toInt (2 ^ 32 + 1 : Nat) = 1 :=
      toInt_eq_of (q := 1) (by omega) (by omega) (by omega)
    rw [hone]
    exact one_pos
  -- the counter of `2 ^ 31` failures is negative, and a number of contents is not
  obtain ⟨h, s, hr, -, hcnt, -⟩ :=
    exists_reach_failing (n := 2 ^ 32 + 1) (by omega) hpos le_rfl
  have hneg : toInt (2 ^ 31 : Nat) = -2 ^ 31 :=
    toInt_eq_of (q := 1) (by omega) (by omega) (by omega)
  have hcount := (hall _ _ _ h s hr).count
  rw [hcnt, hneg] at hcount
  exact absurd hcount (by omega)

end Polling

end Wfrest
