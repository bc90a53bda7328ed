import Wfrest.Compare.WriteDown

/-!
# `gen_diff` waits for the file

`Inv` says what holds in every reached state of the two threads: who has which lock, where each
row is that was sent, and what the writer has said when the main thread reads it. From it
`gen_diff` is a barrier (`genDiff_barrier`): it returns only when every row has come through
`write_down`, so every row had its task.
-/

namespace Wfrest

/-- What a call sends. -/
def DiffCall.given {ρ : Type} : DiffCall ρ → List (Option (SentRow ρ))
  | .sendDiff row => [some row]
  | .genDiff rows => rows.map some ++ [none]
  | .destroy => []

namespace WriteDown

/-- What happened so far: the calls, what was pushed and what came through `write_down`, and
whether a `gen_diff` has returned. -/
structure Log (ρ : Type) where
  calls : List (DiffCall ρ)
  pushed : List (Option (SentRow ρ))
  handed : List (SentRow ρ)
  generated : Bool

variable {ρ : Type}

/-- The log after another step. -/
def Log.add (g : Log ρ) : Event ρ → Output ρ → Log ρ
  | .call c, _ => { g with calls := g.calls ++ [c] }
  | _, .pushed diff => { g with pushed := g.pushed ++ [diff] }
  | _, .handed row => { g with handed := g.handed ++ [row] }
  | _, .generated => { g with generated := true }
  | _, .quiet => g

/-- The log of a run. -/
def log (h : List (Event ρ × Output ρ)) : Log ρ :=
  h.foldl (fun g r => g.add r.1 r.2) ⟨[], [], [], false⟩

theorem log_concat (h : List (Event ρ × Output ρ)) (e : Event ρ) (o : Output ρ) :
    log (h ++ [(e, o)]) = (log h).add e o := List.foldl_concat _ _ _ _

/-- The rows that are sent up to the end of the first `gen_diff`. -/
def rowsUpTo : List (DiffCall ρ) → List (SentRow ρ)
  | .sendDiff row :: calls => row :: rowsUpTo calls
  | .genDiff rows :: _ => rows
  | .destroy :: calls => rowsUpTo calls
  | [] => []

/-- The rows in front of the first one with `r_exit_tag`. -/
def untilTag : List (Option (SentRow ρ)) → List (SentRow ρ)
  | some row :: diffs => row :: untilTag diffs
  | none :: _ => []
  | [] => []

theorem untilTag_map_append (rows : List (SentRow ρ)) (diffs : List (Option (SentRow ρ))) :
    untilTag (rows.map some ++ diffs) = rows ++ untilTag diffs := by
  induction rows with
  | nil => rfl
  | cons row rows ih => exact congrArg (row :: ·) ih

/-- What a thread finds that reads the calls in their order up to the tag. -/
theorem untilTag_given (calls : List (DiffCall ρ)) :
    untilTag (calls.flatMap DiffCall.given) = rowsUpTo calls := by
  induction calls with
  | nil => rfl
  | cons c calls ih =>
    rw [List.flatMap_cons]
    cases c with
    | sendDiff row => exact congrArg (row :: ·) ih
    | genDiff rows =>
      show untilTag ((rows.map some ++ [none]) ++ _) = rows
      rw [List.append_assoc, untilTag_map_append]
      exact List.append_nil rows
    | destroy => exact ih

/-! ### The locks -/

variable {s s' : WriteDown ρ} {e : Event ρ} {o : Output ρ} {g : Log ρ}
  {h : List (Event ρ × Output ρ)}

/-- The threads that hold the lock of the list. -/
def insideList (s : WriteDown ρ) : DiffThread → Prop
  | .main => s.main.hasList = true
  | .writer => s.writer.hasList = true

/-- The threads that hold the lock of `thd_content_write_over_`. -/
def insideOver (s : WriteDown ρ) : DiffThread → Prop
  | .main => s.main.hasOver = true
  | .writer => s.writer.hasOver = true

/-- Both locks have their holders. -/
structure Guarded (s : WriteDown ρ) : Prop where
  list : s.listMutex.Guards s.insideList
  overLock : s.overMutex.Guards s.insideOver

section
variable (hmain : s'.main.hasList = s.main.hasList) (hwriter : s'.writer.hasList = s.writer.hasList)

include hwriter in
theorem insideList_of_ne_main (p : DiffThread) (hp : p ≠ .main) :
    s'.insideList p ↔ s.insideList p := by
  cases p with
  | main => exact absurd rfl hp
  | writer => exact iff_of_eq (congrArg (· = true) hwriter)

include hmain in
theorem insideList_of_ne_writer (p : DiffThread) (hp : p ≠ .writer) :
    s'.insideList p ↔ s.insideList p := by
  cases p with
  | main => exact iff_of_eq (congrArg (· = true) hmain)
  | writer => exact absurd rfl hp

include hmain hwriter in
theorem insideList_congr (p : DiffThread) : s'.insideList p ↔ s.insideList p := by
  cases p with
  | main => exact iff_of_eq (congrArg (· = true) hmain)
  | writer => exact iff_of_eq (congrArg (· = true) hwriter)

end

section
variable (hmain : s'.main.hasOver = s.main.hasOver) (hwriter : s'.writer.hasOver = s.writer.hasOver)

include hwriter in
theorem insideOver_of_ne_main (p : DiffThread) (hp : p ≠ .main) :
    s'.insideOver p ↔ s.insideOver p := by
  cases p with
  | main => exact absurd rfl hp
  | writer => exact iff_of_eq (congrArg (· = true) hwriter)

include hmain in
theorem insideOver_of_ne_writer (p : DiffThread) (hp : p ≠ .writer) :
    s'.insideOver p ↔ s.insideOver p := by
  cases p with
  | main => exact iff_of_eq (congrArg (· = true) hmain)
  | writer => exact absurd rfl hp

include hmain hwriter in
theorem insideOver_congr (p : DiffThread) : s'.insideOver p ↔ s.insideOver p := by
  cases p with
  | main => exact iff_of_eq (congrArg (· = true) hmain)
  | writer => exact iff_of_eq (congrArg (· = true) hwriter)

end

theorem hasList_next (left : List (Option (SentRow ρ))) (waits : Bool) :
    (DiffMain.next left waits).hasList = false := by
  cases left with
  | cons => rfl
  | nil => cases waits <;> rfl

theorem hasOver_next (left : List (Option (SentRow ρ))) (waits : Bool) :
    (DiffMain.next left waits).hasOver = false := by
  cases left with
  | cons => rfl
  | nil => cases waits <;> rfl

theorem MainMove.guarded (hm : MainMove s e o s') (hg : s.Guarded) : s'.Guarded := by
  cases hm with
  | gens =>
    exact ⟨hg.list.congr (insideList_congr (hasList_next _ _) rfl),
      hg.overLock.congr (insideOver_congr (hasOver_next _ _) rfl)⟩
  | @notified _ _ _ _ _ writer =>
    have hlist : writer.notified.hasList = writer.hasList := by cases writer <;> rfl
    have hover : writer.notified.hasOver = writer.hasOver := by cases writer <;> rfl
    exact ⟨hg.list.congr (insideList_congr rfl hlist),
      hg.overLock.congr (insideOver_congr rfl hover)⟩
  | _ =>
    exact ⟨hg.list.congr (insideList_congr rfl rfl), hg.overLock.congr (insideOver_congr rfl rfl)⟩

theorem WriterMove.guarded (hm : WriterMove s e o s') (hg : s.Guarded) : s'.Guarded := by
  cases hm with
  | @notified _ _ _ _ _ main =>
    have hlist : main.notified.hasList = main.hasList := by cases main <;> rfl
    have hover : main.notified.hasOver = main.hasOver := by cases main <;> rfl
    exact ⟨hg.list.congr (insideList_congr hlist rfl),
      hg.overLock.congr (insideOver_congr hover rfl)⟩
  | _ =>
    exact ⟨hg.list.congr (insideList_congr rfl rfl), hg.overLock.congr (insideOver_congr rfl rfl)⟩

theorem Locks.guarded (hl : Locks s e s') (hg : s.Guarded) : s'.Guarded := by
  cases hl with
  | @mainList _ _ _ _ _ _ left waits =>
    exact ⟨hg.list.lock rfl rfl (insideList_of_ne_main rfl),
      hg.overLock.congr (insideOver_congr rfl rfl)⟩
  | mainOver | mainWoken =>
    exact ⟨hg.list.congr (insideList_congr rfl rfl),
      hg.overLock.lock rfl rfl (insideOver_of_ne_main rfl)⟩
  | writerList | writerWoken =>
    exact ⟨hg.list.lock rfl rfl (insideList_of_ne_writer rfl),
      hg.overLock.congr (insideOver_congr rfl rfl)⟩
  | writerOver =>
    exact ⟨hg.list.congr (insideList_congr rfl rfl),
      hg.overLock.lock rfl rfl (insideOver_of_ne_writer rfl)⟩

theorem Unlocks.guarded (hu : Unlocks s e o s') (hg : s.Guarded) : s'.Guarded := by
  cases hu with
  | @mainList _ _ _ _ _ _ left waits =>
    have hout := ne_true_of_eq_false (hasList_next left waits)
    exact ⟨hg.list.unlock (p := DiffThread.main) rfl hout (insideList_of_ne_main rfl),
      hg.overLock.congr (insideOver_congr (hasOver_next _ _) rfl)⟩
  | mainWaits | mainOver =>
    exact ⟨hg.list.congr (insideList_congr rfl rfl),
      hg.overLock.unlock (p := DiffThread.main) rfl nofun (insideOver_of_ne_main rfl)⟩
  | writerWaits | writerEmpty | writerList =>
    exact ⟨hg.list.unlock (p := DiffThread.writer) rfl nofun (insideList_of_ne_writer rfl),
      hg.overLock.congr (insideOver_congr rfl rfl)⟩
  | writerOver =>
    exact ⟨hg.list.congr (insideList_congr rfl rfl),
      hg.overLock.unlock (p := DiffThread.writer) rfl nofun (insideOver_of_ne_writer rfl)⟩

/-- Every step leaves both locks with their holders. -/
theorem guarded_step (hg : s.Guarded) (hstep : s.step e = some (s', o)) : s'.Guarded := by
  obtain ⟨-, hcase⟩ := step_cases hstep
  cases hcase with
  | main hm => exact hm.guarded hg
  | writer hm => exact hm.guarded hg
  | locks hl => exact hl.guarded hg
  | unlocks hu => exact hu.guarded hg

theorem guarded_start : (start : WriteDown ρ).Guarded where
  list p := by cases p <;> exact iff_of_false nofun nofun
  overLock p := by cases p <;> exact iff_of_false nofun nofun

/-! ### The invariant -/

/-- Where the rows are that were pushed. The tag ends the loop of the writer. -/
inductive Account (g : Log ρ) (s : WriteDown ρ) : Prop
  | running (heq : g.pushed = g.handed.map some ++ (s.writer.held ++ s.writeDownList))
      (hexit : s.writer.ended = true → s.exit = true)
  | tagged (heq : g.pushed = g.handed.map some ++ none :: s.writeDownList)
      (hended : s.writer.ended = true)

/-- **What holds in every reached state.** -/
structure Inv (g : Log ρ) (s : WriteDown ρ) : Prop where
  guarded : s.Guarded
  /-- What was given to a call is pushed, or left to push. -/
  given : g.calls.flatMap DiffCall.given = g.pushed ++ s.main.toPush
  account : Account g s
  /-- The destructor is the last call. -/
  exit : s.exit = s.main.destroyed
  said : s.contentOver = s.writer.said
  /-- Who waits behind `gen_diff` has sent the tag, or is about to. -/
  tag : s.main.waits = true → none ∈ g.pushed ++ s.main.toPush
  /-- The writer does not wait for a row that is there. -/
  writerAwake : s.writer = .asleep → s.writeDownList = [] ∨
    ∃ left waits, s.main = .notify left waits
  /-- The main thread does not wait for a file that is closed. -/
  mainAwake : s.main = .asleep → s.contentOver = false ∨ s.writer = .notifyOver
  sawOver : s.main = .leaveWait → s.contentOver = true
  joined : s.main = .gone → s.writer = .done
  /-- Behind `gen_diff` the writer is done, and it has seen the tag. -/
  generated : g.generated = true →
    s.writer = .done ∧ g.pushed = g.handed.map some ++ none :: s.writeDownList
  tasks : ∀ row ∈ g.handed, row.hasTask = true
  aborted : ∀ row, s.writer = .aborted row → row.hasTask = false

/-! ### What one step keeps -/

theorem toPush_next (left : List (Option (SentRow ρ))) (waits : Bool) :
    (DiffMain.next left waits).toPush = left := by
  cases left with
  | cons => rfl
  | nil => cases waits <;> rfl

theorem waits_next (left : List (Option (SentRow ρ))) (waits : Bool) :
    (DiffMain.next left waits).waits = waits := by
  cases left with
  | cons => rfl
  | nil => cases waits <;> rfl

theorem destroyed_next (left : List (Option (SentRow ρ))) (waits : Bool) :
    (DiffMain.next left waits).destroyed = false := by
  cases left with
  | cons => rfl
  | nil => cases waits <;> rfl

theorem next_ne (left : List (Option (SentRow ρ))) (waits : Bool) :
    DiffMain.next left waits ≠ .asleep ∧ DiffMain.next left waits ≠ .leaveWait ∧
      DiffMain.next left waits ≠ .gone := by
  cases left with
  | cons => exact ⟨nofun, nofun, nofun⟩
  | nil => cases waits <;> exact ⟨nofun, nofun, nofun⟩

theorem given_step (hinv : Inv g s) (hcase : StepCase s e o s') :
    (g.add e o).calls.flatMap DiffCall.given = (g.add e o).pushed ++ s'.main.toPush := by
  have hgiven := hinv.given
  cases hcase with
  | main hm =>
    cases hm with
    | @sends _ _ _ _ _ _ row =>
      show (g.calls ++ [DiffCall.sendDiff row]).flatMap _ = g.pushed ++ [some row]
      rw [List.flatMap_append, hgiven]
      exact congrArg (· ++ [some row]) (List.append_nil _)
    | @gens _ _ _ _ _ _ rows =>
      show (g.calls ++ [DiffCall.genDiff rows]).flatMap _ = g.pushed ++ (DiffMain.next _ _).toPush
      rw [List.flatMap_append, hgiven, toPush_next]
      simp [DiffMain.toPush, DiffCall.given]
    | destroys =>
      show (g.calls ++ [DiffCall.destroy]).flatMap _ = g.pushed ++ []
      rw [List.flatMap_append, hgiven]
      exact List.append_nil _
    | @pushed _ _ _ _ _ _ diff left =>
      show _ = (g.pushed ++ [diff]) ++ left
      rw [List.append_assoc]
      exact hgiven
    | _ => exact hgiven
  | writer hw =>
    cases hw with
    | @notified _ _ _ _ _ main =>
      have hpush : main.notified.toPush = main.toPush := by cases main <;> rfl
      show _ = g.pushed ++ main.notified.toPush
      rw [hpush]
      exact hgiven
    | _ => exact hgiven
  | locks hl ho =>
    subst ho
    cases hl with
    | _ => exact hgiven
  | unlocks hu =>
    cases hu with
    | @mainList _ _ _ _ _ _ left waits =>
      show _ = g.pushed ++ (DiffMain.next left waits).toPush
      rw [toPush_next]
      exact hgiven
    | _ => exact hgiven

/-- Behind the loop the writer stays there. -/
theorem StepCase.ended (hcase : StepCase s e o s') (hended : s.writer.ended = true) :
    s'.writer.ended = true := by
  cases hcase with
  | main hm =>
    cases hm with
    | @notified _ _ _ _ _ writer =>
      have hsame : writer.notified.ended = writer.ended := by cases writer <;> rfl
      exact hsame.trans hended
    | _ => exact hended
  | writer hw =>
    cases hw with
    | exits | tagged => rfl
    | opened | failed | again | popped | gaveUp | timeout | spurious | handed | aborted =>
      cases hended
    | _ => exact hended
  | locks hl =>
    cases hl with
    | writerList | writerWoken => cases hended
    | _ => exact hended
  | unlocks hu =>
    cases hu with
    | writerWaits | writerEmpty | writerList => cases hended
    | _ => exact hended

/-- Behind the loop the rows that come stay in the list. -/
theorem StepCase.tagged (hcase : StepCase s e o s') (hended : s.writer.ended = true)
    (heq : g.pushed = g.handed.map some ++ none :: s.writeDownList) :
    (g.add e o).pushed = (g.add e o).handed.map some ++ none :: s'.writeDownList := by
  cases hcase with
  | main hm =>
    cases hm with
    | @pushed _ _ _ _ _ _ diff =>
      show g.pushed ++ [diff] = _
      rw [heq, List.append_assoc]
      rfl
    | _ => exact heq
  | writer hw =>
    cases hw with
    | popped | handed | aborted => cases hended
    | _ => exact heq
  | locks hl ho =>
    subst ho
    cases hl with
    | _ => exact heq
  | unlocks hu =>
    cases hu with
    | _ => exact heq

/-- In the loop, a row goes from the list to the writer and from there to `write_down`. -/
theorem StepCase.running (hcase : StepCase s e o s')
    (hexit : s.writer.ended = true → s.exit = true)
    (heq : g.pushed = g.handed.map some ++ (s.writer.held ++ s.writeDownList)) :
    Account (g.add e o) s' := by
  cases hcase with
  | main hm =>
    cases hm with
    | @pushed _ _ _ _ _ _ diff =>
      refine .running ?_ hexit
      show g.pushed ++ [diff] = g.handed.map some ++ _
      rw [heq]
      simp only [List.append_assoc]
    | @notified _ _ _ _ _ writer =>
      have hheld : writer.notified.held = writer.held := by cases writer <;> rfl
      have hended : writer.notified.ended = writer.ended := by cases writer <;> rfl
      refine .running ?_ fun h => hexit (hended.symm.trans h)
      show g.pushed = _ ++ (writer.notified.held ++ _)
      rw [hheld]
      exact heq
    | destroys => exact .running heq fun _ => rfl
    | _ => exact .running heq hexit
  | writer hw =>
    cases hw with
    | handed =>
      refine .running (heq.trans ?_) nofun
      simp [Log.add, DiffWriter.held]
    | tagged => exact .tagged heq rfl
    | exits => exact .running heq fun _ => rfl
    | _ => exact .running heq hexit
  | locks hl ho =>
    subst ho
    cases hl with
    | _ => exact .running heq hexit
  | unlocks hu =>
    cases hu with
    | _ => exact .running heq hexit

theorem account_step (hinv : Inv g s) (hcase : StepCase s e o s') :
    Account (g.add e o) s' := by
  cases hinv.account with
  | running heq hexit => exact hcase.running hexit heq
  | tagged heq hended => exact .tagged (hcase.tagged hended heq) (hcase.ended hended)

theorem exit_step (hinv : Inv g s) (hcase : StepCase s e o s') :
    s'.exit = s'.main.destroyed := by
  have hexit := hinv.exit
  cases hcase with
  | main hm =>
    cases hm with
    | gens => exact hexit.trans (destroyed_next _ _).symm
    | destroys => rfl
    | _ => exact hexit
  | writer hw =>
    cases hw with
    | @notified _ _ _ _ _ main =>
      refine hexit.trans ?_
      show main.destroyed = main.notified.destroyed
      cases main <;> rfl
    | _ => exact hexit
  | locks hl =>
    cases hl with
    | _ => exact hexit
  | unlocks hu =>
    cases hu with
    | mainList => exact hexit.trans (destroyed_next _ _).symm
    | _ => exact hexit

theorem said_step (hinv : Inv g s) (hcase : StepCase s e o s') :
    s'.contentOver = s'.writer.said := by
  have hsaid := hinv.said
  cases hcase with
  | main hm =>
    cases hm with
    | @notified _ _ _ _ _ writer =>
      refine hsaid.trans ?_
      show writer.said = writer.notified.said
      cases writer <;> rfl
    | _ => exact hsaid
  | writer hw =>
    cases hw with
    | setsOver => rfl
    | _ => exact hsaid
  | locks hl =>
    cases hl with
    | _ => exact hsaid
  | unlocks hu =>
    cases hu with
    | _ => exact hsaid

theorem tag_step (hinv : Inv g s) (hcase : StepCase s e o s') :
    s'.main.waits = true → none ∈ (g.add e o).pushed ++ s'.main.toPush := by
  have htag := hinv.tag
  cases hcase with
  | main hm =>
    cases hm with
    | sends => exact nofun
    | @gens _ _ _ _ _ _ rows =>
      intro _
      show none ∈ g.pushed ++ (DiffMain.next _ _).toPush
      rw [toPush_next, ← List.append_assoc]
      exact List.mem_append_right _ List.mem_cons_self
    | destroys => exact nofun
    | @pushed _ _ _ _ _ _ diff left =>
      intro hwaits
      show none ∈ (g.pushed ++ [diff]) ++ left
      rw [List.append_assoc]
      exact htag hwaits
    | _ => exact htag
  | writer hw =>
    cases hw with
    | @notified _ _ _ _ _ main =>
      have hpush : main.notified.toPush = main.toPush := by cases main <;> rfl
      have hwaits : main.notified.waits = main.waits := by cases main <;> rfl
      show main.notified.waits = true → none ∈ g.pushed ++ main.notified.toPush
      rw [hpush, hwaits]
      exact htag
    | _ => exact htag
  | locks hl ho =>
    subst ho
    cases hl with
    | _ => exact htag
  | unlocks hu =>
    cases hu with
    | @mainList _ _ _ _ _ _ left waits =>
      show (DiffMain.next left waits).waits = true →
        none ∈ g.pushed ++ (DiffMain.next left waits).toPush
      rw [toPush_next, waits_next]
      exact htag
    | mainOver => exact nofun
    | _ => exact htag

/-- The writer falls asleep only with an empty list, and a row that comes is announced. -/
theorem writerAwake_step (hinv : Inv g s) (hcase : StepCase s e o s') :
    s'.writer = .asleep →
      s'.writeDownList = [] ∨ ∃ left waits, s'.main = .notify left waits := by
  have hawake := hinv.writerAwake
  cases hcase with
  | main hm =>
    cases hm with
    | pushed => exact fun _ => .inr ⟨_, _, rfl⟩
    | @notified _ _ _ _ _ writer =>
      intro hasleep
      change writer.notified = .asleep at hasleep
      cases writer <;> cases hasleep
    | _ => exact fun hasleep => (hawake hasleep).imp_right nofun
  | writer hw =>
    cases hw with
    | notified => exact nofun
    | _ => exact nofun
  | locks hl =>
    cases hl with
    | writerList | writerWoken | writerOver => exact nofun
    | _ => exact fun hasleep => (hawake hasleep).imp_right nofun
  | unlocks hu =>
    cases hu with
    | writerWaits => exact fun _ => .inl rfl
    | writerEmpty | writerList | writerOver => exact nofun
    | _ => exact fun hasleep => (hawake hasleep).imp_right nofun

/-- The main thread falls asleep only before the file is closed, and it is told. -/
theorem mainAwake_step (hinv : Inv g s) (hcase : StepCase s e o s') :
    s'.main = .asleep → s'.contentOver = false ∨ s'.writer = .notifyOver := by
  have hawake := hinv.mainAwake
  cases hcase with
  | main hm =>
    cases hm with
    | gens => exact fun hasleep => absurd hasleep (next_ne _ _).1
    | _ => exact nofun
  | writer hw =>
    cases hw with
    | setsOver => exact fun _ => .inr rfl
    | @notified _ _ _ _ _ main =>
      intro hasleep
      change main.notified = .asleep at hasleep
      cases main <;> cases hasleep
    | _ => exact fun hasleep => .inl ((hawake hasleep).resolve_right nofun)
  | locks hl =>
    cases hl with
    | mainList | mainOver | mainWoken => exact nofun
    | _ => exact fun hasleep => .inl ((hawake hasleep).resolve_right nofun)
  | unlocks hu =>
    cases hu with
    | mainList => exact fun hasleep => absurd hasleep (next_ne _ _).1
    | mainWaits => exact fun _ => .inl rfl
    | mainOver => exact nofun
    | _ => exact fun hasleep => .inl ((hawake hasleep).resolve_right nofun)

theorem sawOver_step (hinv : Inv g s) (hcase : StepCase s e o s') :
    s'.main = .leaveWait → s'.contentOver = true := by
  have hsaw := hinv.sawOver
  cases hcase with
  | main hm =>
    cases hm with
    | gens => exact fun hleave => absurd hleave (next_ne _ _).2.1
    | sawOver => exact fun _ => rfl
    | _ => exact nofun
  | writer hw =>
    cases hw with
    | setsOver => exact fun _ => rfl
    | @notified _ _ _ _ _ main =>
      intro hleave
      change main.notified = .leaveWait at hleave
      cases main with
      | leaveWait => exact hsaw rfl
      | _ => cases hleave
    | _ => exact hsaw
  | locks hl =>
    cases hl with
    | mainList | mainOver | mainWoken => exact nofun
    | _ => exact hsaw
  | unlocks hu =>
    cases hu with
    | mainList => exact fun hleave => absurd hleave (next_ne _ _).2.1
    | mainWaits | mainOver => exact nofun
    | _ => exact hsaw

/-- A writer that is done does nothing any more. -/
theorem StepCase.done (hcase : StepCase s e o s') (hdone : s.writer = .done) :
    s'.writer = .done := by
  cases hcase with
  | main hm =>
    cases hm with
    | notified => exact (congrArg DiffWriter.notified hdone)
    | _ => exact hdone
  | writer hw =>
    cases hw with
    | _ => cases hdone
  | locks hl =>
    cases hl with
    | writerList | writerWoken | writerOver => cases hdone
    | _ => exact hdone
  | unlocks hu =>
    cases hu with
    | writerWaits | writerEmpty | writerList | writerOver => cases hdone
    | _ => exact hdone

theorem joined_step (hinv : Inv g s) (hcase : StepCase s e o s') :
    s'.main = .gone → s'.writer = .done := by
  have hjoined := hinv.joined
  intro hgone
  cases hcase with
  | main hm =>
    cases hm with
    | gens => exact absurd hgone (next_ne _ _).2.2
    | joined => rfl
    | _ => cases hgone
  | writer hw =>
    cases hw with
    | @notified _ _ _ _ _ main =>
      change main.notified = .gone at hgone
      cases main with
      | gone => exact absurd (hjoined rfl) nofun
      | _ => cases hgone
    | _ => exact absurd (hjoined hgone) nofun
  | locks hl =>
    cases hl with
    | mainList | mainOver | mainWoken => cases hgone
    | _ => exact absurd (hjoined hgone) nofun
  | unlocks hu =>
    cases hu with
    | mainList => exact absurd hgone (next_ne _ _).2.2
    | mainWaits | mainOver => cases hgone
    | _ => exact absurd (hjoined hgone) nofun

/-- `gen_diff` returns behind the writer, which has left the lock before. -/
theorem Inv.done_of_leaveWait (hinv : Inv g s) (hleave : s.main = .leaveWait) :
    s.writer = .done := by
  have hsaid : s.writer.said = true := hinv.said.symm.trans (hinv.sawOver hleave)
  -- the main thread holds the lock, so the writer is before it or behind it
  have hout : s.writer.hasOver ≠ true := by
    intro hin
    have hmain : s.insideOver .main := congrArg DiffMain.hasOver hleave
    cases hinv.guarded.overLock.unique hmain (show s.insideOver .writer from hin)
  generalize s.writer = writer at hsaid hout
  cases writer with
  | done => rfl
  | notifyOver | log | leaveOver => exact absurd rfl hout
  | _ => cases hsaid

theorem StepCase.generated (hcase : StepCase s e o s') (hgen : (g.add e o).generated = true) :
    g.generated = true ∨ s.main = .leaveWait ∧ s'.writer = s.writer := by
  cases hcase with
  | main hm =>
    cases hm with
    | _ => exact .inl hgen
  | writer hw =>
    cases hw with
    | _ => exact .inl hgen
  | locks hl ho =>
    subst ho
    cases hl with
    | _ => exact .inl hgen
  | unlocks hu =>
    cases hu with
    | mainOver => exact .inr ⟨rfl, rfl⟩
    | _ => exact .inl hgen

theorem generated_step (hinv : Inv g s) (hcase : StepCase s e o s')
    (hgen : (g.add e o).generated = true) :
    s'.writer = .done ∧
      (g.add e o).pushed = (g.add e o).handed.map some ++ none :: s'.writeDownList := by
  obtain hgen | ⟨hleave, -⟩ := hcase.generated hgen
  · -- it has returned before, and what is sent since then stays in the list
    obtain ⟨hdone, heq⟩ := hinv.generated hgen
    exact ⟨hcase.done hdone, hcase.tagged (congrArg DiffWriter.ended hdone) heq⟩
  · have hdone := hinv.done_of_leaveWait hleave
    have hended : s.writer.ended = true := congrArg DiffWriter.ended hdone
    refine ⟨hcase.done hdone, hcase.tagged hended ?_⟩
    cases hinv.account with
    | running _ hexit =>
      -- the loop did not end for the destructor
      have hexit' := hinv.exit.symm.trans (hexit hended)
      rw [hleave] at hexit'
      cases hexit'
    | tagged heq _ => exact heq

theorem tasks_step (hinv : Inv g s) (hcase : StepCase s e o s') :
    ∀ row ∈ (g.add e o).handed, row.hasTask = true := by
  have htasks := hinv.tasks
  cases hcase with
  | main hm =>
    cases hm with
    | _ => exact htasks
  | writer hw =>
    cases hw with
    | @handed _ _ _ _ _ _ row htask =>
      exact List.forall_mem_append.mpr ⟨htasks, List.forall_mem_singleton.mpr htask⟩
    | _ => exact htasks
  | locks hl ho =>
    subst ho
    cases hl with
    | _ => exact htasks
  | unlocks hu =>
    cases hu with
    | _ => exact htasks

theorem aborted_step (hinv : Inv g s) (hcase : StepCase s e o s') :
    ∀ row, s'.writer = .aborted row → row.hasTask = false := by
  have haborted := hinv.aborted
  cases hcase with
  | main hm =>
    cases hm with
    | @notified _ _ _ _ _ writer =>
      intro row habort
      change writer.notified = .aborted row at habort
      cases writer with
      | aborted => exact haborted row habort
      | _ => cases habort
    | _ => exact haborted
  | writer hw =>
    cases hw with
    | aborted htask =>
      intro row habort
      cases habort
      exact htask
    | _ => exact nofun
  | locks hl =>
    cases hl with
    | writerList | writerWoken | writerOver => exact nofun
    | _ => exact haborted
  | unlocks hu =>
    cases hu with
    | writerWaits | writerEmpty | writerList | writerOver => exact nofun
    | _ => exact haborted

/-- **Every step keeps the invariant.** -/
theorem inv_step (hinv : Inv g s) (hstep : s.step e = some (s', o)) : Inv (g.add e o) s' := by
  obtain ⟨-, hcase⟩ := step_cases hstep
  exact {
    guarded := guarded_step hinv.guarded hstep
    given := given_step hinv hcase
    account := account_step hinv hcase
    exit := exit_step hinv hcase
    said := said_step hinv hcase
    tag := tag_step hinv hcase
    writerAwake := writerAwake_step hinv hcase
    mainAwake := mainAwake_step hinv hcase
    sawOver := sawOver_step hinv hcase
    joined := joined_step hinv hcase
    generated := generated_step hinv hcase
    tasks := tasks_step hinv hcase
    aborted := aborted_step hinv hcase }

theorem inv_start : Inv (log []) (start : WriteDown ρ) where
  guarded := guarded_start
  given := rfl
  account := .running rfl nofun
  exit := rfl
  said := rfl
  tag := nofun
  writerAwake := nofun
  mainAwake := nofun
  sawOver := nofun
  joined := nofun
  generated := nofun
  tasks := List.forall_mem_nil _
  aborted := nofun

theorem inv_of_reach (hr : machine.Reach h s) : Inv (log h) s := by
  refine hr.invariant (I := fun h s => Inv (log h) s) inv_start ?_
  intro h s e s' o _ hinv hstep
  rw [log_concat]
  exact inv_step hinv hstep

/-! ### The barrier -/

/-- What came through `write_down` is what was sent first. -/
theorem Inv.handed_prefix (hinv : Inv g s) : g.handed <+: rowsUpTo g.calls := by
  have hpushed : ∃ diffs, g.pushed = g.handed.map some ++ diffs := by
    cases hinv.account with
    | running heq _ => exact ⟨_, heq⟩
    | tagged heq _ => exact ⟨_, heq⟩
  obtain ⟨diffs, hdiffs⟩ := hpushed
  -- up to the tag, what was pushed is what was given to the calls
  rw [← untilTag_given, hinv.given, hdiffs, List.append_assoc, untilTag_map_append]
  exact List.prefix_append _ _

/-- A writer that has seen the tag has handed on what was sent up to it. -/
theorem Inv.handed_eq (hinv : Inv g s)
    (heq : g.pushed = g.handed.map some ++ none :: s.writeDownList) :
    g.handed = rowsUpTo g.calls := by
  rw [← untilTag_given, hinv.given, heq, List.append_assoc, untilTag_map_append]
  exact (List.append_nil _).symm

/-- **`gen_diff` is a barrier.** In every run the rows that have come through `write_down` are,
in their order, the first of those that were sent, and have their task. When `gen_diff` has
returned, they are all that were sent up to there, and the writer has returned itself: it
touches the task no more. -/
theorem genDiff_barrier (hr : machine.Reach h s) :
    (log h).handed <+: rowsUpTo (log h).calls ∧ (∀ row ∈ (log h).handed, row.hasTask = true) ∧
      ((log h).generated = true →
        s.writer = .done ∧ (log h).handed = rowsUpTo (log h).calls) := by
  have hinv := inv_of_reach hr
  refine ⟨hinv.handed_prefix, hinv.tasks, fun hgen => ?_⟩
  obtain ⟨hdone, heq⟩ := hinv.generated hgen
  exact ⟨hdone, hinv.handed_eq heq⟩

/-- The main thread sends a row, waits in `gen_diff` and is woken. -/
theorem genDiff_barrier_woken :
    ∃ (h : List (Event Nat × Output Nat)) (s : WriteDown Nat), machine.Reach h s ∧
      (log h).calls = [.sendDiff ⟨1, true⟩, .genDiff [⟨2, true⟩]] ∧ s.writer = .done ∧
        (log h).handed = [⟨1, true⟩, ⟨2, true⟩] := by
  obtain ⟨h, s, hrun, hcalls, hgen⟩ : ∃ h s, (machine (ρ := Nat)).run? ([.opened true,
      .call (.sendDiff ⟨1, true⟩)] ++ List.replicate 4 .main ++
      [.call (.genDiff [⟨2, true⟩])] ++ List.replicate 10 .main ++ List.replicate 21 .writer ++
      List.replicate 3 .main) = some (h, s) ∧
      (log h).calls = [.sendDiff ⟨1, true⟩, .genDiff [⟨2, true⟩]] ∧ (log h).generated = true :=
    ⟨_, _, rfl, rfl, rfl⟩
  have hr : machine.Reach h s := by simpa using Machine.Reach.runFrom? .init hrun
  obtain ⟨-, -, hbarrier⟩ := genDiff_barrier hr
  obtain ⟨hdone, hhanded⟩ := hbarrier hgen
  rw [hcalls] at hhanded
  exact ⟨h, s, hr, hcalls, hdone, hhanded⟩

end WriteDown

end Wfrest
