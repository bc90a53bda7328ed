import Wfrest.Compare.GenDiff
import Mathlib.Order.WellFounded

/-!
# The writer comes to rest

When no call is made any more, the call that there is and the writer come to an end: they take
finitely many steps (`wellFounded_internalStep`), and where none of them can take another one,
the call has returned, or an assertion has failed (`writer_comes_to_rest`). So no notification is
lost, neither of a row nor of the closed file, and the destructor does not wait for ever: `join`
needs no notification, since the writer looks for `thd_write_down_exit_` each time that `wait_for`
comes to its end.
-/

namespace Wfrest

namespace WriteDown

variable {ρ : Type} {s s' : WriteDown ρ} {e : Event ρ} {o : Output ρ}
  {h : List (Event ρ × Output ρ)}

/-! ### The steps that are left -/

/-- A step of the two threads. A `wait_for` that comes to its end counts once the writer has been
told to exit, before it only polls. -/
def Event.internal (s : WriteDown ρ) : Event ρ → Prop
  | .main => True
  | .writer => True
  | .opened _ => True
  | .timeout => s.exit = true
  | _ => False

/-- A step of the threads among themselves. -/
def InternalStep (s' s : WriteDown ρ) : Prop :=
  ∃ e o, e.internal s ∧ s.step e = some (s', o)

/-- How far the main thread is from the end of its call. Each row that it pushes costs a walk of
the writer. -/
def mainCost : DiffMain ρ → Nat
  | .send _ left _ => 40 * (left.length + 1) + 3
  | .push _ left _ => 40 * left.length + 30
  | .notify left _ => 40 * left.length + 7
  | .leave left _ => 40 * left.length + 4
  | .enterWait => 3
  | .testOver => 2
  | .asleep => 1
  | .woken => 3
  | .leaveWait => 1
  | .join => 1
  | _ => 0

/-- The same of the writer at the head of its loop. Told to exit, it does not sleep again. -/
def loopCost : Bool → Nat
  | true => 9
  | false => 16

/-- How far the writer is from its next sleep, or from its end when it is told to exit. -/
def writerCost (exit : Bool) : DiffWriter ρ → Nat
  | .start => 17
  | .loop => loopCost exit
  | .enter => 15
  | .test false => 14
  | .test true => loopCost exit + 2
  | .asleep => 13
  | .woken false => 15
  | .woken true => loopCost exit + 3
  | .leave none => loopCost exit + 1
  | .leave (some _) => 19
  | .got _ => 18
  | .tail => 8
  | .enterOver => 7
  | .setOver => 6
  | .notifyOver => 5
  | .log => 2
  | .leaveOver => 1
  | .done => 0
  | .failed => 0
  | .aborted _ => 0

/-- What is left to do. -/
def work (s : WriteDown ρ) : Nat :=
  20 * s.writeDownList.length + mainCost s.main + writerCost s.exit s.writer

theorem mainCost_next_le (left : List (Option (SentRow ρ))) (waits : Bool) :
    mainCost (DiffMain.next left waits) ≤ 40 * left.length + 3 := by
  cases left with
  | cons => exact le_rfl
  | nil => cases waits <;> simp [DiffMain.next, mainCost]

theorem mainCost_notified_le (main : DiffMain ρ) : mainCost main.notified ≤ mainCost main + 2 := by
  cases main <;> simp [DiffMain.notified, mainCost]

theorem writerCost_notified_le (exit : Bool) (writer : DiffWriter ρ) :
    writerCost exit writer.notified ≤ writerCost exit writer + 2 := by
  cases writer <;> simp [DiffWriter.notified, writerCost]

theorem MainMove.work_lt (hm : MainMove s e o s') (hinternal : e.internal s) :
    s'.work < s.work := by
  unfold work
  cases hm with
  | sends | gens | destroys | woken => exact hinternal.elim
  | @pushed l =>
    simp only [mainCost, List.length_append, List.length_singleton]
    omega
  | @notified _ _ x _ _ writer left =>
    have hle := writerCost_notified_le x writer
    simp only [mainCost]
    omega
  | sawOver | joined =>
    simp only [mainCost]
    omega

theorem WriterMove.work_lt (hw : WriterMove s e o s') (hinternal : e.internal s) :
    s'.work < s.work := by
  unfold work
  cases hw with
  | spurious => exact hinternal.elim
  | timeout =>
    -- the writer is to exit
    change _ = true at hinternal
    subst hinternal
    simp only [writerCost, loopCost]
    omega
  | @notified _ _ _ _ _ main =>
    have hle := mainCost_notified_le main
    simp only [writerCost]
    omega
  | @popped _ _ x _ _ _ _ timedOut =>
    cases timedOut <;> simp only [writerCost, List.length_cons] <;> omega
  | @opened _ _ x | @gaveUp _ x | @handed _ _ x =>
    cases x <;> simp only [writerCost, loopCost] <;> omega
  | failed | aborted | again | exits | tagged | closed | setsOver | logged =>
    simp only [writerCost, loopCost]
    omega

theorem Locks.work_lt (hl : Locks s e s') : s'.work < s.work := by
  unfold work
  cases hl with
  | mainList | mainOver | mainWoken =>
    simp only [mainCost]
    omega
  | writerList | writerOver =>
    simp only [writerCost]
    omega
  | @writerWoken _ x _ _ _ timedOut =>
    cases timedOut <;> simp only [writerCost] <;> omega

theorem Unlocks.work_lt (hu : Unlocks s e o s') : s'.work < s.work := by
  unfold work
  cases hu with
  | @mainList _ _ _ _ _ _ left waits =>
    have hlt := Nat.lt_succ_of_le (mainCost_next_le left waits)
    exact Nat.add_lt_add_right (Nat.add_lt_add_left hlt _) _
  | mainWaits | mainOver =>
    simp only [mainCost]
    omega
  | writerWaits | writerEmpty | writerOver =>
    simp only [writerCost]
    omega
  | @writerList _ _ x =>
    simp only [writerCost]
    omega

/-- Every step of the threads among themselves leaves less to do. -/
theorem work_lt_of_step (hinternal : e.internal s) (hstep : s.step e = some (s', o)) :
    s'.work < s.work := by
  obtain ⟨-, hcase⟩ := step_cases hstep
  cases hcase with
  | main hm => exact hm.work_lt hinternal
  | writer hw => exact hw.work_lt hinternal
  | locks hl => exact hl.work_lt
  | unlocks hu => exact hu.work_lt

/-- **The threads come to an end**: from any state they take finitely many steps. -/
theorem wellFounded_internalStep : WellFounded (InternalStep (ρ := ρ)) := by
  refine Subrelation.wf ?_ (measure work).wf
  rintro s' s ⟨e, o, hinternal, hstep⟩
  exact work_lt_of_step hinternal hstep

/-! ### Where they stop -/

/-- No thread can take another step by itself. -/
def Stuck (s : WriteDown ρ) : Prop := ∀ e, e.internal s → s.step e = none

theorem mainStep_isSome (hin : s.main.hasList = true ∨ s.main.hasOver = true) :
    s.mainStep ≠ none := by
  unfold mainStep
  generalize s.main = main at hin
  cases main with
  | push | notify | leave | leaveWait => exact Option.some_ne_none _
  | testOver => cases s.contentOver <;> exact Option.some_ne_none _
  | _ => obtain hin | hin := hin <;> cases hin

theorem writerStep_isSome (hin : s.writer.hasList = true ∨ s.writer.hasOver = true) :
    s.writerStep ≠ none := by
  unfold writerStep
  generalize s.writer = writer at hin
  cases writer with
  | test timedOut =>
    cases s.writeDownList with
    | nil => cases timedOut <;> exact Option.some_ne_none _
    | cons => exact Option.some_ne_none _
  | leave diff => cases diff <;> exact Option.some_ne_none _
  | setOver | notifyOver | log | leaveOver => exact Option.some_ne_none _
  | _ => obtain hin | hin := hin <;> cases hin

/-- A thread that could have a free lock can go on. -/
theorem lock_isSome {m : Mutex DiffThread} (hfree : m.holder = none) {p : DiffThread}
    {f : Mutex DiffThread → WriteDown ρ} :
    (m.lock? p).map (fun m => (f m, (Output.quiet : Output ρ))) ≠ none := by
  intro hmap
  obtain ⟨q, hq⟩ := Mutex.lock?_eq_none (Option.map_eq_none_iff.mp hmap)
  rw [hfree] at hq
  cases hq

section
variable (hinv : Inv (log h) s) (hstuck : Stuck s) (hlive : s.writer.panicked = false)
include hinv hstuck hlive

omit hinv in
theorem threadStep_of_stuck (hinternal : e.internal s) : s.threadStep e = none :=
  (step_of_not_panicked hlive).symm.trans (hstuck e hinternal)

/-- Who holds a lock can go on, so in the end nobody does. -/
theorem Inv.free_of_stuck : s.listMutex.holder = none ∧ s.overMutex.holder = none := by
  have hmain := threadStep_of_stuck hstuck hlive (e := .main) trivial
  have hwriter := threadStep_of_stuck hstuck hlive (e := .writer) trivial
  constructor
  · by_contra hheld
    obtain ⟨p, hp⟩ := Option.ne_none_iff_exists'.mp hheld
    have hin := (hinv.guarded.list p).mpr hp
    cases p with
    | main => exact mainStep_isSome (.inl hin) hmain
    | writer => exact writerStep_isSome (.inl hin) hwriter
  · by_contra hheld
    obtain ⟨p, hp⟩ := Option.ne_none_iff_exists'.mp hheld
    have hin := (hinv.guarded.overLock p).mpr hp
    cases p with
    | main => exact mainStep_isSome (.inr hin) hmain
    | writer => exact writerStep_isSome (.inr hin) hwriter

/-- With the locks free, the writer has returned or waits for a row. -/
theorem Inv.writer_of_stuck : s.writer = .done ∨ s.writer = .asleep ∧ s.exit = false := by
  obtain ⟨hlist, hover⟩ := hinv.free_of_stuck hstuck hlive
  have hstep : s.writerStep = none := threadStep_of_stuck hstuck hlive (e := .writer) trivial
  have hopen : s.openStep true = none :=
    threadStep_of_stuck hstuck hlive (e := .opened true) trivial
  have hwake : s.exit = true → s.wakeStep true = none := fun hexit =>
    threadStep_of_stuck hstuck hlive (e := .timeout) hexit
  unfold writerStep at hstep
  unfold openStep at hopen
  unfold wakeStep at hwake
  generalize hw : s.writer = writer at hstep hopen hwake hlive
  cases writer with
  | done => exact .inl rfl
  | asleep =>
    -- told to exit, it would come back from `wait_for`
    exact .inr ⟨rfl, Bool.eq_false_of_not_eq_true fun hexit => Option.some_ne_none _ (hwake hexit)⟩
  | start => cases hopen
  | enter | woken => exact absurd hstep (lock_isSome hlist)
  | enterOver => exact absurd hstep (lock_isSome hover)
  | test timedOut =>
    refine absurd ?_ (writerStep_isSome (s := s) (.inl (congrArg DiffWriter.hasList hw)))
    exact threadStep_of_stuck hstuck (by rw [hw]; rfl) (e := .writer) trivial
  | leave diff => cases diff <;> cases hstep
  | got diff => cases diff <;> cases hstep
  | failed | aborted => cases hlive
  | loop | tail | setOver | notifyOver | log | leaveOver => cases hstep

/-- Behind `gen_diff` the main thread does not sleep for ever. -/
theorem Inv.main_ne_asleep : s.main ≠ .asleep := by
  intro hasleep
  obtain hdone | ⟨hwaits, -⟩ := hinv.writer_of_stuck hstuck hlive
  · -- the file is closed
    obtain hover | hnotify := hinv.mainAwake hasleep
    · have hsaid := hinv.said
      rw [hover, hdone] at hsaid
      cases hsaid
    · cases hdone.symm.trans hnotify
  · -- the tag is there, and the writer waits for it
    have htag := hinv.tag (congrArg DiffMain.waits hasleep)
    rw [hasleep] at htag
    obtain hlist | ⟨left, waits, hnotify⟩ := hinv.writerAwake hwaits
    · cases hinv.account with
      | running heq _ =>
        rw [heq, hwaits, hlist] at htag
        simp [DiffWriter.held, DiffMain.toPush] at htag
      | tagged _ hended =>
        rw [hwaits] at hended
        cases hended
    · cases hasleep.symm.trans hnotify

/-- With the locks free, the call has returned. -/
theorem Inv.main_of_stuck : s.main = .idle ∨ s.main = .gone := by
  obtain ⟨hlist, hover⟩ := hinv.free_of_stuck hstuck hlive
  have hawake := hinv.main_ne_asleep hstuck hlive
  have hwriter := hinv.writer_of_stuck hstuck hlive
  have hexit := hinv.exit
  have hstep : s.mainStep = none := threadStep_of_stuck hstuck hlive (e := .main) trivial
  unfold mainStep at hstep
  generalize s.main = main at hstep hawake hexit
  cases main with
  | idle => exact .inl rfl
  | gone => exact .inr rfl
  | asleep => exact absurd rfl hawake
  | send => exact absurd hstep (lock_isSome hlist)
  | enterWait | woken => exact absurd hstep (lock_isSome hover)
  | join =>
    -- told to exit, the writer does not sleep
    obtain hdone | ⟨-, hlive⟩ := hwriter
    · rw [hdone] at hstep
      cases hstep
    · cases hexit.symm.trans hlive
  | testOver => cases hover' : s.contentOver <;> rw [hover'] at hstep <;> cases hstep
  | push | notify | leave | leaveWait => cases hstep

end

/-- The threads at rest. -/
inductive AtRest (g : Log ρ) (s : WriteDown ρ) : Prop
  /-- The call has returned, and no row is left behind. -/
  | returned (hmain : s.main = .idle) (hhanded : g.handed = rowsUpTo g.calls)
  | destroyed (hmain : s.main = .gone) (hwriter : s.writer = .done)

theorem Inv.atRest_of_stuck (hinv : Inv (log h) s) (hstuck : Stuck s)
    (hlive : s.writer.panicked = false) : AtRest (log h) s := by
  obtain hidle | hgone := hinv.main_of_stuck hstuck hlive
  · refine .returned hidle ?_
    obtain hdone | ⟨hasleep, -⟩ := hinv.writer_of_stuck hstuck hlive
    · cases hinv.account with
      | running _ hexit =>
        -- only the destructor ends the loop without the tag
        have hdestroyed := hinv.exit.symm.trans (hexit (congrArg DiffWriter.ended hdone))
        rw [hidle] at hdestroyed
        cases hdestroyed
      | tagged heq _ => exact hinv.handed_eq heq
    · cases hinv.account with
      | running heq _ =>
        -- the list is empty, so every row has come through
        obtain hlist | ⟨left, waits, hnotify⟩ := hinv.writerAwake hasleep
        · rw [← untilTag_given, hinv.given, heq, hidle, hasleep, hlist]
          show (log h).handed = untilTag ((_ ++ []) ++ [])
          rw [List.append_assoc, untilTag_map_append]
          exact (List.append_nil _).symm
        · cases hidle.symm.trans hnotify
      | tagged _ hended =>
        rw [hasleep] at hended
        cases hended
  · exact .destroyed hgone (hinv.joined hgone)

/-- An assertion has failed, and the process has ended. -/
inductive Panicked (g : Log ρ) (s : WriteDown ρ) : Prop
  /-- The file could not be opened. -/
  | file (hwriter : s.writer = .failed)
  /-- The next of the rows has no task. -/
  | row {row : SentRow ρ} (hwriter : s.writer = .aborted row) (htask : row.hasTask = false)
      (hnext : g.handed ++ [row] <+: rowsUpTo g.calls)

theorem Inv.panicked (hinv : Inv (log h) s) (hpanic : s.writer.panicked = true) :
    Panicked (log h) s := by
  generalize hw : s.writer = writer at hpanic
  cases writer with
  | failed => exact .file hw
  | aborted row =>
    refine .row hw (hinv.aborted row hw) ?_
    cases hinv.account with
    | running heq _ =>
      have hrow : (log h).pushed = ((log h).handed ++ [row]).map some ++ s.writeDownList := by
        rw [heq, hw, List.map_append, List.append_assoc]
        rfl
      rw [← untilTag_given, hinv.given, hrow, List.append_assoc, untilTag_map_append]
      exact List.prefix_append _ _
    | tagged _ hended =>
      rw [hw] at hended
      cases hended
  | _ => cases hpanic

/-- **No wakeup is lost and nothing deadlocks.** From any reached state on, and in whatever
order, the call that was made and the writer take finitely many steps. Where they can take no
other, an assertion has failed, or the call has returned and every row that was sent up to the
end of the first `gen_diff` has come through `write_down`, or the object is destroyed and the
writer has returned. -/
theorem writer_comes_to_rest (hr : machine.Reach h s) :
    Acc InternalStep s ∧ (Stuck s → Panicked (log h) s ∨ AtRest (log h) s) := by
  refine ⟨wellFounded_internalStep.apply s, fun hstuck => ?_⟩
  cases hlive : s.writer.panicked with
  | true => exact .inl ((inv_of_reach hr).panicked hlive)
  | false => exact .inr ((inv_of_reach hr).atRest_of_stuck hstuck hlive)

/-- The writer sleeps when it has handed on the row. -/
theorem writer_comes_to_rest_asleep :
    ∃ (h : List (Event Nat × Output Nat)) (s : WriteDown Nat), machine.Reach h s ∧
      Acc InternalStep s ∧ AtRest (log h) s ∧ (log h).handed = [⟨1, true⟩] := by
  obtain ⟨h, s, hrun, hwriter, hmain, hexit, hlist, hhanded⟩ : ∃ h s,
      (machine (ρ := Nat)).run? ([.opened true, .writer, .writer, .writer,
        .call (.sendDiff ⟨1, true⟩)] ++ List.replicate 4 .main ++ List.replicate 7 .writer) =
          some (h, s) ∧
      s.writer = .asleep ∧ s.main = .idle ∧ s.exit = false ∧ s.writeDownList = [] ∧
      (log h).handed = [⟨1, true⟩] := ⟨_, _, rfl, rfl, rfl, rfl, rfl, rfl⟩
  have hr : machine.Reach h s := by simpa using Machine.Reach.runFrom? .init hrun
  have hlive : s.writer.panicked = false := congrArg DiffWriter.panicked hwriter
  have hstuck : Stuck s := by
    intro e he
    rw [step_of_not_panicked hlive]
    cases e with
    | main =>
      show s.mainStep = none
      unfold mainStep
      rw [hmain]
    | writer =>
      show s.writerStep = none
      unfold writerStep
      rw [hwriter]
    | opened success =>
      show s.openStep success = none
      unfold openStep
      rw [hwriter]
    | timeout => cases hexit.symm.trans he
    | call | spurious => exact he.elim
  obtain ⟨hacc, hrest⟩ := writer_comes_to_rest hr
  refine ⟨h, s, hr, hacc, (hrest hstuck).resolve_left ?_, hhanded⟩
  rintro (hfile | ⟨hrow, -, -⟩)
  · cases hwriter.symm.trans hfile
  · cases hwriter.symm.trans hrow

end WriteDown

end Wfrest
