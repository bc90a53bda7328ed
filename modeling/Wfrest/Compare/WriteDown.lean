import Wfrest.Lib.Mutex
import Wfrest.Lib.Run

/-!
# Writing the differences down

The main thread sends the rows that differ to a thread of `dc_diff_hash_t`, which hands them to
`write_down` with the file it has opened. `gen_diff` sends the rows that are left and behind them
a row with `r_exit_tag`, and waits until the writer says that the file is closed.

`write_down` only has its assertions so far, one of which is that the row points to its task. An
assertion that fails ends the process.

The threads share two locks with a condition each. Every step here is one that the code takes
between two of them: a lock, a test, an access to the list, a notification, the end of a
`unique_lock`.

* `MainMove`, `WriterMove`, `Locks` and `Unlocks` list the steps of either thread, each with the
  state before and behind it.
* `step_cases` says that there is no other step.
-/

namespace Wfrest

/-- The threads. -/
inductive DiffThread
  | main
  | writer
deriving DecidableEq

/-- A `dc_diff_row_t` that is sent, with its content, and whether `r_task` is set. -/
structure SentRow (ρ : Type) where
  content : ρ
  hasTask : Bool

/-- A call of the main thread. The rows of `genDiff` are those that `do_flush_hash_map` sends. -/
inductive DiffCall (ρ : Type)
  | sendDiff (row : SentRow ρ)
  | genDiff (rows : List (SentRow ρ))
  | destroy

/-- Where the main thread stands. In a call it has `left` to send, and `waits` says whether it
waits behind that. A row without content is the one with `r_exit_tag`. -/
inductive DiffMain (ρ : Type)
  | idle
  /-- `send_diff`, before its lock. -/
  | send (diff : Option (SentRow ρ)) (left : List (Option (SentRow ρ))) (waits : Bool)
  | push (diff : Option (SentRow ρ)) (left : List (Option (SentRow ρ))) (waits : Bool)
  | notify (left : List (Option (SentRow ρ))) (waits : Bool)
  /-- Before the `unique_lock` ends. -/
  | leave (left : List (Option (SentRow ρ))) (waits : Bool)
  /-- `wait_write_content_over`, before its lock. -/
  | enterWait
  | testOver
  | asleep
  /-- It has been woken, and wants the lock. -/
  | woken
  /-- Before the `unique_lock` ends. -/
  | leaveWait
  /-- The destructor, at `join`. -/
  | join
  /-- The object is destroyed. -/
  | gone

/-- Where `thd_write_down` stands. -/
inductive DiffWriter (ρ : Type)
  | start
  /-- At the head of the loop. -/
  | loop
  /-- `pop_diff`, before its lock. -/
  | enter
  /-- The test of `wait_for`. The last one has `timedOut`. -/
  | test (timedOut : Bool)
  | asleep
  | woken (timedOut : Bool)
  /-- Before the `unique_lock` ends, with what `pop_diff` returns. -/
  | leave (diff : Option (Option (SentRow ρ)))
  | got (diff : Option (SentRow ρ))
  /-- Behind the loop. -/
  | tail
  /-- `notify_write_content_over`, before its lock. -/
  | enterOver
  | setOver
  | notifyOver
  /-- At `LOG`, which reads the task. -/
  | log
  /-- Before the `unique_lock` ends. -/
  | leaveOver
  | done
  /-- The file could not be opened. -/
  | failed
  /-- In `write_down`, at the assertion that the row has its task. -/
  | aborted (row : SentRow ρ)

namespace DiffMain

variable {ρ : Type}

/-- What follows when `left` is left to send. -/
def next : List (Option (SentRow ρ)) → Bool → DiffMain ρ
  | diff :: left, waits => .send diff left waits
  | [], true => .enterWait
  | [], false => .idle

/-- What `notify_one` does to it. -/
def notified : DiffMain ρ → DiffMain ρ
  | .asleep => .woken
  | main => main

/-- Does it hold the lock of the list? -/
def hasList : DiffMain ρ → Bool
  | .push .. => true
  | .notify .. => true
  | .leave .. => true
  | _ => false

/-- Does it hold the other one? -/
def hasOver : DiffMain ρ → Bool
  | .testOver => true
  | .leaveWait => true
  | _ => false

/-- What it has left to push. -/
def toPush : DiffMain ρ → List (Option (SentRow ρ))
  | .send diff left _ => diff :: left
  | .push diff left _ => diff :: left
  | .notify left _ => left
  | .leave left _ => left
  | _ => []

/-- Does it wait, or is it to wait behind what it sends? -/
def waits : DiffMain ρ → Bool
  | .send _ _ waits => waits
  | .push _ _ waits => waits
  | .notify _ waits => waits
  | .leave _ waits => waits
  | .enterWait => true
  | .testOver => true
  | .asleep => true
  | .woken => true
  | .leaveWait => true
  | _ => false

/-- Is the object being destroyed? -/
def destroyed : DiffMain ρ → Bool
  | .join => true
  | .gone => true
  | _ => false

end DiffMain

namespace DiffWriter

variable {ρ : Type}

/-- What `notify_one` does to it. -/
def notified : DiffWriter ρ → DiffWriter ρ
  | .asleep => .woken false
  | writer => writer

/-- Does it hold the lock of the list? -/
def hasList : DiffWriter ρ → Bool
  | .test _ => true
  | .leave _ => true
  | _ => false

/-- Does it hold the other one? -/
def hasOver : DiffWriter ρ → Bool
  | .setOver => true
  | .notifyOver => true
  | .log => true
  | .leaveOver => true
  | _ => false

/-- What it has popped, and `write_down` has not taken. -/
def held : DiffWriter ρ → List (Option (SentRow ρ))
  | .leave (some diff) => [diff]
  | .got diff => [diff]
  | .aborted row => [some row]
  | _ => []

/-- Has an assertion failed? -/
def panicked : DiffWriter ρ → Bool
  | .failed => true
  | .aborted _ => true
  | _ => false

/-- Is it behind the loop? -/
def ended : DiffWriter ρ → Bool
  | .tail => true
  | .enterOver => true
  | .setOver => true
  | .notifyOver => true
  | .log => true
  | .leaveOver => true
  | .done => true
  | _ => false

/-- Has it said that the file is closed? -/
def said : DiffWriter ρ → Bool
  | .notifyOver => true
  | .log => true
  | .leaveOver => true
  | .done => true
  | _ => false

end DiffWriter

/-- `dc_diff_hash_t` with its two threads. -/
structure WriteDown (ρ : Type) where
  writeDownList : List (Option (SentRow ρ))
  listMutex : Mutex DiffThread
  /-- `thd_write_down_exit_` -/
  exit : Bool
  /-- `thd_content_write_over_` -/
  contentOver : Bool
  overMutex : Mutex DiffThread
  main : DiffMain ρ
  writer : DiffWriter ρ

namespace WriteDown

variable {ρ : Type}

inductive Event (ρ : Type)
  | call (c : DiffCall ρ)
  | main
  | writer
  /-- `fopen` -/
  | opened (success : Bool)
  /-- `wait_for` comes to its end. -/
  | timeout
  /-- A wait returns without a notification. -/
  | spurious (thread : DiffThread)

/-- What a step shows. -/
inductive Output (ρ : Type)
  | quiet
  | pushed (diff : Option (SentRow ρ))
  /-- The row has come through `write_down`. -/
  | handed (row : SentRow ρ)
  /-- `gen_diff` has returned. -/
  | generated

def goMain (s : WriteDown ρ) (main : DiffMain ρ) : WriteDown ρ := { s with main := main }

def goWriter (s : WriteDown ρ) (writer : DiffWriter ρ) : WriteDown ρ :=
  { s with writer := writer }

/-- A call is made. -/
def callStep (s : WriteDown ρ) (c : DiffCall ρ) : Option (WriteDown ρ × Output ρ) :=
  match s.main, c with
  | .idle, .sendDiff row => some (s.goMain (.next [some row] false), .quiet)
  | .idle, .genDiff rows => some (s.goMain (.next (rows.map some ++ [none]) true), .quiet)
  | .idle, .destroy => some ({ s with exit := true, main := .join }, .quiet)
  | _, _ => none

/-- `send_diff`, `wait_write_content_over` and the destructor. -/
def mainStep (s : WriteDown ρ) : Option (WriteDown ρ × Output ρ) :=
  match s.main with
  | .send diff left waits =>
    (s.listMutex.lock? .main).map fun m =>
      ({ s with listMutex := m, main := .push diff left waits }, .quiet)
  | .push diff left waits =>
    some ({ s with writeDownList := s.writeDownList ++ [diff], main := .notify left waits },
      .pushed diff)
  | .notify left waits =>
    some ({ s with writer := s.writer.notified, main := .leave left waits }, .quiet)
  | .leave left waits => some ({ s with listMutex := .free, main := .next left waits }, .quiet)
  | .enterWait =>
    (s.overMutex.lock? .main).map fun m => ({ s with overMutex := m, main := .testOver }, .quiet)
  | .testOver =>
    if s.contentOver then some (s.goMain .leaveWait, .quiet)
    -- `wait` gives the lock back and sleeps in one step
    else some ({ s with overMutex := .free, main := .asleep }, .quiet)
  | .woken =>
    (s.overMutex.lock? .main).map fun m => ({ s with overMutex := m, main := .testOver }, .quiet)
  | .leaveWait => some ({ s with overMutex := .free, main := .idle }, .generated)
  | .join =>
    -- the destructor has set `thd_write_down_exit_` without a lock
    match s.writer with
    | .done => some (s.goMain .gone, .quiet)
    | _ => none
  | .idle => none
  | .asleep => none
  | .gone => none

/-- `thd_write_down`, with `pop_diff` and `notify_write_content_over`. -/
def writerStep (s : WriteDown ρ) : Option (WriteDown ρ × Output ρ) :=
  match s.writer with
  | .loop => some (s.goWriter (if s.exit then .tail else .enter), .quiet)
  | .enter =>
    (s.listMutex.lock? .writer).map fun m =>
      ({ s with listMutex := m, writer := .test false }, .quiet)
  | .woken timedOut =>
    (s.listMutex.lock? .writer).map fun m =>
      ({ s with listMutex := m, writer := .test timedOut }, .quiet)
  | .test timedOut =>
    -- the predicate of `wait_for`, and the test behind it, under one lock
    match s.writeDownList with
    | diff :: rest =>
      some ({ s with writeDownList := rest, writer := .leave (some diff) }, .quiet)
    | [] =>
      if timedOut then some (s.goWriter (.leave none), .quiet)
      else some ({ s with listMutex := .free, writer := .asleep }, .quiet)
  | .leave none => some ({ s with listMutex := .free, writer := .loop }, .quiet)
  | .leave (some diff) => some ({ s with listMutex := .free, writer := .got diff }, .quiet)
  | .got (some row) =>
    -- `DC_COMMON_ASSERT(diff->r_task != nullptr)`
    some (if row.hasTask then (s.goWriter .loop, .handed row)
      else (s.goWriter (.aborted row), .quiet))
  | .got none => some (s.goWriter .tail, .quiet)
  -- `write_json_tail` and `fclose`
  | .tail => some (s.goWriter .enterOver, .quiet)
  | .enterOver =>
    (s.overMutex.lock? .writer).map fun m => ({ s with overMutex := m, writer := .setOver }, .quiet)
  | .setOver => some ({ s with contentOver := true, writer := .notifyOver }, .quiet)
  | .notifyOver => some ({ s with main := s.main.notified, writer := .log }, .quiet)
  | .log => some (s.goWriter .leaveOver, .quiet)
  | .leaveOver => some ({ s with overMutex := .free, writer := .done }, .quiet)
  | .start => none
  | .asleep => none
  | .done => none
  | .failed => none
  | .aborted _ => none

/-- The first part of `thd_write_down`. An assertion fails where the file cannot be opened. -/
def openStep (s : WriteDown ρ) (success : Bool) : Option (WriteDown ρ × Output ρ) :=
  match s.writer with
  | .start => some (s.goWriter (if success then .loop else .failed), .quiet)
  | _ => none

/-- The writer wakes up by itself. -/
def wakeStep (s : WriteDown ρ) (timedOut : Bool) : Option (WriteDown ρ × Output ρ) :=
  match s.writer with
  | .asleep => some (s.goWriter (.woken timedOut), .quiet)
  | _ => none

/-- The main thread wakes up by itself. -/
def wakeMainStep (s : WriteDown ρ) : Option (WriteDown ρ × Output ρ) :=
  match s.main with
  | .asleep => some (s.goMain .woken, .quiet)
  | _ => none

/-- A step of one of the threads. -/
def threadStep (s : WriteDown ρ) : Event ρ → Option (WriteDown ρ × Output ρ)
  | .call c => s.callStep c
  | .main => s.mainStep
  | .writer => s.writerStep
  | .opened success => s.openStep success
  | .timeout => s.wakeStep true
  | .spurious .writer => s.wakeStep false
  | .spurious .main => s.wakeMainStep

/-- One step. After a failed assertion there is none. -/
def step (s : WriteDown ρ) (e : Event ρ) : Option (WriteDown ρ × Output ρ) :=
  if s.writer.panicked then none else s.threadStep e

/-- The object as it is constructed. -/
def start : WriteDown ρ := ⟨[], .free, false, false, .free, .idle, .start⟩

/-- The two threads, step by step. -/
def machine : Machine (WriteDown ρ) (Event ρ) (Output ρ) where
  init := start
  step := step

/-! ### What a step can do -/

variable {s s' : WriteDown ρ} {e : Event ρ} {o : Output ρ}

/-- The steps of the main thread that leave both locks alone. -/
inductive MainMove : WriteDown ρ → Event ρ → Output ρ → WriteDown ρ → Prop
  | sends {l m x v n writer row} :
      MainMove ⟨l, m, x, v, n, .idle, writer⟩ (.call (.sendDiff row)) .quiet
        ⟨l, m, x, v, n, .send (some row) [] false, writer⟩
  | gens {l m x v n writer rows} :
      MainMove ⟨l, m, x, v, n, .idle, writer⟩ (.call (.genDiff rows)) .quiet
        ⟨l, m, x, v, n, .next (rows.map some ++ [none]) true, writer⟩
  | destroys {l m x v n writer} : MainMove ⟨l, m, x, v, n, .idle, writer⟩ (.call .destroy) .quiet
      ⟨l, m, true, v, n, .join, writer⟩
  | pushed {l m x v n writer diff left waits} :
      MainMove ⟨l, m, x, v, n, .push diff left waits, writer⟩ .main (.pushed diff)
        ⟨l ++ [diff], m, x, v, n, .notify left waits, writer⟩
  | notified {l m x v n writer left waits} :
      MainMove ⟨l, m, x, v, n, .notify left waits, writer⟩ .main .quiet
        ⟨l, m, x, v, n, .leave left waits, writer.notified⟩
  | sawOver {l m x n writer} : MainMove ⟨l, m, x, true, n, .testOver, writer⟩ .main .quiet
      ⟨l, m, x, true, n, .leaveWait, writer⟩
  | woken {l m x v n writer} : MainMove ⟨l, m, x, v, n, .asleep, writer⟩ (.spurious .main) .quiet
      ⟨l, m, x, v, n, .woken, writer⟩
  | joined {l m x v n} : MainMove ⟨l, m, x, v, n, .join, .done⟩ .main .quiet
      ⟨l, m, x, v, n, .gone, .done⟩

/-- The steps of the writer that leave both locks alone. -/
inductive WriterMove : WriteDown ρ → Event ρ → Output ρ → WriteDown ρ → Prop
  | opened {l m x v n main} : WriterMove ⟨l, m, x, v, n, main, .start⟩ (.opened true) .quiet
      ⟨l, m, x, v, n, main, .loop⟩
  | failed {l m x v n main} : WriterMove ⟨l, m, x, v, n, main, .start⟩ (.opened false) .quiet
      ⟨l, m, x, v, n, main, .failed⟩
  | again {l m v n main} : WriterMove ⟨l, m, false, v, n, main, .loop⟩ .writer .quiet
      ⟨l, m, false, v, n, main, .enter⟩
  | exits {l m v n main} : WriterMove ⟨l, m, true, v, n, main, .loop⟩ .writer .quiet
      ⟨l, m, true, v, n, main, .tail⟩
  | popped {l m x v n main diff timedOut} :
      WriterMove ⟨diff :: l, m, x, v, n, main, .test timedOut⟩ .writer .quiet
        ⟨l, m, x, v, n, main, .leave (some diff)⟩
  | gaveUp {m x v n main} : WriterMove ⟨[], m, x, v, n, main, .test true⟩ .writer .quiet
      ⟨[], m, x, v, n, main, .leave none⟩
  | timeout {l m x v n main} : WriterMove ⟨l, m, x, v, n, main, .asleep⟩ .timeout .quiet
      ⟨l, m, x, v, n, main, .woken true⟩
  | spurious {l m x v n main} : WriterMove ⟨l, m, x, v, n, main, .asleep⟩ (.spurious .writer) .quiet
      ⟨l, m, x, v, n, main, .woken false⟩
  | handed {l m x v n main row} (htask : row.hasTask = true) :
      WriterMove ⟨l, m, x, v, n, main, .got (some row)⟩ .writer (.handed row)
        ⟨l, m, x, v, n, main, .loop⟩
  | aborted {l m x v n main row} (htask : row.hasTask = false) :
      WriterMove ⟨l, m, x, v, n, main, .got (some row)⟩ .writer .quiet
        ⟨l, m, x, v, n, main, .aborted row⟩
  | tagged {l m x v n main} : WriterMove ⟨l, m, x, v, n, main, .got none⟩ .writer .quiet
      ⟨l, m, x, v, n, main, .tail⟩
  | closed {l m x v n main} : WriterMove ⟨l, m, x, v, n, main, .tail⟩ .writer .quiet
      ⟨l, m, x, v, n, main, .enterOver⟩
  | setsOver {l m x v n main} : WriterMove ⟨l, m, x, v, n, main, .setOver⟩ .writer .quiet
      ⟨l, m, x, true, n, main, .notifyOver⟩
  | notified {l m x v n main} : WriterMove ⟨l, m, x, v, n, main, .notifyOver⟩ .writer .quiet
      ⟨l, m, x, v, n, main.notified, .log⟩
  | logged {l m x v n main} : WriterMove ⟨l, m, x, v, n, main, .log⟩ .writer .quiet
      ⟨l, m, x, v, n, main, .leaveOver⟩

/-- The steps that take a lock. -/
inductive Locks : WriteDown ρ → Event ρ → WriteDown ρ → Prop
  | mainList {l x v n writer diff left waits} :
      Locks ⟨l, .free, x, v, n, .send diff left waits, writer⟩ .main
        ⟨l, ⟨some .main⟩, x, v, n, .push diff left waits, writer⟩
  | mainOver {l m x v writer} : Locks ⟨l, m, x, v, .free, .enterWait, writer⟩ .main
      ⟨l, m, x, v, ⟨some .main⟩, .testOver, writer⟩
  | mainWoken {l m x v writer} : Locks ⟨l, m, x, v, .free, .woken, writer⟩ .main
      ⟨l, m, x, v, ⟨some .main⟩, .testOver, writer⟩
  | writerList {l x v n main} : Locks ⟨l, .free, x, v, n, main, .enter⟩ .writer
      ⟨l, ⟨some .writer⟩, x, v, n, main, .test false⟩
  | writerWoken {l x v n main timedOut} : Locks ⟨l, .free, x, v, n, main, .woken timedOut⟩ .writer
      ⟨l, ⟨some .writer⟩, x, v, n, main, .test timedOut⟩
  | writerOver {l m x v main} : Locks ⟨l, m, x, v, .free, main, .enterOver⟩ .writer
      ⟨l, m, x, v, ⟨some .writer⟩, main, .setOver⟩

/-- The steps that give one back. -/
inductive Unlocks : WriteDown ρ → Event ρ → Output ρ → WriteDown ρ → Prop
  | mainList {l m x v n writer left waits} :
      Unlocks ⟨l, m, x, v, n, .leave left waits, writer⟩ .main .quiet
        ⟨l, .free, x, v, n, .next left waits, writer⟩
  | mainWaits {l m x n writer} : Unlocks ⟨l, m, x, false, n, .testOver, writer⟩ .main .quiet
      ⟨l, m, x, false, .free, .asleep, writer⟩
  | mainOver {l m x v n writer} : Unlocks ⟨l, m, x, v, n, .leaveWait, writer⟩ .main .generated
      ⟨l, m, x, v, .free, .idle, writer⟩
  | writerWaits {m x v n main} : Unlocks ⟨[], m, x, v, n, main, .test false⟩ .writer .quiet
      ⟨[], .free, x, v, n, main, .asleep⟩
  | writerEmpty {l m x v n main} : Unlocks ⟨l, m, x, v, n, main, .leave none⟩ .writer .quiet
      ⟨l, .free, x, v, n, main, .loop⟩
  | writerList {l m x v n main diff} :
      Unlocks ⟨l, m, x, v, n, main, .leave (some diff)⟩ .writer .quiet
        ⟨l, .free, x, v, n, main, .got diff⟩
  | writerOver {l m x v n main} : Unlocks ⟨l, m, x, v, n, main, .leaveOver⟩ .writer .quiet
      ⟨l, m, x, v, .free, main, .done⟩

/-- What a step can do. -/
inductive StepCase (s : WriteDown ρ) (e : Event ρ) (o : Output ρ) (s' : WriteDown ρ) : Prop
  | main (h : MainMove s e o s')
  | writer (h : WriterMove s e o s')
  | locks (h : Locks s e s') (ho : o = .quiet)
  | unlocks (h : Unlocks s e o s')

/-- Who takes a free lock holds it. -/
theorem lock_cases {m : Mutex DiffThread} {p : DiffThread} {f : Mutex DiffThread → WriteDown ρ}
    (h : (m.lock? p).map (fun m => (f m, Output.quiet)) = some (s', o)) :
    m = .free ∧ s' = f ⟨some p⟩ ∧ o = .quiet := by
  obtain ⟨m', hm, heq⟩ := Option.map_eq_some_iff.mp h
  obtain ⟨hfree, rfl⟩ := Mutex.lock?_eq_some hm
  obtain ⟨rfl, rfl⟩ := Prod.mk.inj heq
  refine ⟨?_, rfl, rfl⟩
  obtain ⟨holder⟩ := m
  exact congrArg Mutex.mk hfree

theorem callStep_cases {c : DiffCall ρ} (h : s.callStep c = some (s', o)) :
    MainMove s (.call c) o s' := by
  obtain ⟨l, m, x, v, n, main, writer⟩ := s
  cases main with
  | idle =>
    cases c with
    | sendDiff row =>
      obtain ⟨rfl, rfl⟩ := Prod.mk.inj (Option.some.inj h)
      exact .sends
    | genDiff rows =>
      obtain ⟨rfl, rfl⟩ := Prod.mk.inj (Option.some.inj h)
      exact .gens
    | destroy =>
      obtain ⟨rfl, rfl⟩ := Prod.mk.inj (Option.some.inj h)
      exact .destroys
  | _ => cases h

theorem mainStep_cases (h : s.mainStep = some (s', o)) : StepCase s .main o s' := by
  obtain ⟨l, m, x, v, n, main, writer⟩ := s
  cases main with
  | send diff left waits =>
    obtain ⟨rfl, rfl, rfl⟩ := lock_cases h
    exact .locks .mainList rfl
  | push diff left waits =>
    obtain ⟨rfl, rfl⟩ := Prod.mk.inj (Option.some.inj h)
    exact .main .pushed
  | notify left waits =>
    obtain ⟨rfl, rfl⟩ := Prod.mk.inj (Option.some.inj h)
    exact .main .notified
  | leave left waits =>
    obtain ⟨rfl, rfl⟩ := Prod.mk.inj (Option.some.inj h)
    exact .unlocks .mainList
  | enterWait =>
    obtain ⟨rfl, rfl, rfl⟩ := lock_cases h
    exact .locks .mainOver rfl
  | testOver =>
    cases v with
    | true =>
      obtain ⟨rfl, rfl⟩ := Prod.mk.inj (Option.some.inj h)
      exact .main .sawOver
    | false =>
      obtain ⟨rfl, rfl⟩ := Prod.mk.inj (Option.some.inj h)
      exact .unlocks .mainWaits
  | woken =>
    obtain ⟨rfl, rfl, rfl⟩ := lock_cases h
    exact .locks .mainWoken rfl
  | leaveWait =>
    obtain ⟨rfl, rfl⟩ := Prod.mk.inj (Option.some.inj h)
    exact .unlocks .mainOver
  | join =>
    cases writer with
    | done =>
      obtain ⟨rfl, rfl⟩ := Prod.mk.inj (Option.some.inj h)
      exact .main .joined
    | _ => cases h
  | idle | asleep | gone => cases h

theorem writerStep_cases (h : s.writerStep = some (s', o)) : StepCase s .writer o s' := by
  obtain ⟨l, m, x, v, n, main, writer⟩ := s
  cases writer with
  | loop =>
    obtain ⟨rfl, rfl⟩ := Prod.mk.inj (Option.some.inj h)
    cases x with
    | true => exact .writer .exits
    | false => exact .writer .again
  | enter =>
    obtain ⟨rfl, rfl, rfl⟩ := lock_cases h
    exact .locks .writerList rfl
  | woken timedOut =>
    obtain ⟨rfl, rfl, rfl⟩ := lock_cases h
    exact .locks .writerWoken rfl
  | test timedOut =>
    cases l with
    | cons diff rest =>
      obtain ⟨rfl, rfl⟩ := Prod.mk.inj (Option.some.inj h)
      exact .writer .popped
    | nil =>
      cases timedOut with
      | true =>
        obtain ⟨rfl, rfl⟩ := Prod.mk.inj (Option.some.inj h)
        exact .writer .gaveUp
      | false =>
        obtain ⟨rfl, rfl⟩ := Prod.mk.inj (Option.some.inj h)
        exact .unlocks .writerWaits
  | leave diff =>
    cases diff with
    | none =>
      obtain ⟨rfl, rfl⟩ := Prod.mk.inj (Option.some.inj h)
      exact .unlocks .writerEmpty
    | some diff =>
      obtain ⟨rfl, rfl⟩ := Prod.mk.inj (Option.some.inj h)
      exact .unlocks .writerList
  | got diff =>
    cases diff with
    | none =>
      obtain ⟨rfl, rfl⟩ := Prod.mk.inj (Option.some.inj h)
      exact .writer .tagged
    | some row =>
      have heq := Option.some.inj h
      split_ifs at heq with htask
      · obtain ⟨rfl, rfl⟩ := Prod.mk.inj heq
        exact .writer (.handed htask)
      · obtain ⟨rfl, rfl⟩ := Prod.mk.inj heq
        exact .writer (.aborted (Bool.eq_false_iff.mpr htask))
  | tail =>
    obtain ⟨rfl, rfl⟩ := Prod.mk.inj (Option.some.inj h)
    exact .writer .closed
  | enterOver =>
    obtain ⟨rfl, rfl, rfl⟩ := lock_cases h
    exact .locks .writerOver rfl
  | setOver =>
    obtain ⟨rfl, rfl⟩ := Prod.mk.inj (Option.some.inj h)
    exact .writer .setsOver
  | notifyOver =>
    obtain ⟨rfl, rfl⟩ := Prod.mk.inj (Option.some.inj h)
    exact .writer .notified
  | log =>
    obtain ⟨rfl, rfl⟩ := Prod.mk.inj (Option.some.inj h)
    exact .writer .logged
  | leaveOver =>
    obtain ⟨rfl, rfl⟩ := Prod.mk.inj (Option.some.inj h)
    exact .unlocks .writerOver
  | start | asleep | done | failed | aborted => cases h

theorem threadStep_cases (h : s.threadStep e = some (s', o)) : StepCase s e o s' := by
  cases e with
  | call c => exact .main (callStep_cases h)
  | main => exact mainStep_cases h
  | writer => exact writerStep_cases h
  | opened success =>
    obtain ⟨l, m, x, v, n, main, writer⟩ := s
    cases writer with
    | start =>
      obtain ⟨rfl, rfl⟩ := Prod.mk.inj (Option.some.inj h)
      cases success with
      | true => exact .writer .opened
      | false => exact .writer .failed
    | _ => cases h
  | timeout =>
    obtain ⟨l, m, x, v, n, main, writer⟩ := s
    cases writer with
    | asleep =>
      obtain ⟨rfl, rfl⟩ := Prod.mk.inj (Option.some.inj h)
      exact .writer .timeout
    | _ => cases h
  | spurious thread =>
    obtain ⟨l, m, x, v, n, main, writer⟩ := s
    cases thread with
    | main =>
      cases main with
      | asleep =>
        obtain ⟨rfl, rfl⟩ := Prod.mk.inj (Option.some.inj h)
        exact .main .woken
      | _ => cases h
    | writer =>
      cases writer with
      | asleep =>
        obtain ⟨rfl, rfl⟩ := Prod.mk.inj (Option.some.inj h)
        exact .writer .spurious
      | _ => cases h

theorem step_of_not_panicked (hw : s.writer.panicked = false) : s.step e = s.threadStep e :=
  if_neg (ne_true_of_eq_false hw)

/-- **What a step can do.** -/
theorem step_cases (h : s.step e = some (s', o)) :
    s.writer.panicked = false ∧ StepCase s e o s' := by
  unfold step at h
  split_ifs at h with hw
  exact ⟨Bool.eq_false_iff.mpr hw, threadStep_cases h⟩

end WriteDown

end Wfrest
