import Wfrest.Form.MultiPart
import Wfrest.Form.ParserBounds

/-!
# Feeding the multipart parser in pieces

`multipart_parser_execute` may be called again with the next piece of a body. At the end of
a buffer it hands out what it has of a header name, a header value or part data, and the
rest of it at the end of the next one (`owed`). What may be the delimiter is kept in
`lookbehind`, so a delimiter may be cut anywhere.

So the callbacks see the pieces of a text instead of the text. If they append
(`AppendsText`), the cut makes no difference, with one exception: the parser drops a header
name when its line ends without a colon, and of a name that is cut it has handed out the
first part by then. A body may be cut everywhere but in a header name
(`feed_eq_multipartParserExecute`).
-/

namespace Wfrest

namespace MultipartParser

variable {σ : Type} (cb : MultipartParserSettings σ)

/-! ### The end of a buffer -/

/-- The callback for the bytes from `mark` on, which a buffer owes at its end. -/
def owed (st : ParserState) (marked : Bytes) : σ → Except StdException σ :=
  match st with
  | .s_header_field => cb.onHeaderField marked
  | .s_header_value => cb.onHeaderValue marked
  | .s_part_data => cb.onPartData marked
  | _ => .ok

/-- What a round does more when its byte is the last one of the buffer. -/
def settle (r : Move × Scan σ) : Except StdException (Move × Scan σ) :=
  match r.1 with
  | .next => r.2.call (owed cb r.2.parser.state r.2.marked) >>= fun s => .ok (.next, s)
  | _ => .ok r

variable {cb} {s s' : Scan σ} {c : UInt8}

theorem settle_next (s : Scan σ) (h : owed cb s.parser.state s.marked = .ok) :
    settle cb (.next, s) = .ok (.next, s) := by
  unfold settle Scan.call
  dsimp only
  rw [h]
  rfl

/-- A round that calls a callback and goes on to a state that owes nothing. -/
theorem call_next_settle {f : σ → Except StdException σ} {g : Scan σ → Scan σ}
    (h : ∀ s m, owed cb (g s).parser.state m = .ok) :
    (s.call f >>= fun s => next (g s) c) =
      ((s.call f >>= fun s => next (g s) c) >>= settle cb) := by
  cases s.call f with
  | error e => rfl
  | ok s => exact (settle_next { g s with marked := (g s).marked ++ [c] } (h s _)).symm

/-- A round that stays in the state of a text. At the end of the buffer it hands out what it
has. -/
theorem next_settle {f : Bytes → σ → Except StdException σ}
    (h : owed cb s.parser.state = f) :
    (s.call (f (s.marked ++ [c])) >>= fun s => next s c) = (next s c >>= settle cb) := by
  show _ = settle cb (.next, { s with marked := s.marked ++ [c] })
  unfold settle Scan.call
  dsimp only
  rw [h]
  cases f (s.marked ++ [c]) s.data <;> rfl

theorem startBoundary_last (hst : s.parser.state = .s_start_boundary) :
    startBoundary cb s c = (startBoundary cb s c >>= settle cb) := by
  have howes : ∀ {m : Bytes}, owed cb s.parser.state m = .ok := by
    intro m
    rw [hst]
    rfl
  unfold startBoundary
  split_ifs
  · rfl
  · exact (settle_next { s.setIndex (s.parser.index + 1) with marked := s.marked ++ [c] } howes).symm
  · rfl
  · exact call_next_settle (g := fun s => s.goto .s_header_field_start) fun _ _ => rfl
  · rfl
  · exact (settle_next { s.setIndex (s.parser.index + 1) with marked := s.marked ++ [c] } howes).symm

theorem headerField_last (hst : s.parser.state = .s_header_field) :
    headerField cb s c true = (headerField cb s c false >>= settle cb) := by
  unfold headerField
  simp only [if_true, Bool.false_eq_true, if_false]
  split_ifs
  · have howes : owed cb (s.goto .s_headers_almost_done).parser.state (s.marked ++ [c]) = .ok := rfl
    exact (settle_next { s.goto .s_headers_almost_done with marked := s.marked ++ [c] } howes).symm
  · exact call_next_settle (g := fun s => s.goto .s_header_value_start) fun _ _ => rfl
  · rfl
  · exact next_settle (by rw [hst]; rfl)

theorem headerValue_last (hst : s.parser.state = .s_header_value) :
    headerValue cb s c true = (headerValue cb s c false >>= settle cb) := by
  unfold headerValue
  simp only [if_true, Bool.false_eq_true, if_false]
  split_ifs
  · exact call_next_settle (g := fun s => s.goto .s_header_value_almost_done) fun _ _ => rfl
  · exact next_settle (by rw [hst]; rfl)

theorem partData_last (hst : s.parser.state = .s_part_data) :
    partData cb s c true = (partData cb s c false >>= settle cb) := by
  unfold partData
  simp only [if_true, Bool.false_eq_true, if_false]
  split_ifs
  · exact call_next_settle
      (g := fun s => (s.setMark.goto .s_part_data_almost_boundary).setLookbehind 0 cr)
      fun _ _ => rfl
  · exact next_settle (by rw [hst]; rfl)

/-- A callback in front of a round. -/
theorem call_last {f : σ → Except StdException σ} {g : Scan σ → Scan σ}
    {r : Scan σ → Bool → Except StdException (Move × Scan σ)}
    (h : ∀ s, r (g s) true = (r (g s) false >>= settle cb)) :
    (s.call f >>= fun s => r (g s) true) =
      ((s.call f >>= fun s => r (g s) false) >>= settle cb) := by
  cases s.call f with
  | error e => rfl
  | ok s => exact h s

/-- **The last byte of a buffer** is read like any other, and then what is owed is handed
out. -/
theorem step_last (s : Scan σ) (c : UInt8) :
    step cb s c true = (step cb s c false >>= settle cb) := by
  have hskip : ∀ (s' : Scan σ), (∀ m, owed cb s'.parser.state m = .ok) →
      next s' c = (next s' c >>= settle cb) :=
    fun s' h => (settle_next { s' with marked := s'.marked ++ [c] } (h _)).symm
  unfold step
  cases hst : s.parser.state with
  | s_start => exact startBoundary_last rfl
  | s_start_boundary => exact startBoundary_last hst
  | s_header_field_start => exact headerField_last rfl
  | s_header_field => exact headerField_last hst
  | s_headers_almost_done =>
    dsimp only
    split_ifs
    · rfl
    · exact hskip _ fun _ => rfl
  | s_header_value_start =>
    dsimp only
    split_ifs
    · exact hskip _ fun _ => by rw [hst]; rfl
    · exact headerValue_last rfl
  | s_header_value => exact headerValue_last hst
  | s_header_value_almost_done =>
    dsimp only
    split_ifs
    · rfl
    · exact hskip _ fun _ => rfl
  | s_part_data_start =>
    exact call_last (g := fun s => s.setMark.goto .s_part_data)
      (r := fun s b => partData cb s c b) fun s => partData_last rfl
  | s_part_data => exact partData_last hst
  | s_part_data_almost_boundary =>
    dsimp only
    split_ifs
    · exact hskip _ fun _ => rfl
    · cases s.call (cb.onPartData (s.parser.lookbehind.take 1)) <;> rfl
  | s_part_data_boundary =>
    dsimp only [partDataBoundary, boundaryMatched]
    split_ifs
    · cases s.call (cb.onPartData (s.parser.lookbehind.take (2 + s.parser.index))) <;> rfl
    · exact call_next_settle (g := fun s => s.goto .s_part_data_almost_end) fun _ _ => rfl
    · refine hskip _ fun _ => ?_
      show owed cb s.parser.state _ = _
      rw [hst]
      rfl
  | s_part_data_almost_end =>
    dsimp only
    split_ifs
    · exact hskip _ fun _ => rfl
    · exact hskip _ fun _ => rfl
    · rfl
  | s_part_data_final_hyphen =>
    dsimp only
    split_ifs
    · exact call_next_settle (g := fun s => s.goto .s_end) fun _ _ => rfl
    · rfl
  | s_part_data_end =>
    dsimp only
    split_ifs
    · cases hcall : (s.goto .s_header_field_start).call cb.onPartDataBegin with
      | error e => rfl
      | ok s' =>
        have hstate : s'.parser.state = .s_header_field_start := by
          unfold Scan.call at hcall
          split at hcall
          · cases hcall
            rfl
          · cases hcall
        refine hskip s' fun _ => ?_
        rw [hstate]
        rfl
    · rfl
  | s_end =>
    refine hskip s fun _ => ?_
    rw [hst]
    rfl

/-! ### What is owed may be handed out before -/

/-- The states in which `mark` is used. -/
def Owes (st : ParserState) : Prop :=
  st = .s_header_field ∨ st = .s_header_value ∨ st = .s_part_data

instance : DecidablePred Owes := fun _ => inferInstanceAs (Decidable (_ ∨ _ ∨ _))

theorem owed_of_not_owes {st : ParserState} (h : ¬ Owes st) (m : Bytes) : owed cb st m = .ok := by
  cases st with
  | s_header_field => exact absurd (Or.inl rfl) h
  | s_header_value => exact absurd (Or.inr (Or.inl rfl)) h
  | s_part_data => exact absurd (Or.inr (Or.inr rfl)) h
  | _ => rfl

/-- Two rounds that differ in the bytes in front of the mark only, and forget them or do not
use them. -/
inductive Alike (m : Bytes) :
    Except StdException (Move × Scan σ) → Except StdException (Move × Scan σ) → Prop
  | same (x : Except StdException (Move × Scan σ)) : Alike m x x
  | next {p : MultipartParser} {k : Bytes} {d : σ} (h : ¬ Owes p.state) :
      Alike m (.ok (.next, ⟨p, m ++ k, d⟩)) (.ok (.next, ⟨p, k, d⟩))
  | stop {p : MultipartParser} {k : Bytes} {d : σ} :
      Alike m (.ok (.stop, ⟨p, m ++ k, d⟩)) (.ok (.stop, ⟨p, k, d⟩))

section

variable {p p' : MultipartParser} {m k : Bytes} {d : σ}

theorem alike_next (h : ¬ Owes p.state) :
    Alike m (next ⟨p, m ++ k, d⟩ c) (next ⟨p, k, d⟩ c) := by
  unfold MultipartParser.next
  dsimp only
  rw [List.append_assoc]
  exact .next h

/-- A round that calls a callback and goes on to a state that does not use the mark. -/
theorem alike_call_next {f : σ → Except StdException σ} {g : Scan σ → Scan σ}
    (hg : ∀ d, Alike m (next (g ⟨p, m ++ k, d⟩) c) (next (g ⟨p, k, d⟩) c)) :
    Alike m (Scan.call ⟨p, m ++ k, d⟩ f >>= fun s => next (g s) c)
      (Scan.call ⟨p, k, d⟩ f >>= fun s => next (g s) c) := by
  unfold Scan.call
  dsimp only
  cases f d with
  | error e => exact .same _
  | ok d => exact hg d

theorem startBoundary_alike (hst : p.state = .s_start_boundary) :
    Alike m (startBoundary cb ⟨p, m ++ k, d⟩ c) (startBoundary cb ⟨p, k, d⟩ c) := by
  have howes : ¬ Owes p.state := by
    rw [hst]
    decide
  have hgoes : ¬ Owes .s_header_field_start := by decide
  unfold startBoundary
  dsimp only
  split_ifs
  · exact .stop
  · exact alike_next (p := { p with index := p.index + 1 }) howes
  · exact .stop
  · exact alike_call_next (p := { p with index := 0 }) (g := fun s => s.goto .s_header_field_start)
      fun d => alike_next (p := { p with index := 0, state := .s_header_field_start }) hgoes
  · exact .stop
  · exact alike_next (p := { p with index := p.index + 1 }) howes

/-- **The mark** is of no use where nothing is owed. -/
theorem step_alike (h : ¬ Owes p.state) (b : Bool) :
    Alike m (step cb ⟨p, m ++ k, d⟩ c b) (step cb ⟨p, k, d⟩ c b) := by
  have hgoto : ∀ st, ¬ Owes st → ∀ d : σ, Alike m (next (Scan.goto ⟨p, m ++ k, d⟩ st) c)
      (next (Scan.goto ⟨p, k, d⟩ st) c) :=
    fun st hst d => alike_next (p := { p with state := st }) hst
  have hboundary : ¬ Owes .s_part_data_boundary := by decide
  have halmost : ¬ Owes .s_part_data_almost_end := by decide
  unfold step
  cases hst : p.state with
  | s_start =>
    exact startBoundary_alike (p := { p with index := 0, state := .s_start_boundary }) rfl
  | s_start_boundary => exact startBoundary_alike hst
  | s_header_field_start => exact .same _
  | s_header_field => exact absurd (Or.inl hst) h
  | s_headers_almost_done =>
    dsimp only
    split_ifs
    · exact .stop
    · exact hgoto _ (by decide) d
  | s_header_value_start =>
    dsimp only
    split_ifs
    · exact alike_next h
    · exact .same _
  | s_header_value => exact absurd (Or.inr (Or.inl hst)) h
  | s_header_value_almost_done =>
    dsimp only
    split_ifs
    · exact .stop
    · exact hgoto _ (by decide) d
  | s_part_data_start =>
    dsimp only
    unfold Scan.call
    dsimp only
    cases cb.onHeadersComplete d <;> exact .same _
  | s_part_data => exact absurd (Or.inr (Or.inr hst)) h
  | s_part_data_almost_boundary =>
    dsimp only
    split_ifs
    · exact alike_next (p := { p with
        index := 0, state := .s_part_data_boundary, lookbehind := p.lookbehind.set 1 lf })
        hboundary
    · unfold Scan.call
      dsimp only
      cases cb.onPartData (p.lookbehind.take 1) d <;> exact .same _
  | s_part_data_boundary =>
    dsimp only [partDataBoundary, boundaryMatched, Scan.setIndex, Scan.setLookbehind]
    split_ifs
    · unfold Scan.call
      dsimp only
      cases cb.onPartData (p.lookbehind.take (2 + p.index)) d <;> exact .same _
    · exact alike_call_next (p := { p with
        index := p.index + 1, lookbehind := p.lookbehind.set (2 + p.index) c })
        (g := fun s => s.goto .s_part_data_almost_end)
        fun d => alike_next (p := { p with
          index := p.index + 1, lookbehind := p.lookbehind.set (2 + p.index) c,
          state := .s_part_data_almost_end }) halmost
    · exact alike_next (p := { p with
        index := p.index + 1, lookbehind := p.lookbehind.set (2 + p.index) c }) h
  | s_part_data_almost_end =>
    dsimp only
    split_ifs
    · exact hgoto _ (by decide) d
    · exact hgoto _ (by decide) d
    · exact .stop
  | s_part_data_final_hyphen =>
    dsimp only
    split_ifs
    · exact alike_call_next (g := fun s => s.goto .s_end) (hgoto _ (by decide))
    · exact .stop
  | s_part_data_end =>
    dsimp only
    split_ifs
    · exact alike_call_next (p := { p with state := .s_header_field_start }) (g := id)
        fun d => hgoto .s_header_field_start (by decide) d
    · exact .stop
  | s_end => exact alike_next h

/-- What a caller sees of a run: the bytes that were not read, the parser and the user data. -/
def seen (x : Except StdException (Bytes × Scan σ)) :
    Except StdException (Bytes × MultipartParser × σ) :=
  x >>= fun r => .ok (r.1, r.2.parser, r.2.data)

/-- Callbacks that may be given a header value or part data in pieces. -/
structure AppendsText (cb : MultipartParserSettings σ) : Prop where
  value : ∀ x y d, cb.onHeaderValue (x ++ y) d = (cb.onHeaderValue x d >>= cb.onHeaderValue y)
  data : ∀ x y d, cb.onPartData (x ++ y) d = (cb.onPartData x d >>= cb.onPartData y)

/-- Where nothing is owed, the bytes in front of the mark make no difference. -/
theorem seen_execute_of_not_owes {y : Bytes} (h : ¬ Owes p.state) :
    seen (execute cb ⟨p, m ++ k, d⟩ y) = seen (execute cb ⟨p, k, d⟩ y) := by
  induction y generalizing p k d with
  | nil =>
    rw [execute_nil, execute_nil]
    rfl
  | cons c cs ih =>
    rw [execute_cons, execute_cons]
    have halike : Alike m (step cb ⟨p, m ++ k, d⟩ c cs.isEmpty) (step cb ⟨p, k, d⟩ c cs.isEmpty) :=
      step_alike h cs.isEmpty
    generalize step cb ⟨p, m ++ k, d⟩ c cs.isEmpty = x at halike
    generalize step cb ⟨p, k, d⟩ c cs.isEmpty = x' at halike
    cases halike with
    | same => rfl
    | next h => exact ih h
    | stop => rfl

theorem seen_execute_mark {y : Bytes} (h : ¬ Owes p.state) :
    seen (execute cb ⟨p, m, d⟩ y) = seen (execute cb ⟨p, [], d⟩ y) := by
  have hseen : seen (execute cb ⟨p, m ++ [], d⟩ y) = seen (execute cb ⟨p, [], d⟩ y) :=
    seen_execute_of_not_owes h
  rwa [List.append_nil] at hseen

/-- A state that collects a text up to a CR, and hands it out there and at the end of the
buffer. Behind the CR, in the state of `q`, the mark is of no use. -/
structure Collects (cb : MultipartParserSettings σ) (p q : MultipartParser)
    (f : Bytes → σ → Except StdException σ) (g : Scan σ → Scan σ) : Prop where
  append : ∀ x y d, f (x ++ y) d = (f x d >>= f y)
  step : ∀ x d c b, MultipartParser.step cb ⟨p, x, d⟩ c b =
    if c = cr then Scan.call ⟨p, x, d⟩ (f x) >>= fun s => next (g s) c
    else if b then Scan.call ⟨p, x, d⟩ (f (x ++ [c])) >>= fun s => next s c
    else next ⟨p, x, d⟩ c
  leaves : ∀ x d, ∃ x', g ⟨p, x, d⟩ = ⟨q, x', d⟩
  done : ¬ Owes q.state

/-- A text that is collected may be handed out in pieces. -/
theorem Collects.seen_execute {f : Bytes → σ → Except StdException σ} {g : Scan σ → Scan σ}
    (h : Collects cb p p' f g) {y : Bytes} (hy : y ≠ []) :
    seen (execute cb ⟨p, m ++ k, d⟩ y) =
      (f m d >>= fun d => seen (execute cb ⟨p, k, d⟩ y)) := by
  induction y generalizing k d with
  | nil => exact absurd rfl hy
  | cons c cs ih =>
    -- where the text is handed out, it is handed out in two pieces
    have hcall : ∀ (e : Bytes) {r r' : σ → Except StdException (Bytes × Scan σ)},
        (∀ d, seen (r d) = seen (r' d)) →
        seen (f (m ++ e) d >>= r) = (f m d >>= fun d => seen (f e d >>= r')) := by
      intro e r r' hr
      rw [h.append]
      cases f m d with
      | error e => rfl
      | ok d =>
        show seen (f e d >>= r) = seen (f e d >>= r')
        cases f e d with
        | error e => rfl
        | ok d => exact hr d
    by_cases hc : c = cr
    · have hstep : ∀ x d, MultipartParser.step cb ⟨p, x, d⟩ c cs.isEmpty =
          (Scan.call ⟨p, x, d⟩ (f x) >>= fun s => next (g s) c) := by
        intro x d
        rw [h.step, if_pos hc]
      simp only [execute_of_call (hstep _ _)]
      refine hcall k fun d => ?_
      obtain ⟨x, hx⟩ := h.leaves (m ++ k) d
      obtain ⟨x', hx'⟩ := h.leaves k d
      rw [hx, hx', seen_execute_mark h.done, seen_execute_mark (m := x' ++ [c]) h.done]
    · obtain rfl | hcs := eq_or_ne cs []
      · have hstep : ∀ x d, MultipartParser.step cb ⟨p, x, d⟩ c ([] : Bytes).isEmpty =
            (Scan.call ⟨p, x, d⟩ (f (x ++ [c])) >>= fun s => next s c) := by
          intro x d
          rw [h.step, if_neg hc]
          rfl
        simp only [execute_of_call (g := id) (hstep _ _), execute_nil, List.append_assoc]
        exact hcall (k ++ [c]) fun d => rfl
      · have hstep : ∀ x d, MultipartParser.step cb ⟨p, x, d⟩ c cs.isEmpty =
            next ⟨p, x, d⟩ c := by
          intro x d
          rw [h.step, if_neg hc, if_neg (by simpa using hcs)]
        simp only [execute_of_next (hstep _ _), List.append_assoc]
        exact ih hcs

/-- **What is owed may be handed out at once**, when the buffer goes on. Only a header name is
not sure to be handed out at all. -/
theorem seen_execute_owed (hcb : AppendsText cb) {y : Bytes} (hname : p.state ≠ .s_header_field)
    (hy : y ≠ []) :
    seen (execute cb ⟨p, m ++ k, d⟩ y) =
      (owed cb p.state m d >>= fun d => seen (execute cb ⟨p, k, d⟩ y)) := by
  have halmost : ¬ Owes .s_header_value_almost_done := by decide
  have hboundary : ¬ Owes .s_part_data_almost_boundary := by decide
  by_cases howes : Owes p.state
  · rcases howes with hst | hst | hst
    · exact absurd hst hname
    · have hcollects : Collects cb p { p with state := .s_header_value_almost_done }
          cb.onHeaderValue fun s => s.goto .s_header_value_almost_done := by
        refine ⟨hcb.value, fun x d c b => ?_, fun x d => ⟨x, rfl⟩, halmost⟩
        rw [MultipartParser.step, hst]
        rfl
      rw [hst]
      exact hcollects.seen_execute hy
    · have hcollects : Collects cb p { p with
          state := .s_part_data_almost_boundary, lookbehind := p.lookbehind.set 0 cr }
          cb.onPartData fun s =>
            (s.setMark.goto .s_part_data_almost_boundary).setLookbehind 0 cr := by
        refine ⟨hcb.data, fun x d c b => ?_, fun x d => ⟨[], rfl⟩, hboundary⟩
        rw [MultipartParser.step, hst]
        rfl
      rw [hst]
      exact hcollects.seen_execute hy
  · rw [owed_of_not_owes howes]
    exact seen_execute_of_not_owes howes

end

/-! ### Where a buffer is cut -/

/-- The parser behind `buf`, if it does not stop before. -/
def passed (p : MultipartParser) : Bytes → Option MultipartParser
  | [] => some p
  | c :: cs =>
    match parserStep p c with
    | (.stop, _) => none
    | (.next, q) => passed q cs
    | (.again, q) => passed (parserStep q c).2 cs

/-- Only the two states that look for the delimiter read a byte again, and then it is data. -/
theorem state_of_again {p q : MultipartParser} (h : parserStep p c = (.again, q)) :
    q.state = .s_part_data := by
  unfold parserStep startBoundaryStep headerFieldStep headerValueStep partDataStep
    partDataBoundaryStep boundaryMatchedStep at h
  split at h
  case h_16 => cases h
  all_goals
    split_ifs at h
    all_goals
      obtain ⟨hmove, rfl⟩ := Prod.mk.inj h
      first
        | rfl
        | cases hmove

theorem passed_of_next {p q : MultipartParser} {cs : Bytes} (h : parserStep p c = (.next, q)) :
    passed p (c :: cs) = passed q cs := by
  rw [passed, h]

theorem passed_of_again {p q : MultipartParser} {cs : Bytes} (h : parserStep p c = (.again, q)) :
    passed p (c :: cs) = passed q (c :: cs) := by
  have hdata : parserStep q c = (.next, (parserStep q c).2) := by
    unfold parserStep partDataStep
    rw [state_of_again h]
    dsimp only
    split_ifs <;> rfl
  rw [passed_of_next hdata, passed, h]

theorem passed_append {p : MultipartParser} {x y : Bytes} :
    passed p (x ++ y) = (passed p x).bind fun q => passed q y := by
  induction x generalizing p with
  | nil => rfl
  | cons c cs ih =>
    rw [List.cons_append, passed, passed]
    split
    · rfl
    · exact ih
    · exact ih

/-- **A run that reads all of its buffer** leaves the parser behind it. -/
theorem passed_of_execute {x : Bytes} (h : execute cb s x = .ok ([], s')) :
    passed s.parser x = some s'.parser := by
  induction s, x using execute.induct cb with
  | case1 s =>
    rw [execute_nil] at h
    cases h
    rfl
  | case2 s c cs e hstep =>
    rw [execute_cons, hstep] at h
    cases h
  | case3 s c cs t hstep =>
    rw [execute_cons, hstep] at h
    cases h
  | case4 s c cs t hstep ih =>
    rw [execute_cons, hstep] at h
    rw [passed_of_next (parserStep_of_step hstep)]
    exact ih h
  | case5 s c cs t hstep ih =>
    rw [execute_cons, hstep] at h
    rw [passed_of_again (parserStep_of_step hstep)]
    exact ih h

/-- What is not read is at the end of the buffer. -/
theorem suffix_of_execute {x rest : Bytes} (h : execute cb s x = .ok (rest, s')) :
    rest <:+ x := by
  induction s, x using execute.induct cb with
  | case1 s =>
    rw [execute_nil] at h
    cases h
    exact List.suffix_rfl
  | case2 s c cs e hstep =>
    rw [execute_cons, hstep] at h
    cases h
  | case3 s c cs t hstep =>
    rw [execute_cons, hstep] at h
    cases h
    exact List.suffix_rfl
  | case4 s c cs t hstep ih =>
    rw [execute_cons, hstep] at h
    exact (ih h).trans (List.suffix_cons c cs)
  | case5 s c cs t hstep ih =>
    rw [execute_cons, hstep] at h
    exact ih h

/-- What a caller does with the outcome for the first piece: it feeds `y` if all of the piece
was read. -/
def goOn (cb : MultipartParserSettings σ) (y : Bytes) (r : Bytes × MultipartParser × σ) :
    Except StdException (Bytes × MultipartParser × σ) :=
  if r.1 = [] then seen (execute cb ⟨r.2.1, [], r.2.2⟩ y) else .ok (r.1 ++ y, r.2)

/-- **A buffer in two pieces.** -/
theorem seen_execute_append (hcb : AppendsText cb) {s : Scan σ} {x y : Bytes} (hx : x ≠ [])
    (hy : y ≠ []) (hcut : ∀ q, passed s.parser x = some q → q.state ≠ .s_header_field) :
    seen (execute cb s (x ++ y)) = (seen (execute cb s x) >>= goOn cb y) := by
  match x with
  | [] => exact absurd rfl hx
  | c :: cs =>
    have hlast : (cs ++ y).isEmpty = false := by simp [hy]
    rw [List.cons_append, execute_cons, execute_cons, hlast]
    match hstep : step cb s c false with
    | .error e =>
      have herror : step cb s c cs.isEmpty = .error e := by
        cases cs.isEmpty with
        | false => exact hstep
        | true => rw [step_last, hstep]; rfl
      rw [herror]
      rfl
    | .ok (.stop, t) =>
      have hstop : step cb s c cs.isEmpty = .ok (.stop, t) := by
        cases cs.isEmpty with
        | false => exact hstep
        | true => rw [step_last, hstep]; rfl
      rw [hstop]
      rfl
    | .ok (.again, t) =>
      have hagain : step cb s c cs.isEmpty = .ok (.again, t) := by
        cases cs.isEmpty with
        | false => exact hstep
        | true => rw [step_last, hstep]; rfl
      have hless := rereads_of_again hstep
      rw [hagain]
      rw [passed_of_again (parserStep_of_step hstep)] at hcut
      exact seen_execute_append hcb (s := t) (x := c :: cs) hx hy hcut
    | .ok (.next, t) =>
      rw [passed_of_next (parserStep_of_step hstep)] at hcut
      obtain rfl | hcs := eq_or_ne cs []
      · -- the piece ends here, and what is owed is handed out
        have howed := seen_execute_owed hcb (m := t.marked) (k := []) (d := t.data)
          (hcut t.parser rfl) hy
        rw [List.append_nil] at howed
        rw [show ([] : Bytes).isEmpty = true from rfl, step_last, hstep]
        show seen (execute cb t y) = _
        rw [howed]
        show _ = seen ((Scan.call t (owed cb t.parser.state t.marked) >>= _) >>= _) >>= _
        rw [call_bind]
        cases owed cb t.parser.state t.marked t.data with
        | error e => rfl
        | ok d =>
          show _ = seen (execute cb { t with data := d } []) >>= goOn cb y
          rw [execute_nil]
          rfl
      · rw [show cs.isEmpty = false by simpa using hcs, hstep]
        exact seen_execute_append hcb (s := t) hcs hy hcut
termination_by 2 * x.length + s.rereads
decreasing_by
  · exact Nat.add_lt_add_left hless _
  · have := t.rereads_le_one
    simp only [List.length_cons]
    omega

/-! ### A body in pieces -/

/-- What a caller does with the outcome `r` for the piece `x`: it goes on with `k` if all of
the piece was read. -/
def andThen (x : Bytes) (k : MultipartParser → σ → Except StdException (Nat × MultipartParser × σ))
    (r : Nat × MultipartParser × σ) : Except StdException (Nat × MultipartParser × σ) :=
  if r.1 < x.length then .ok r else k r.2.1 r.2.2 >>= fun r' => .ok (x.length + r'.1, r'.2)

variable (cb) in
/-- `multipart_parser_execute` on one piece after the other, up to the first one that is not
read to its end: the number of bytes read, the parser and the user data. -/
def feed (xs : List Bytes) (p : MultipartParser) (d : σ) :
    Except StdException (Nat × MultipartParser × σ) :=
  match xs with
  | [] => .ok (0, p, d)
  | x :: xs => multipartParserExecute cb p d x >>= andThen x (feed xs)

section

variable {p : MultipartParser} {d : σ} {x y rest : Bytes}
  {k : MultipartParser → σ → Except StdException (Nat × MultipartParser × σ)}

/-- The outcome of a call, with the bytes that were not read. -/
theorem multipartParserExecute_of_ok {t : Scan σ}
    (h : execute cb ⟨p, [], d⟩ x = .ok (rest, t)) :
    multipartParserExecute cb p d x = .ok (x.length - rest.length, t.parser, t.data) := by
  rw [multipartParserExecute, h]
  rfl

theorem multipartParserExecute_of_error {e : StdException}
    (h : execute cb ⟨p, [], d⟩ x = .error e) :
    multipartParserExecute cb p d x = .error e := by
  rw [multipartParserExecute, h]
  rfl

theorem andThen_of_read : andThen x k (x.length, p, d) =
    (k p d >>= fun r => .ok (x.length + r.1, r.2)) :=
  if_neg (Nat.lt_irrefl _)

/-- What follows a call. -/
theorem bind_of_ok {β : Type} {t : Scan σ}
    {f : Nat × MultipartParser × σ → Except StdException β}
    (h : execute cb ⟨p, [], d⟩ x = .ok (rest, t)) :
    (multipartParserExecute cb p d x >>= f) =
      f (x.length - rest.length, t.parser, t.data) := by
  rw [multipartParserExecute_of_ok h]
  rfl

theorem multipartParserExecute_eq_seen : multipartParserExecute cb p d x =
    (seen (execute cb ⟨p, [], d⟩ x) >>= fun r => .ok (x.length - r.1.length, r.2)) := by
  unfold multipartParserExecute seen
  cases execute cb ⟨p, [], d⟩ x <;> rfl

/-- Behind nothing. -/
theorem andThen_nil : andThen [] k (0, p, d) = k p d := by
  show andThen [] k (([] : Bytes).length, p, d) = k p d
  rw [andThen_of_read]
  simp only [List.length_nil, Nat.zero_add]
  exact bind_pure _

/-- In front of nothing. -/
theorem bind_andThen_nil :
    (multipartParserExecute cb p d x >>= andThen x fun p d => .ok (0, p, d)) =
      multipartParserExecute cb p d x := by
  cases h : execute cb ⟨p, [], d⟩ x with
  | error e =>
    rw [multipartParserExecute_of_error h]
    rfl
  | ok r =>
    obtain ⟨rest, t⟩ := r
    have hle := (suffix_of_execute h).length_le
    rw [bind_of_ok h, multipartParserExecute_of_ok h]
    unfold andThen
    split_ifs with hlt
    · rfl
    · show Except.ok (x.length + 0, t.parser, t.data) = _
      rw [show x.length + 0 = x.length - rest.length by dsimp only at hlt; omega]

/-- **A second call on the rest.** -/
theorem multipartParserExecute_append (hcb : AppendsText cb)
    (hcut : ∀ q, passed p x = some q → q.state ≠ .s_header_field) :
    multipartParserExecute cb p d (x ++ y) =
      (multipartParserExecute cb p d x >>= andThen x fun p d =>
        multipartParserExecute cb p d y) := by
  obtain rfl | hx := eq_or_ne x []
  · rw [bind_of_ok execute_nil]
    exact (andThen_nil (k := fun p d => multipartParserExecute cb p d y)).symm
  obtain rfl | hy := eq_or_ne y []
  · have hnil : ∀ (p : MultipartParser) (d : σ),
        multipartParserExecute cb p d [] = .ok (0, p, d) :=
      fun p d => multipartParserExecute_of_ok execute_nil
    simp only [hnil]
    rw [bind_andThen_nil, List.append_nil]
  rw [multipartParserExecute_eq_seen, seen_execute_append hcb hx hy hcut]
  cases h : execute cb ⟨p, [], d⟩ x with
  | error e =>
    rw [multipartParserExecute_of_error h]
    rfl
  | ok r =>
    obtain ⟨rest, t⟩ := r
    have hle := (suffix_of_execute h).length_le
    rw [bind_of_ok h]
    show (goOn cb y (rest, t.parser, t.data) >>= _) = _
    unfold goOn andThen
    obtain rfl | hrest := eq_or_ne rest []
    · rw [if_pos rfl, if_neg (by simp)]
      dsimp only
      rw [multipartParserExecute_eq_seen]
      cases h' : execute cb ⟨t.parser, [], t.data⟩ y with
      | error e => rfl
      | ok r =>
        have hle' := (suffix_of_execute h').length_le
        have hcount : (x ++ y).length - r.1.length = x.length + (y.length - r.1.length) := by
          rw [List.length_append]
          omega
        show Except.ok ((x ++ y).length - r.1.length, _) = _
        rw [hcount]
        rfl
    · have hpos := List.length_pos_iff.2 hrest
      rw [if_neg hrest, if_pos (by dsimp only; omega)]
      show Except.ok ((x ++ y).length - (rest ++ y).length, _) = _
      rw [List.length_append, List.length_append, Nat.add_sub_add_right]

end

/-- **A body may be fed in pieces**: what the callbacks get, the bytes that are read and the
parser afterwards are those of one call on the whole body. `hcut` speaks of the ends of the
pieces but the last one, and not of the state `p` in which the parser starts. -/
theorem feed_eq_multipartParserExecute (hcb : AppendsText cb) {p : MultipartParser} {d : σ}
    {xs : List Bytes}
    (hcut : ∀ n < xs.length, 0 < n →
      ∀ q ∈ passed p (xs.take n).flatten, q.state ≠ .s_header_field) :
    feed cb xs p d = multipartParserExecute cb p d xs.flatten := by
  induction xs generalizing p d with
  | nil => exact (multipartParserExecute_of_ok execute_nil).symm
  | cons x xs ih =>
    obtain rfl | hxs := eq_or_ne xs []
    · rw [List.flatten_singleton]
      exact bind_andThen_nil
    have hhead : ∀ q, passed p x = some q → q.state ≠ .s_header_field := by
      intro q hq
      refine hcut 1 (Nat.succ_lt_succ (List.length_pos_iff.2 hxs)) Nat.one_pos q ?_
      rwa [List.take_succ_cons, List.take_zero, List.flatten_singleton]
    have htail : ∀ {q : MultipartParser} {d : σ}, passed p x = some q →
        feed cb xs q d = multipartParserExecute cb q d xs.flatten := by
      intro q d hq
      refine ih fun n hn _ q' hq' => hcut (n + 1) (Nat.succ_lt_succ hn) n.succ_pos q' ?_
      rw [List.take_succ_cons, List.flatten_cons, passed_append, hq]
      exact hq'
    rw [feed, List.flatten_cons, multipartParserExecute_append hcb hhead]
    cases h : execute cb ⟨p, [], d⟩ x with
    | error e => rw [multipartParserExecute_of_error h]; rfl
    | ok r =>
      obtain ⟨rest, t⟩ := r
      rw [bind_of_ok h, bind_of_ok h]
      unfold andThen
      split_ifs with hlt
      · rfl
      · obtain rfl : rest = [] := by
          have hle := (suffix_of_execute h).length_le
          dsimp only at hlt
          exact List.length_eq_zero_iff.1 (by omega)
        dsimp only
        rw [htail (passed_of_execute h)]

end MultipartParser

/-- The callbacks of a `MultiPartForm` append. -/
theorem MultipartParserUserdata.settings_appendsText : MultipartParser.AppendsText settings where
  value x y u := by simp [settings, bind, Except.bind]
  data x y u := by simp [settings, bind, Except.bind]

namespace MultipartParser

/-- A body that is cut in its first boundary, in a header value, in the data and in the last
delimiter. -/
def pieces : List Bytes :=
  [ascii "--", ascii "b\r\nContent-Disposition: form-da", ascii "ta; name=\"k\"\r\n\r\nx",
    ascii "y\r\n-", ascii "-b--"]

theorem feed_eq_multipartParserExecute_pieces :
    (feed MultipartParserUserdata.settings pieces (init (ascii "--b")) .init).map
        (fun r => (r.1, r.2.2.mp)) =
      .ok (pieces.flatten.length, [(ascii "k", [], ascii "xy")]) := by
  rw [feed_eq_multipartParserExecute MultipartParserUserdata.settings_appendsText (by decide)]
  decide +kernel

end MultipartParser

end Wfrest
