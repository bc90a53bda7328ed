import Wfrest.Base.Bytes
import Mathlib.Tactic.SplitIfs

/-!
# The multipart parser

`multipart_parser_execute` is a byte machine with a switch over its state. It hands
slices of the buffer to callbacks, and keeps in `lookbehind` what could still turn
out to be the delimiter.

* `mark` points into the buffer; the machine only uses it in `buf + mark, i - mark`.
  Here `marked` is that slice, the bytes from `mark` up to the current one.
* `i--` reads the current byte once more in the new state (`Move.again`).
* The callbacks of the repository are never null and return 0, so a callback is a
  function on the user data. It may throw.
-/

namespace Wfrest

/-- `enum state`. `s_uninitialized` is no value of a parser that `init` has set up. -/
inductive ParserState where
  | s_start
  | s_start_boundary
  | s_header_field_start
  | s_header_field
  | s_headers_almost_done
  | s_header_value_start
  | s_header_value
  | s_header_value_almost_done
  | s_part_data_start
  | s_part_data
  | s_part_data_almost_boundary
  | s_part_data_boundary
  | s_part_data_almost_end
  | s_part_data_end
  | s_part_data_final_hyphen
  | s_end
  deriving DecidableEq, Repr

/-- `multipart_parser`, without its pointers to the user data and the settings. -/
structure MultipartParser where
  index : Nat
  state : ParserState
  /-- `multipart_boundary`, of length `boundary_length`. -/
  boundary : Bytes
  lookbehind : Bytes

/-- `multipart_parser_settings` for user data of type `σ`. -/
structure MultipartParserSettings (σ : Type) where
  onHeaderField : Bytes → σ → Except StdException σ
  onHeaderValue : Bytes → σ → Except StdException σ
  onPartData : Bytes → σ → Except StdException σ
  onPartDataBegin : σ → Except StdException σ
  onHeadersComplete : σ → Except StdException σ
  onPartDataEnd : σ → Except StdException σ
  onBodyEnd : σ → Except StdException σ

namespace MultipartParser

/-- `multipart_parser_init`. The boundary is copied as a C string, and what is left
of the allocation after it is `lookbehind`, not initialised. -/
def init (boundary : Bytes) : MultipartParser where
  index := 0
  state := .s_start
  boundary := cStr boundary
  lookbehind := List.replicate ((cStr boundary).length + 9) 0

/-- The variables of the loop in `multipart_parser_execute`. -/
structure Scan (σ : Type) where
  parser : MultipartParser
  /-- `buf + mark, i - mark` -/
  marked : Bytes
  data : σ

/-- How a round of the loop ends: `return i`, `++i`, or `++i` after `i--`. -/
inductive Move where
  | stop
  | next
  | again
  deriving DecidableEq, Repr

variable {σ : Type}

/-- The state of the parser. -/
def Scan.goto (s : Scan σ) (st : ParserState) : Scan σ :=
  { s with parser := { s.parser with state := st } }

/-- `mark = i` -/
def Scan.setMark (s : Scan σ) : Scan σ := { s with marked := [] }

/-- `p->index = n` -/
def Scan.setIndex (s : Scan σ) (n : Nat) : Scan σ :=
  { s with parser := { s.parser with index := n } }

/-- `p->lookbehind[n] = c` -/
def Scan.setLookbehind (s : Scan σ) (n : Nat) (c : UInt8) : Scan σ :=
  { s with parser := { s.parser with lookbehind := s.parser.lookbehind.set n c } }

/-- `NOTIFY_CB` and `EMIT_DATA_CB` -/
def Scan.call (s : Scan σ) (f : σ → Except StdException σ) : Except StdException (Scan σ) :=
  match f s.data with
  | .ok data => .ok { s with data := data }
  | .error e => .error e

/-- `return i;` -/
def stop (s : Scan σ) : Except StdException (Move × Scan σ) := .ok (.stop, s)

/-- `break;`, and `++i` over the byte `c`. -/
def next (s : Scan σ) (c : UInt8) : Except StdException (Move × Scan σ) :=
  .ok (.next, { s with marked := s.marked ++ [c] })

/-- `mark = i--; break;` -/
def again (s : Scan σ) : Except StdException (Move × Scan σ) := .ok (.again, s.setMark)

variable (cb : MultipartParserSettings σ)

/-- `case s_start_boundary` -/
def startBoundary (s : Scan σ) (c : UInt8) : Except StdException (Move × Scan σ) :=
  if s.parser.index = s.parser.boundary.length then
    if c ≠ cr then stop s else next (s.setIndex (s.parser.index + 1)) c
  else if s.parser.index = s.parser.boundary.length + 1 then
    if c ≠ lf then stop s
    else do
      let s ← (s.setIndex 0).call cb.onPartDataBegin
      next (s.goto .s_header_field_start) c
  else if c ≠ s.parser.boundary.getD s.parser.index 0 then stop s
  else next (s.setIndex (s.parser.index + 1)) c

/-- `case s_header_field` -/
def headerField (s : Scan σ) (c : UInt8) (isLast : Bool) :
    Except StdException (Move × Scan σ) :=
  if c = cr then next (s.goto .s_headers_almost_done) c
  else if c = colon then do
    let s ← s.call (cb.onHeaderField s.marked)
    next (s.goto .s_header_value_start) c
  else if c ≠ hyphen ∧ (tolower c < 97 ∨ 122 < tolower c) then stop s
  else if isLast then do
    let s ← s.call (cb.onHeaderField (s.marked ++ [c]))
    next s c
  else next s c

/-- `case s_header_value` -/
def headerValue (s : Scan σ) (c : UInt8) (isLast : Bool) :
    Except StdException (Move × Scan σ) :=
  if c = cr then do
    let s ← s.call (cb.onHeaderValue s.marked)
    next (s.goto .s_header_value_almost_done) c
  else if isLast then do
    let s ← s.call (cb.onHeaderValue (s.marked ++ [c]))
    next s c
  else next s c

/-- `case s_part_data` -/
def partData (s : Scan σ) (c : UInt8) (isLast : Bool) : Except StdException (Move × Scan σ) :=
  if c = cr then do
    let s ← s.call (cb.onPartData s.marked)
    next ((s.setMark.goto .s_part_data_almost_boundary).setLookbehind 0 cr) c
  else if isLast then do
    let s ← s.call (cb.onPartData (s.marked ++ [c]))
    next s c
  else next s c

/-- The end of `case s_part_data_boundary`, after `++p->index`. -/
def boundaryMatched (s : Scan σ) (c : UInt8) : Except StdException (Move × Scan σ) :=
  if s.parser.index = s.parser.boundary.length then do
    let s ← s.call cb.onPartDataEnd
    next (s.goto .s_part_data_almost_end) c
  else next s c

/-- `case s_part_data_boundary` -/
def partDataBoundary (s : Scan σ) (c : UInt8) : Except StdException (Move × Scan σ) :=
  if s.parser.boundary.getD s.parser.index 0 ≠ c then do
    let s ← s.call (cb.onPartData (s.parser.lookbehind.take (2 + s.parser.index)))
    again (s.goto .s_part_data)
  else
    boundaryMatched cb
      ((s.setLookbehind (2 + s.parser.index) c).setIndex (s.parser.index + 1)) c

/-- The body of the loop on the byte `c`; `isLast` is `is_last`. -/
def step (s : Scan σ) (c : UInt8) (isLast : Bool) : Except StdException (Move × Scan σ) :=
  match s.parser.state with
  | .s_start => startBoundary cb ((s.setIndex 0).goto .s_start_boundary) c
  | .s_start_boundary => startBoundary cb s c
  | .s_header_field_start => headerField cb (s.setMark.goto .s_header_field) c isLast
  | .s_header_field => headerField cb s c isLast
  | .s_headers_almost_done =>
    if c ≠ lf then stop s else next (s.goto .s_part_data_start) c
  | .s_header_value_start =>
    if c = space then next s c
    else headerValue cb (s.setMark.goto .s_header_value) c isLast
  | .s_header_value => headerValue cb s c isLast
  | .s_header_value_almost_done =>
    if c ≠ lf then stop s else next (s.goto .s_header_field_start) c
  | .s_part_data_start => do
    let s ← s.call cb.onHeadersComplete
    partData cb (s.setMark.goto .s_part_data) c isLast
  | .s_part_data => partData cb s c isLast
  | .s_part_data_almost_boundary =>
    if c = lf then
      next (((s.goto .s_part_data_boundary).setLookbehind 1 lf).setIndex 0) c
    else do
      let s ← s.call (cb.onPartData (s.parser.lookbehind.take 1))
      again (s.goto .s_part_data)
  | .s_part_data_boundary => partDataBoundary cb s c
  | .s_part_data_almost_end =>
    if c = hyphen then next (s.goto .s_part_data_final_hyphen) c
    else if c = cr then next (s.goto .s_part_data_end) c
    else stop s
  | .s_part_data_final_hyphen =>
    if c = hyphen then do
      let s ← s.call cb.onBodyEnd
      next (s.goto .s_end) c
    else stop s
  | .s_part_data_end =>
    if c = lf then do
      let s ← (s.goto .s_header_field_start).call cb.onPartDataBegin
      next s c
    else stop s
  | .s_end => next s c

/-- 1 in the two states that may read a byte again, else 0. -/
def Scan.rereads (s : Scan σ) : Nat :=
  match s.parser.state with
  | .s_part_data_almost_boundary | .s_part_data_boundary => 1
  | _ => 0

theorem Scan.rereads_le_one (s : Scan σ) : s.rereads ≤ 1 := by
  unfold Scan.rereads
  split <;> omega

/-! ### The loop -/

variable {cb : MultipartParserSettings σ} {s s' : Scan σ} {c : UInt8} {b : Bool}

private theorem bind_next_ne_again {x : Except StdException (Scan σ)} {g : Scan σ → Scan σ} :
    (x >>= fun s => next (g s) c) ≠ .ok (.again, s') := by
  cases x <;> simp [bind, Except.bind, next]

private theorem startBoundary_ne_again : startBoundary cb s c ≠ .ok (.again, s') := by
  unfold startBoundary
  split_ifs
  all_goals first
    | exact bind_next_ne_again
    | simp [stop, next]

private theorem headerField_ne_again : headerField cb s c b ≠ .ok (.again, s') := by
  unfold headerField
  split_ifs
  all_goals first
    | exact bind_next_ne_again
    | simp [stop, next]

private theorem headerValue_ne_again : headerValue cb s c b ≠ .ok (.again, s') := by
  unfold headerValue
  split_ifs
  all_goals first
    | exact bind_next_ne_again
    | simp [next]

private theorem partData_ne_again : partData cb s c b ≠ .ok (.again, s') := by
  unfold partData
  split_ifs
  all_goals first
    | exact bind_next_ne_again
    | simp [next]

private theorem boundaryMatched_ne_again : boundaryMatched cb s c ≠ .ok (.again, s') := by
  unfold boundaryMatched
  split_ifs
  · exact bind_next_ne_again
  · simp [next]

private theorem rereads_of_call_again {f : σ → Except StdException σ}
    (h : (s.call f >>= fun s => again (s.goto .s_part_data)) = .ok (.again, s')) :
    s'.rereads = 0 := by
  cases hc : s.call f with
  | error e => simp [hc, bind, Except.bind] at h
  | ok t =>
    simp only [hc, bind, Except.bind, again, Except.ok.injEq, Prod.mk.injEq, true_and] at h
    rw [← h]
    rfl

/-- A byte is read again at most once: only the two states that look for the
delimiter ask for it, and they leave for `s_part_data`. -/
theorem rereads_of_again (h : step cb s c b = .ok (.again, s')) : s'.rereads < s.rereads := by
  unfold step at h
  split at h
  case h_11 hst =>
    split_ifs at h
    · cases h
    · rw [rereads_of_call_again h]
      simp [Scan.rereads, hst]
  case h_12 hst =>
    unfold partDataBoundary at h
    split_ifs at h
    · rw [rereads_of_call_again h]
      simp [Scan.rereads, hst]
    · exact absurd h boundaryMatched_ne_again
  case h_9 =>
    cases hc : s.call cb.onHeadersComplete with
    | error e => simp [hc, bind, Except.bind] at h
    | ok t =>
      simp only [hc, bind, Except.bind] at h
      exact absurd h partData_ne_again
  case h_1 => exact absurd h startBoundary_ne_again
  case h_2 => exact absurd h startBoundary_ne_again
  case h_3 => exact absurd h headerField_ne_again
  case h_4 => exact absurd h headerField_ne_again
  case h_7 => exact absurd h headerValue_ne_again
  case h_10 => exact absurd h partData_ne_again
  case h_6 =>
    split_ifs at h
    · cases h
    · exact absurd h headerValue_ne_again
  -- the other states only stop or go on
  all_goals first
    | (split_ifs at h <;> first
        | cases h
        | exact absurd h bind_next_ne_again)
    | cases h

variable (cb) in
/-- The loop of `multipart_parser_execute`: the bytes that were not read, and the
variables. -/
def execute (s : Scan σ) (buf : Bytes) : Except StdException (Bytes × Scan σ) :=
  match buf with
  | [] => .ok ([], s)
  | c :: cs =>
    match _h : step cb s c cs.isEmpty with
    | .error e => .error e
    | .ok (.stop, s') => .ok (c :: cs, s')
    | .ok (.next, s') => execute s' cs
    | .ok (.again, s') => execute s' (c :: cs)
termination_by 2 * buf.length + s.rereads
decreasing_by
  · have := s'.rereads_le_one
    simp only [List.length_cons]
    omega
  · exact Nat.add_lt_add_left (rereads_of_again _h) _

variable (cb) in
/-- `multipart_parser_execute`: the number of bytes read, the parser and the user
data. -/
def multipartParserExecute (p : MultipartParser) (data : σ) (buf : Bytes) :
    Except StdException (Nat × MultipartParser × σ) := do
  let r ← execute cb ⟨p, [], data⟩ buf
  return (buf.length - r.1.length, r.2.parser, r.2.data)

end MultipartParser

end Wfrest
