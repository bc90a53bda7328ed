import Wfrest.Form.MultiPartParser
import Wfrest.Lib.Run

/-!
# The multipart parser stays in bounds and stops

`multipart_parser_execute` walks over its buffer with an index that two of its states move
back by one, and over `multipart_boundary` and `lookbehind` with `p->index`, which outlives
the call. `machine` is the parser under any sequence of calls, with the index as the
`size_t` that it is, one round of the loop a step.

What a round does to the parser does not depend on the user data, nor on the rest of the
buffer (`parserStep`). So the bounds (`Bounded`) are kept by a function of the parser and
one byte, and `machine_bounded` carries them through all rounds of all calls. The rounds of
a call compute `multipartParserExecute` (`endsIn_multipartParserExecute`).
-/

namespace Wfrest.MultipartParser

variable {σ : Type} {cb : MultipartParserSettings σ}

/-! ### What a round does to the parser -/

/-- `case s_start_boundary` -/
def startBoundaryStep (p : MultipartParser) (c : UInt8) : Move × MultipartParser :=
  if p.index = p.boundary.length then
    if c ≠ cr then (.stop, p) else (.next, { p with index := p.index + 1 })
  else if p.index = p.boundary.length + 1 then
    if c ≠ lf then (.stop, p)
    else (.next, { p with index := 0, state := .s_header_field_start })
  else if c ≠ p.boundary.getD p.index 0 then (.stop, p)
  else (.next, { p with index := p.index + 1 })

/-- `case s_header_field` -/
def headerFieldStep (p : MultipartParser) (c : UInt8) : Move × MultipartParser :=
  if c = cr then (.next, { p with state := .s_headers_almost_done })
  else if c = colon then (.next, { p with state := .s_header_value_start })
  else if c ≠ hyphen ∧ (tolower c < 97 ∨ 122 < tolower c) then (.stop, p)
  else (.next, p)

/-- `case s_header_value` -/
def headerValueStep (p : MultipartParser) (c : UInt8) : Move × MultipartParser :=
  if c = cr then (.next, { p with state := .s_header_value_almost_done }) else (.next, p)

/-- `case s_part_data` -/
def partDataStep (p : MultipartParser) (c : UInt8) : Move × MultipartParser :=
  if c = cr then
    (.next, { p with state := .s_part_data_almost_boundary, lookbehind := p.lookbehind.set 0 cr })
  else (.next, p)

/-- The end of `case s_part_data_boundary`, after `++p->index`. -/
def boundaryMatchedStep (p : MultipartParser) : Move × MultipartParser :=
  if p.index = p.boundary.length then (.next, { p with state := .s_part_data_almost_end })
  else (.next, p)

/-- `case s_part_data_boundary` -/
def partDataBoundaryStep (p : MultipartParser) (c : UInt8) : Move × MultipartParser :=
  if p.boundary.getD p.index 0 ≠ c then (.again, { p with state := .s_part_data })
  else
    boundaryMatchedStep
      { p with index := p.index + 1, lookbehind := p.lookbehind.set (2 + p.index) c }

/-- A round of the loop, as far as the parser is concerned. -/
def parserStep (p : MultipartParser) (c : UInt8) : Move × MultipartParser :=
  match p.state with
  | .s_start => startBoundaryStep { p with index := 0, state := .s_start_boundary } c
  | .s_start_boundary => startBoundaryStep p c
  | .s_header_field_start => headerFieldStep { p with state := .s_header_field } c
  | .s_header_field => headerFieldStep p c
  | .s_headers_almost_done =>
    if c ≠ lf then (.stop, p) else (.next, { p with state := .s_part_data_start })
  | .s_header_value_start =>
    if c = space then (.next, p) else headerValueStep { p with state := .s_header_value } c
  | .s_header_value => headerValueStep p c
  | .s_header_value_almost_done =>
    if c ≠ lf then (.stop, p) else (.next, { p with state := .s_header_field_start })
  | .s_part_data_start => partDataStep { p with state := .s_part_data } c
  | .s_part_data => partDataStep p c
  | .s_part_data_almost_boundary =>
    if c = lf then
      (.next, { p with
        index := 0, state := .s_part_data_boundary, lookbehind := p.lookbehind.set 1 lf })
    else (.again, { p with state := .s_part_data })
  | .s_part_data_boundary => partDataBoundaryStep p c
  | .s_part_data_almost_end =>
    if c = hyphen then (.next, { p with state := .s_part_data_final_hyphen })
    else if c = cr then (.next, { p with state := .s_part_data_end })
    else (.stop, p)
  | .s_part_data_final_hyphen =>
    if c = hyphen then (.next, { p with state := .s_end }) else (.stop, p)
  | .s_part_data_end =>
    if c = lf then (.next, { p with state := .s_header_field_start }) else (.stop, p)
  | .s_end => (.next, p)

section
variable {s s' : Scan σ} {c : UInt8} {b : Bool} {mv : Move} {f : σ → Except StdException σ}

/-- What follows a callback sees the parser as it was. -/
private theorem parser_of_call_next {g : Scan σ → Scan σ}
    (h : (s.call f >>= fun t => next (g t) c) = .ok (mv, s')) :
    mv = .next ∧ ∃ d, s'.parser = (g { s with data := d }).parser := by
  unfold Scan.call at h
  cases hf : f s.data with
  | error e => simp [hf, bind, Except.bind] at h
  | ok d =>
    simp only [hf, bind, Except.bind, next, Except.ok.injEq, Prod.mk.injEq] at h
    exact ⟨h.1.symm, d, by rw [← h.2]⟩

private theorem parser_of_call_again {g : Scan σ → Scan σ}
    (h : (s.call f >>= fun t => again (g t)) = .ok (mv, s')) :
    mv = .again ∧ ∃ d, s'.parser = (g { s with data := d }).parser := by
  unfold Scan.call at h
  cases hf : f s.data with
  | error e => simp [hf, bind, Except.bind] at h
  | ok d =>
    simp only [hf, bind, Except.bind, again, Except.ok.injEq, Prod.mk.injEq] at h
    exact ⟨h.1.symm, d, by rw [← h.2]; rfl⟩

private theorem parser_of_next (h : next s c = .ok (mv, s')) :
    (.next, s.parser) = (mv, s'.parser) := by
  simp only [next, Except.ok.injEq, Prod.mk.injEq] at h
  rw [← h.1, ← h.2]

private theorem parser_of_stop (h : stop s = .ok (mv, s')) :
    (.stop, s.parser) = (mv, s'.parser) := by
  simp only [stop, Except.ok.injEq, Prod.mk.injEq] at h
  rw [← h.1, ← h.2]

private theorem parser_startBoundary (h : startBoundary cb s c = .ok (mv, s')) :
    startBoundaryStep s.parser c = (mv, s'.parser) := by
  unfold startBoundary at h
  unfold startBoundaryStep
  split_ifs at h ⊢
  · exact parser_of_stop h
  · exact parser_of_next h
  · exact parser_of_stop h
  · obtain ⟨rfl, d, hd⟩ := parser_of_call_next h
    rw [hd]
    rfl
  · exact parser_of_stop h
  · exact parser_of_next h

private theorem parser_headerField (h : headerField cb s c b = .ok (mv, s')) :
    headerFieldStep s.parser c = (mv, s'.parser) := by
  unfold headerField at h
  unfold headerFieldStep
  split_ifs at h ⊢
  · exact parser_of_next h
  · obtain ⟨rfl, d, hd⟩ := parser_of_call_next h
    rw [hd]
    rfl
  · exact parser_of_stop h
  · obtain ⟨rfl, d, hd⟩ := parser_of_call_next h
    rw [hd]
  · exact parser_of_next h

private theorem parser_headerValue (h : headerValue cb s c b = .ok (mv, s')) :
    headerValueStep s.parser c = (mv, s'.parser) := by
  unfold headerValue at h
  unfold headerValueStep
  split_ifs at h ⊢
  · obtain ⟨rfl, d, hd⟩ := parser_of_call_next h
    rw [hd]
    rfl
  · obtain ⟨rfl, d, hd⟩ := parser_of_call_next h
    rw [hd]
  · exact parser_of_next h

private theorem parser_partData (h : partData cb s c b = .ok (mv, s')) :
    partDataStep s.parser c = (mv, s'.parser) := by
  unfold partData at h
  unfold partDataStep
  split_ifs at h ⊢
  · obtain ⟨rfl, d, hd⟩ := parser_of_call_next h
    rw [hd]
    rfl
  · obtain ⟨rfl, d, hd⟩ := parser_of_call_next h
    rw [hd]
  · exact parser_of_next h

private theorem parser_boundaryMatched (h : boundaryMatched cb s c = .ok (mv, s')) :
    boundaryMatchedStep s.parser = (mv, s'.parser) := by
  unfold boundaryMatched at h
  unfold boundaryMatchedStep
  split_ifs at h ⊢
  · obtain ⟨rfl, d, hd⟩ := parser_of_call_next h
    rw [hd]
    rfl
  · exact parser_of_next h

private theorem parser_partDataBoundary (h : partDataBoundary cb s c = .ok (mv, s')) :
    partDataBoundaryStep s.parser c = (mv, s'.parser) := by
  unfold partDataBoundary at h
  unfold partDataBoundaryStep
  split_ifs at h ⊢
  · obtain ⟨rfl, d, hd⟩ := parser_of_call_again h
    rw [hd]
    rfl
  · exact parser_boundaryMatched h

/-- **What a round does to the parser** is a function of the parser and the byte. -/
theorem parserStep_of_step (h : step cb s c b = .ok (mv, s')) :
    parserStep s.parser c = (mv, s'.parser) := by
  unfold step at h
  unfold parserStep
  cases hst : s.parser.state with
  | s_start =>
    rw [hst] at h
    exact parser_startBoundary h
  | s_start_boundary =>
    rw [hst] at h
    exact parser_startBoundary h
  | s_header_field_start =>
    rw [hst] at h
    exact parser_headerField h
  | s_header_field =>
    rw [hst] at h
    exact parser_headerField h
  | s_headers_almost_done =>
    simp only [hst] at h ⊢
    split_ifs at h ⊢
    · exact parser_of_stop h
    · exact parser_of_next h
  | s_header_value_start =>
    simp only [hst] at h ⊢
    split_ifs at h ⊢
    · exact parser_of_next h
    · exact parser_headerValue h
  | s_header_value =>
    rw [hst] at h
    exact parser_headerValue h
  | s_header_value_almost_done =>
    simp only [hst] at h ⊢
    split_ifs at h ⊢
    · exact parser_of_stop h
    · exact parser_of_next h
  | s_part_data_start =>
    simp only [hst] at h ⊢
    -- the callback leaves the parser as it was
    unfold Scan.call at h
    cases hd : cb.onHeadersComplete s.data with
    | error e => simp [hd, bind, Except.bind] at h
    | ok d =>
      simp only [hd, bind, Except.bind] at h
      exact parser_partData h
  | s_part_data =>
    rw [hst] at h
    exact parser_partData h
  | s_part_data_almost_boundary =>
    simp only [hst] at h ⊢
    split_ifs at h ⊢
    · exact parser_of_next h
    · obtain ⟨rfl, d, hd⟩ := parser_of_call_again h
      rw [hd]
      rfl
  | s_part_data_boundary =>
    rw [hst] at h
    exact parser_partDataBoundary h
  | s_part_data_almost_end =>
    simp only [hst] at h ⊢
    split_ifs at h ⊢
    · exact parser_of_next h
    · exact parser_of_next h
    · exact parser_of_stop h
  | s_part_data_final_hyphen =>
    simp only [hst] at h ⊢
    split_ifs at h ⊢
    · obtain ⟨rfl, d, hd⟩ := parser_of_call_next h
      rw [hd]
      rfl
    · exact parser_of_stop h
  | s_part_data_end =>
    simp only [hst] at h ⊢
    split_ifs at h ⊢
    · obtain ⟨rfl, d, hd⟩ := @parser_of_call_next _ _ _ _ _ _ id h
      rw [hd]
      rfl
    · exact parser_of_stop h
  | s_end =>
    rw [hst] at h
    exact parser_of_next h

/-- The callbacks return. -/
structure Returns (cb : MultipartParserSettings σ) : Prop where
  headerField : ∀ x d, ∃ d', cb.onHeaderField x d = .ok d'
  headerValue : ∀ x d, ∃ d', cb.onHeaderValue x d = .ok d'
  partData : ∀ x d, ∃ d', cb.onPartData x d = .ok d'
  partDataBegin : ∀ d, ∃ d', cb.onPartDataBegin d = .ok d'
  headersComplete : ∀ d, ∃ d', cb.onHeadersComplete d = .ok d'
  partDataEnd : ∀ d, ∃ d', cb.onPartDataEnd d = .ok d'
  bodyEnd : ∀ d, ∃ d', cb.onBodyEnd d = .ok d'

private theorem isOk_call_next {g : Scan σ → Scan σ} (hf : ∀ d, ∃ d', f d = .ok d') :
    ∃ r, (s.call f >>= fun t => next (g t) c) = .ok r := by
  obtain ⟨d', hd'⟩ := hf s.data
  simp [Scan.call, hd', bind, Except.bind, next]

private theorem isOk_call_again {g : Scan σ → Scan σ} (hf : ∀ d, ∃ d', f d = .ok d') :
    ∃ r, (s.call f >>= fun t => again (g t)) = .ok r := by
  obtain ⟨d', hd'⟩ := hf s.data
  simp [Scan.call, hd', bind, Except.bind, again]

private theorem isOk_startBoundary (hcb : Returns cb) : ∃ r, startBoundary cb s c = .ok r := by
  unfold startBoundary
  split_ifs
  · exact ⟨_, rfl⟩
  · exact ⟨_, rfl⟩
  · exact ⟨_, rfl⟩
  · exact isOk_call_next hcb.partDataBegin
  · exact ⟨_, rfl⟩
  · exact ⟨_, rfl⟩

private theorem isOk_headerField (hcb : Returns cb) : ∃ r, headerField cb s c b = .ok r := by
  unfold headerField
  split_ifs
  · exact ⟨_, rfl⟩
  · exact isOk_call_next (hcb.headerField _)
  · exact ⟨_, rfl⟩
  · exact isOk_call_next (g := id) (hcb.headerField _)
  · exact ⟨_, rfl⟩

private theorem isOk_headerValue (hcb : Returns cb) : ∃ r, headerValue cb s c b = .ok r := by
  unfold headerValue
  split_ifs
  · exact isOk_call_next (hcb.headerValue _)
  · exact isOk_call_next (g := id) (hcb.headerValue _)
  · exact ⟨_, rfl⟩

private theorem isOk_partData (hcb : Returns cb) : ∃ r, partData cb s c b = .ok r := by
  unfold partData
  split_ifs
  · exact isOk_call_next (hcb.partData _)
  · exact isOk_call_next (g := id) (hcb.partData _)
  · exact ⟨_, rfl⟩

private theorem isOk_partDataBoundary (hcb : Returns cb) :
    ∃ r, partDataBoundary cb s c = .ok r := by
  unfold partDataBoundary boundaryMatched
  split_ifs
  · exact isOk_call_again (hcb.partData _)
  · exact isOk_call_next hcb.partDataEnd
  · exact ⟨_, rfl⟩

/-- With callbacks that return every round ends. -/
theorem isOk_step (hcb : Returns cb) (s : Scan σ) (c : UInt8) (b : Bool) :
    ∃ r, step cb s c b = .ok r := by
  unfold step
  split
  · exact isOk_startBoundary hcb
  · exact isOk_startBoundary hcb
  · exact isOk_headerField hcb
  · exact isOk_headerField hcb
  · split_ifs <;> exact ⟨_, rfl⟩
  · split_ifs
    · exact ⟨_, rfl⟩
    · exact isOk_headerValue hcb
  · exact isOk_headerValue hcb
  · split_ifs <;> exact ⟨_, rfl⟩
  · obtain ⟨d', hd'⟩ := hcb.headersComplete s.data
    simp only [Scan.call, hd', bind, Except.bind]
    exact isOk_partData hcb
  · exact isOk_partData hcb
  · split_ifs
    · exact ⟨_, rfl⟩
    · exact isOk_call_again (hcb.partData _)
  · exact isOk_partDataBoundary hcb
  · split_ifs <;> exact ⟨_, rfl⟩
  · split_ifs
    · exact isOk_call_next hcb.bodyEnd
    · exact ⟨_, rfl⟩
  · split_ifs
    · exact isOk_call_next (g := id) hcb.partDataBegin
    · exact ⟨_, rfl⟩
  · exact ⟨_, rfl⟩

end

/-! ### Where a round reads and writes -/

/-- The index at which a round reads `multipart_boundary`. -/
def boundaryRead (p : MultipartParser) : Option Nat :=
  match p.state with
  | .s_start => if p.boundary.length = 0 then none else some 0
  | .s_start_boundary =>
    if p.index = p.boundary.length ∨ p.index = p.boundary.length + 1 then none
    else some p.index
  | .s_part_data_boundary => some p.index
  | _ => none

/-- The index at which a round over the byte `c` writes `lookbehind`, and what. -/
def lookbehindWrite (p : MultipartParser) (c : UInt8) : Option (Nat × UInt8) :=
  match p.state with
  | .s_part_data_start | .s_part_data => if c = cr then some (0, cr) else none
  | .s_part_data_almost_boundary => if c = lf then some (1, lf) else none
  | .s_part_data_boundary =>
    if p.boundary.getD p.index 0 ≠ c then none else some (2 + p.index, c)
  | _ => none

private theorem startBoundaryStep_congr {p : MultipartParser} {c : UInt8} {boundary : Bytes}
    (hlen : boundary.length = p.boundary.length)
    (hread : p.index ≠ p.boundary.length → p.index ≠ p.boundary.length + 1 →
      boundary.getD p.index 0 = p.boundary.getD p.index 0) :
    startBoundaryStep { p with boundary := boundary } c =
      ((startBoundaryStep p c).1, { (startBoundaryStep p c).2 with boundary := boundary }) := by
  simp only [startBoundaryStep, hlen]
  by_cases h₁ : p.index = p.boundary.length
  · simp only [if_pos h₁]
    split_ifs <;> rfl
  · by_cases h₂ : p.index = p.boundary.length + 1
    · simp only [if_neg h₁, if_pos h₂]
      split_ifs <;> rfl
    · simp only [if_neg h₁, if_neg h₂, hread h₁ h₂]
      split_ifs <;> rfl

/-- `multipart_boundary` is read nowhere else: a boundary of the same length that agrees
there makes the parser take the same round. -/
theorem parserStep_congr {p : MultipartParser} {c : UInt8} {boundary : Bytes}
    (hlen : boundary.length = p.boundary.length)
    (hread : ∀ n, boundaryRead p = some n → boundary.getD n 0 = p.boundary.getD n 0) :
    parserStep { p with boundary := boundary } c =
      ((parserStep p c).1, { (parserStep p c).2 with boundary := boundary }) := by
  obtain ⟨index, state, old, lookbehind⟩ := p
  change boundary.length = old.length at hlen
  cases state with
  | s_start =>
    refine startBoundaryStep_congr (p := ⟨0, .s_start_boundary, old, lookbehind⟩) hlen
      fun hne _ => hread 0 ?_
    exact if_neg fun h => hne h.symm
  | s_start_boundary =>
    refine startBoundaryStep_congr (p := ⟨index, .s_start_boundary, old, lookbehind⟩) hlen
      fun h₁ h₂ => hread index ?_
    exact if_neg fun h => h.elim h₁ h₂
  | s_part_data_boundary =>
    have hagree : boundary.getD index 0 = old.getD index 0 := hread index rfl
    simp only [parserStep, partDataBoundaryStep, boundaryMatchedStep, hagree, hlen]
    split_ifs <;> rfl
  | _ =>
    simp only [parserStep, headerFieldStep, headerValueStep, partDataStep]
    try split_ifs <;> rfl

/-- `lookbehind` is written nowhere else. -/
theorem lookbehind_parserStep (p : MultipartParser) (c : UInt8) :
    (parserStep p c).2.lookbehind =
      match lookbehindWrite p c with
      | some (n, b) => p.lookbehind.set n b
      | none => p.lookbehind := by
  obtain ⟨index, state, boundary, lookbehind⟩ := p
  cases state <;>
    simp only [parserStep, lookbehindWrite, startBoundaryStep, headerFieldStep, headerValueStep,
      partDataStep, partDataBoundaryStep, boundaryMatchedStep] <;>
    split_ifs <;> rfl

theorem boundary_parserStep (p : MultipartParser) (c : UInt8) :
    (parserStep p c).2.boundary = p.boundary := by
  obtain ⟨index, state, boundary, lookbehind⟩ := p
  cases state <;>
    simp only [parserStep, startBoundaryStep, headerFieldStep, headerValueStep,
      partDataStep, partDataBoundaryStep, boundaryMatchedStep] <;>
    split_ifs <;> rfl

/-! ### The bounds -/

/-- **The invariant**: in the two states that use the index it is in range. -/
structure Bounded (p : MultipartParser) : Prop where
  pos : 0 < p.boundary.length
  start : p.state = .s_start_boundary → p.index ≤ p.boundary.length + 1
  data : p.state = .s_part_data_boundary → p.index < p.boundary.length

theorem bounded_init {boundary : Bytes} (h : cStr boundary ≠ []) : Bounded (init boundary) :=
  ⟨List.length_pos_iff.mpr h, nofun, nofun⟩

/-- The other states ask for nothing. -/
theorem Bounded.of_state {p p' : MultipartParser} (h : Bounded p)
    (hboundary : p'.boundary = p.boundary) (h₁ : p'.state ≠ .s_start_boundary)
    (h₂ : p'.state ≠ .s_part_data_boundary) : Bounded p' :=
  ⟨by rw [hboundary]; exact h.pos, fun h' => absurd h' h₁, fun h' => absurd h' h₂⟩

private theorem Bounded.startBoundaryStep {p : MultipartParser} (h : Bounded p)
    (hst : p.state = .s_start_boundary) (c : UInt8) :
    Bounded (MultipartParser.startBoundaryStep p c).2 := by
  have hle := h.start hst
  unfold MultipartParser.startBoundaryStep
  split_ifs with h₁ h₂ h₃ h₄ h₅
  · exact h
  · -- behind the boundary the index counts on, for CR
    exact ⟨h.pos, fun _ => Nat.succ_le_succ (le_of_eq h₁),
      fun h' => absurd (hst.symm.trans h') nofun⟩
  · exact h
  · exact h.of_state rfl nofun nofun
  · exact h
  · refine ⟨h.pos, fun _ => ?_, fun h' => absurd (hst.symm.trans h') nofun⟩
    change p.index + 1 ≤ p.boundary.length + 1
    omega

private theorem Bounded.partDataBoundaryStep {p : MultipartParser} (h : Bounded p)
    (hst : p.state = .s_part_data_boundary) (c : UInt8) :
    Bounded (MultipartParser.partDataBoundaryStep p c).2 := by
  have hlt := h.data hst
  unfold MultipartParser.partDataBoundaryStep boundaryMatchedStep
  split_ifs with h₁ h₂
  · exact h.of_state rfl nofun nofun
  · exact h.of_state rfl nofun nofun
  · -- the boundary is not complete, so there is a next byte of it
    refine ⟨h.pos, fun h' => absurd (hst.symm.trans h') nofun, fun _ => ?_⟩
    change p.index + 1 ≠ p.boundary.length at h₂
    change p.index + 1 < p.boundary.length
    omega

/-- **A round keeps the bounds.** -/
theorem Bounded.parserStep {p : MultipartParser} (h : Bounded p) (c : UInt8) :
    Bounded (MultipartParser.parserStep p c).2 := by
  unfold MultipartParser.parserStep
  split
  case h_1 =>
    have hstart : Bounded { p with index := 0, state := .s_start_boundary } :=
      ⟨h.pos, fun _ => Nat.zero_le _, nofun⟩
    exact hstart.startBoundaryStep rfl c
  case h_2 hst => exact h.startBoundaryStep hst c
  case h_11 =>
    split_ifs
    · exact ⟨h.pos, nofun, fun _ => h.pos⟩
    · exact h.of_state rfl nofun nofun
  case h_12 hst => exact h.partDataBoundaryStep hst c
  case h_16 => exact h
  -- the other states do not use the index, nor do those that follow them
  all_goals
    try unfold headerFieldStep
    try unfold headerValueStep
    try unfold partDataStep
    split_ifs
    all_goals first
      | exact h
      | exact h.of_state rfl nofun nofun

/-- The reads and writes of a round are in bounds. -/
theorem Bounded.accesses {p : MultipartParser} (h : Bounded p) (c : UInt8) :
    (∀ n, boundaryRead p = some n → n < p.boundary.length) ∧
      ∀ n b, lookbehindWrite p c = some (n, b) → n < p.boundary.length + 2 := by
  have hpos := h.pos
  constructor
  · intro n hn
    unfold boundaryRead at hn
    split at hn
    -- `s_start` sets the index to 0 and falls through, so it needs no bound of its own
    · split_ifs at hn
      obtain rfl := Option.some.inj hn
      exact hpos
    · next hst =>
      split_ifs at hn with hend
      obtain rfl := Option.some.inj hn
      have hle := h.start hst
      omega
    · next hst =>
      obtain rfl := Option.some.inj hn
      exact h.data hst
    · cases hn
  · intro n b hn
    unfold lookbehindWrite at hn
    split at hn
    · split_ifs at hn
      obtain ⟨rfl, -⟩ := Prod.mk.inj (Option.some.inj hn)
      omega
    · split_ifs at hn
      obtain ⟨rfl, -⟩ := Prod.mk.inj (Option.some.inj hn)
      omega
    · split_ifs at hn
      obtain ⟨rfl, -⟩ := Prod.mk.inj (Option.some.inj hn)
      omega
    · next hst =>
      split_ifs at hn
      obtain ⟨rfl, -⟩ := Prod.mk.inj (Option.some.inj hn)
      have hlt := h.data hst
      omega
    · cases hn

/-! ### The loop with its index -/

/-- A buffer: its length is a `size_t`. -/
structure Buffer where
  bytes : Bytes
  fits : bytes.length < 2 ^ 64

/-- `++i` on a `size_t`. -/
def sizeSucc (i : Nat) : Nat := (i + 1) % 2 ^ 64

/-- Between two calls, or in the loop of one at the index `i`. -/
inductive Phase (σ : Type) where
  | idle (p : MultipartParser) (data : σ)
  | running (buf : Buffer) (i : Nat) (s : Scan σ)

/-- A call, or the next round of its loop. -/
inductive ParserEvent where
  | execute (buf : Buffer)
  | round

/-- The parser of a phase. -/
def Phase.parser : Phase σ → MultipartParser
  | idle p _ => p
  | running _ _ s => s.parser

variable (cb) in
/-- One round of `while (i < len)`, or the `return len` behind it. The output is what the
call returns. A round in which a callback throws does not happen here. -/
def roundAt (buf : Buffer) (i : Nat) (s : Scan σ) : Option (Phase σ × Option Nat) :=
  if h : i < buf.bytes.length then
    match step cb s buf.bytes[i] (i = buf.bytes.length - 1) with
    | .error _ => none
    | .ok (.stop, s') => some (.idle s'.parser s'.data, some i)
    | .ok (.next, s') => some (.running buf (sizeSucc i) s', none)
    -- `i--`, which wraps at 0, and then `++i`
    | .ok (.again, s') => some (.running buf (sizeSucc (sizeSub i 1)) s', none)
  else some (.idle s.parser s.data, some buf.bytes.length)

variable (cb) in
/-- `multipart_parser_execute` called again and again on the parser of `boundary`. -/
def machine (boundary : Bytes) (data : σ) : Machine (Phase σ) ParserEvent (Option Nat) where
  init := .idle (init boundary) data
  step
    | .idle p data, .execute buf => some (.running buf 0 ⟨p, [], data⟩, none)
    | .running buf i s, .round => roundAt cb buf i s
    | _, _ => none

theorem sizeSucc_of_lt {i n : Nat} (hi : i < n) (hn : n < 2 ^ 64) : sizeSucc i = i + 1 :=
  Nat.mod_eq_of_lt (by omega)

/-- The step back is undone, also at the offset 0. -/
theorem sizeSucc_sizeSub {i : Nat} (hi : i < 2 ^ 64) : sizeSucc (sizeSub i 1) = i := by
  unfold sizeSucc sizeSub
  split_ifs with h
  · rw [Nat.sub_add_cancel h, Nat.mod_eq_of_lt hi]
  · obtain rfl : i = 0 := by omega
    decide

/-- What a round of the loop does to the index. -/
theorem roundAt_cases {buf : Buffer} {i : Nat} {s : Scan σ} (hi : i ≤ buf.bytes.length)
    {ph : Phase σ} {r : Option Nat} (h : roundAt cb buf i s = some (ph, r)) :
    (∃ p d n, ph = .idle p d ∧ r = some n ∧ n ≤ buf.bytes.length) ∨
      ∃ i' s', ph = .running buf i' s' ∧ r = none ∧ i' ≤ buf.bytes.length ∧
        2 * (buf.bytes.length - i') + s'.rereads < 2 * (buf.bytes.length - i) + s.rereads := by
  have hfits := buf.fits
  unfold roundAt at h
  split at h
  next hlt =>
    cases hstep : step cb s buf.bytes[i] (i = buf.bytes.length - 1) with
    | error e => simp [hstep] at h
    | ok mv =>
      obtain ⟨mv, s'⟩ := mv
      cases mv with
      | stop =>
        simp only [hstep, Option.some.injEq, Prod.mk.injEq] at h
        exact Or.inl ⟨_, _, i, h.1.symm, h.2.symm, hi⟩
      | next =>
        simp only [hstep, Option.some.injEq, Prod.mk.injEq, sizeSucc_of_lt hlt hfits] at h
        have hreread := s'.rereads_le_one
        exact Or.inr ⟨i + 1, s', h.1.symm, h.2.symm, hlt, by omega⟩
      | again =>
        simp only [hstep, Option.some.injEq, Prod.mk.injEq,
          sizeSucc_sizeSub (lt_trans hlt hfits)] at h
        have hreread := rereads_of_again hstep
        exact Or.inr ⟨i, s', h.1.symm, h.2.symm, hi, by omega⟩
  next hge =>
    simp only [Option.some.injEq, Prod.mk.injEq] at h
    exact Or.inl ⟨_, _, _, h.1.symm, h.2.symm, le_rfl⟩

/-- A round does to the parser what `parserStep` says, or leaves it. -/
theorem parser_roundAt {buf : Buffer} {i : Nat} {s : Scan σ} {ph : Phase σ} {r : Option Nat}
    (h : roundAt cb buf i s = some (ph, r)) :
    ph.parser = s.parser ∨ ∃ c, ph.parser = (parserStep s.parser c).2 := by
  unfold roundAt at h
  split at h
  next hlt =>
    cases hstep : step cb s buf.bytes[i] (i = buf.bytes.length - 1) with
    | error e => simp [hstep] at h
    | ok mv =>
      obtain ⟨mv, s'⟩ := mv
      refine Or.inr ⟨buf.bytes[i], ?_⟩
      rw [parserStep_of_step hstep]
      cases mv with
      | _ =>
        simp only [hstep, Option.some.injEq, Prod.mk.injEq] at h
        rw [← h.1]
        rfl
  next hge =>
    simp only [Option.some.injEq, Prod.mk.injEq] at h
    rw [← h.1]
    exact Or.inl rfl

theorem isSome_roundAt (hcb : Returns cb) (buf : Buffer) (i : Nat) (s : Scan σ) :
    ∃ x, roundAt cb buf i s = some x := by
  unfold roundAt
  split
  next hlt =>
    obtain ⟨⟨mv, s'⟩, hstep⟩ := isOk_step hcb s buf.bytes[i] (i = buf.bytes.length - 1)
    cases mv <;> simp [hstep]
  · exact ⟨_, rfl⟩

/-! ### Whole runs -/

/-- What holds of a phase in every run. -/
structure Phase.Good (boundary : Bytes) (ph : Phase σ) : Prop where
  boundary_eq : ph.parser.boundary = cStr boundary
  bounded : Bounded ph.parser
  index_le : ∀ buf i s, ph = .running buf i s → i ≤ buf.bytes.length

variable {boundary : Bytes} {data : σ}

theorem good_init (hboundary : cStr boundary ≠ []) :
    Phase.Good boundary (Phase.idle (init boundary) data) :=
  ⟨rfl, bounded_init hboundary, nofun⟩

/-- **A step keeps the invariant.** -/
theorem Phase.Good.step {ph ph' : Phase σ} {e : ParserEvent} {r : Option Nat}
    (hgood : Phase.Good boundary ph) (h : (machine cb boundary data).step ph e = some (ph', r)) :
    Phase.Good boundary ph' := by
  cases ph with
  | idle p d =>
    cases e with
    | round => cases h
    | execute buf =>
      simp only [machine, Option.some.injEq, Prod.mk.injEq] at h
      rw [← h.1]
      refine ⟨hgood.boundary_eq, hgood.bounded, fun buf' i s hph => ?_⟩
      obtain ⟨-, rfl, -⟩ := Phase.running.inj hph
      exact Nat.zero_le _
  | running buf i s =>
    cases e with
    | execute buf' => cases h
    | round =>
      have hi := hgood.index_le buf i s rfl
      have hbounds : ph'.parser.boundary = cStr boundary ∧ Bounded ph'.parser := by
        obtain hp | ⟨c, hp⟩ := parser_roundAt h
        · rw [hp]
          exact ⟨hgood.boundary_eq, hgood.bounded⟩
        · rw [hp, boundary_parserStep]
          exact ⟨hgood.boundary_eq, hgood.bounded.parserStep c⟩
      refine ⟨hbounds.1, hbounds.2, fun buf' i' s' hph => ?_⟩
      obtain ⟨p, d, n, rfl, -⟩ | ⟨i₁, s₁, rfl, -, hle, -⟩ := roundAt_cases hi h
      · cases hph
      · obtain ⟨rfl, rfl, -⟩ := Phase.running.inj hph
        exact hle

theorem good_of_reach (hboundary : cStr boundary ≠ []) {h : List (ParserEvent × Option Nat)}
    {ph : Phase σ} (hr : (machine cb boundary data).Reach h ph) : Phase.Good boundary ph :=
  Machine.Reach.invariant (I := fun _ ph => Phase.Good boundary ph) (good_init hboundary)
    (fun _ _ _ _ _ _ hgood hstep => hgood.step hstep) hr

/-- After `k` rounds the call that runs in `ph` returns `r`. -/
def EndsIn (M : Machine (Phase σ) ParserEvent (Option Nat)) (ph : Phase σ) (k : Nat)
    (p : MultipartParser) (d : σ) (r : Nat) : Prop :=
  ∃ h, M.runFrom? ph (List.replicate k .round) = some (h, .idle p d) ∧
    h.getLast? = some (.round, some r)

/-- The call that runs in `ph` ends within `n` rounds, and its result is at most `len`. -/
def EndsWithin (M : Machine (Phase σ) ParserEvent (Option Nat)) (ph : Phase σ) (n len : Nat) :
    Prop :=
  ∃ k ≤ n, ∃ p d r, EndsIn M ph k p d r ∧ r ≤ len

section
variable {buf : Buffer} {i i' : Nat} {s s' : Scan σ} {p : MultipartParser} {d : σ} {k r : Nat}

theorem endsIn_one (h : roundAt cb buf i s = some (.idle p d, some r)) :
    EndsIn (machine cb boundary data) (.running buf i s) 1 p d r := by
  have hstep : (machine cb boundary data).step (.running buf i s) .round =
      some (.idle p d, some r) := h
  refine ⟨[(.round, some r)], ?_, rfl⟩
  simp only [List.replicate_one, Machine.runFrom?, hstep, Option.map_some]

theorem EndsIn.cons (hround : roundAt cb buf i s = some (.running buf i' s', none))
    (h : EndsIn (machine cb boundary data) (.running buf i' s') k p d r) :
    EndsIn (machine cb boundary data) (.running buf i s) (k + 1) p d r := by
  obtain ⟨hist, hrun, hlast⟩ := h
  have hstep : (machine cb boundary data).step (.running buf i s) .round =
      some (.running buf i' s', none) := hround
  refine ⟨(.round, none) :: hist, ?_, ?_⟩
  · simp only [List.replicate_succ, Machine.runFrom?, hstep, hrun, Option.map_some]
  · rw [List.getLast?_cons, hlast]
    rfl

end

/-- **The loop ends**: a round goes on by a byte, or back by one and into a state that does
not go back. -/
theorem endsWithin_running (hcb : Returns cb) (buf : Buffer) (i : Nat) (s : Scan σ)
    (hi : i ≤ buf.bytes.length) :
    EndsWithin (machine cb boundary data) (.running buf i s)
      (2 * (buf.bytes.length - i) + s.rereads + 1) buf.bytes.length := by
  -- on the measure of `roundAt_cases`
  generalize hm : 2 * (buf.bytes.length - i) + s.rereads = m
  induction m using Nat.strong_induction_on generalizing i s with
  | _ m ih =>
    obtain ⟨⟨ph, r⟩, hround⟩ := isSome_roundAt hcb buf i s
    obtain ⟨p, d, n, rfl, rfl, hn⟩ | ⟨i', s', rfl, rfl, hi', hlt⟩ := roundAt_cases hi hround
    · exact ⟨1, by omega, p, d, n, endsIn_one hround, hn⟩
    · obtain ⟨k, hk, p, d, n, hends, hn⟩ := ih _ (hm ▸ hlt) i' s' hi' rfl
      exact ⟨k + 1, by omega, p, d, n, hends.cons hround, hn⟩

/-- The byte at the index is the last exactly if nothing stands behind it. -/
private theorem exists_of_cons_eq_drop {bytes cs : Bytes} {i : Nat} {c : UInt8}
    (hdrop : c :: cs = bytes.drop i) :
    ∃ h : i < bytes.length, bytes[i] = c ∧ cs = bytes.drop (i + 1) ∧
      decide (i = bytes.length - 1) = cs.isEmpty := by
  have hlen : i < bytes.length := by
    by_contra hge
    rw [List.drop_eq_nil_of_le (not_lt.mp hge)] at hdrop
    cases hdrop
  rw [List.drop_eq_getElem_cons hlen] at hdrop
  obtain ⟨rfl, rfl⟩ := List.cons.inj hdrop
  refine ⟨hlen, rfl, rfl, ?_⟩
  rw [Bool.eq_iff_iff, decide_eq_true_iff, List.isEmpty_iff, List.drop_eq_nil_iff]
  omega

/-- The rounds of a call compute what `multipart_parser_execute` returns. -/
theorem endsIn_execute {s s' : Scan σ} {rest rest' : Bytes} {buf : Buffer} {i : Nat}
    (hrest : rest = buf.bytes.drop i) (hi : i ≤ buf.bytes.length)
    (h : execute cb s rest = .ok (rest', s')) :
    ∃ k, EndsIn (machine cb boundary data) (.running buf i s) k s'.parser s'.data
      (buf.bytes.length - rest'.length) := by
  have hfits := buf.fits
  -- along the recursion of `execute`, whose rest of the buffer is what the index leaves
  induction s, rest using execute.induct cb generalizing i with
  | case1 s =>
    rw [execute] at h
    simp only [Except.ok.injEq, Prod.mk.injEq] at h
    obtain ⟨rfl, rfl⟩ := h
    have hge : ¬ i < buf.bytes.length := not_lt.mpr (List.drop_eq_nil_iff.mp hrest.symm)
    refine ⟨1, endsIn_one ?_⟩
    simp only [roundAt, hge, dite_false, List.length_nil, Nat.sub_zero]
  | case2 s c cs e hstep =>
    rw [execute, hstep] at h
    cases h
  | case3 s c cs s₁ hstep =>
    obtain ⟨hlt, hc, -, hlast⟩ := exists_of_cons_eq_drop hrest
    rw [execute, hstep] at h
    simp only [Except.ok.injEq, Prod.mk.injEq] at h
    obtain ⟨rfl, rfl⟩ := h
    refine ⟨1, endsIn_one ?_⟩
    have hlen : buf.bytes.length - (c :: cs).length = i := by
      rw [hrest, List.length_drop]
      omega
    simp only [roundAt, hlt, dite_true, hc, hlast, hstep, hlen]
  | case4 s c cs s₁ hstep ih =>
    obtain ⟨hlt, hc, htail, hlast⟩ := exists_of_cons_eq_drop hrest
    rw [execute, hstep] at h
    obtain ⟨k, hends⟩ := ih htail hlt h
    refine ⟨k + 1, hends.cons ?_⟩
    simp only [roundAt, hlt, dite_true, hc, hlast, hstep, sizeSucc_of_lt hlt hfits]
  | case5 s c cs s₁ hstep ih =>
    obtain ⟨hlt, hc, -, hlast⟩ := exists_of_cons_eq_drop hrest
    rw [execute, hstep] at h
    obtain ⟨k, hends⟩ := ih hrest hi h
    refine ⟨k + 1, hends.cons ?_⟩
    simp only [roundAt, hlt, dite_true, hc, hlast, hstep, sizeSucc_sizeSub (lt_trans hlt hfits)]

/-- **A call of the machine is `multipart_parser_execute`.** -/
theorem endsIn_multipartParserExecute {p p' : MultipartParser} {d d' : σ} {buf : Buffer} {n : Nat}
    (h : multipartParserExecute cb p d buf.bytes = .ok (n, p', d')) :
    ∃ k, EndsIn (machine cb boundary data) (.running buf 0 ⟨p, [], d⟩) k p' d' n := by
  unfold multipartParserExecute at h
  cases hloop : execute cb ⟨p, [], d⟩ buf.bytes with
  | error e => simp [hloop, bind, Except.bind] at h
  | ok r =>
    obtain ⟨rest, s'⟩ := r
    simp only [hloop, bind, Except.bind, pure, Except.pure, Except.ok.injEq, Prod.mk.injEq] at h
    obtain ⟨rfl, rfl, rfl⟩ := h
    exact endsIn_execute List.drop_zero.symm (Nat.zero_le _) hloop

/-- **Every call stays in bounds and stops**, whatever was called before. -/
theorem machine_bounded (hboundary : cStr boundary ≠ []) (hcb : Returns cb)
    {h : List (ParserEvent × Option Nat)} {ph : Phase σ}
    (hr : (machine cb boundary data).Reach h ph) :
    ph.parser.boundary = cStr boundary ∧
      (ph.parser.state = .s_start_boundary → ph.parser.index ≤ (cStr boundary).length + 1) ∧
      (ph.parser.state = .s_part_data_boundary → ph.parser.index < (cStr boundary).length) ∧
      (∀ n, boundaryRead ph.parser = some n → n < (cStr boundary).length) ∧
      (∀ c n b, lookbehindWrite ph.parser c = some (n, b) → n < (cStr boundary).length + 2) ∧
      (∀ p d buf, ph = .idle p d →
        ∃ ph', (machine cb boundary data).step ph (.execute buf) = some (ph', none) ∧
          EndsWithin (machine cb boundary data) ph' (2 * buf.bytes.length + 2)
            buf.bytes.length) ∧
      ∀ buf i s, ph = .running buf i s → i ≤ buf.bytes.length ∧
        EndsWithin (machine cb boundary data) ph (2 * buf.bytes.length + 2)
          buf.bytes.length := by
  obtain ⟨heq, hbounded, hindex⟩ := good_of_reach hboundary hr
  have hends : ∀ buf i s, i ≤ buf.bytes.length →
      EndsWithin (machine cb boundary data) (.running buf i s) (2 * buf.bytes.length + 2)
        buf.bytes.length := by
    intro buf i s hi
    obtain ⟨k, hk, hrun⟩ := @endsWithin_running _ cb boundary data hcb buf i s hi
    have hreread := s.rereads_le_one
    exact ⟨k, by omega, hrun⟩
  refine ⟨heq, ?_, ?_, ?_, ?_, ?_, ?_⟩
  · intro hst
    rw [← heq]
    exact hbounded.start hst
  · intro hst
    rw [← heq]
    exact hbounded.data hst
  · rw [← heq]
    exact (hbounded.accesses 0).1
  · intro c
    rw [← heq]
    exact (hbounded.accesses c).2
  · rintro p d buf rfl
    exact ⟨_, rfl, hends buf 0 _ (Nat.zero_le _)⟩
  · rintro buf i s rfl
    exact ⟨hindex buf i s rfl, hends buf i s (hindex buf i s rfl)⟩

/-- Callbacks that count the bytes of the part data. -/
def countData : MultipartParserSettings Nat where
  onHeaderField _ d := .ok d
  onHeaderValue _ d := .ok d
  onPartData x d := .ok (d + x.length)
  onPartDataBegin d := .ok d
  onHeadersComplete d := .ok d
  onPartDataEnd d := .ok d
  onBodyEnd d := .ok d

theorem returns_countData : Returns countData where
  headerField _ d := ⟨d, rfl⟩
  headerValue _ d := ⟨d, rfl⟩
  partData x d := ⟨d + x.length, rfl⟩
  partDataBegin d := ⟨d, rfl⟩
  headersComplete d := ⟨d, rfl⟩
  partDataEnd d := ⟨d, rfl⟩
  bodyEnd d := ⟨d, rfl⟩

/-- After the buffer `-CRLF CRLF CR` the parser stands in `s_part_data_almost_boundary`, so
that the next buffer, which does not start with LF, makes it go back at its offset 0. -/
theorem machine_bounded_stepBack :
    ∃ h ph, (machine countData [hyphen] 0).Reach h ph ∧
      ph.parser.state = .s_part_data ∧
      ∀ buf i s, ph = .running buf i s → i ≤ buf.bytes.length ∧
        EndsWithin (machine countData [hyphen] 0) ph (2 * buf.bytes.length + 2)
          buf.bytes.length := by
  have hrun : ((machine countData [hyphen] 0).run?
      ([ParserEvent.execute ⟨[hyphen, cr, lf, cr, lf, cr], by decide⟩] ++
        List.replicate 7 .round ++ [.execute ⟨[hyphen], by decide⟩, .round])).any
          (fun r => r.2.parser.state == .s_part_data) = true := by decide
  obtain ⟨h, ph, hr, hst⟩ := Machine.exists_reach_of_run? hrun
  have hbounded := machine_bounded (by decide) returns_countData hr
  exact ⟨h, ph, hr, by simpa using hst, hbounded.2.2.2.2.2.2⟩

end Wfrest.MultipartParser
