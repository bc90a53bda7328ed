import Wfrest.Form.MultiPartParser
import Mathlib.Data.List.Infix

/-!
# What the multipart parser does on a well-formed body

One lemma for each piece of a body: the first boundary, a header line, the blank
line, the data up to the next delimiter, and what follows it. Each says which
callbacks are called, and that the parser goes on with the rest of the buffer.

The data is the interesting piece. Between two bytes the parser holds back what may
be the beginning of the delimiter (`Held`), and every byte either extends what is
held or emits some of it (`held_step`); nothing is lost, nothing is emitted twice.
-/

namespace Wfrest.MultipartParser

variable {σ : Type} {cb : MultipartParserSettings σ} {s : Scan σ} {c : UInt8} {cs : Bytes}
  {p : MultipartParser} {m : Bytes} {d : σ}

/-- One round of the loop. -/
theorem execute_cons : execute cb s (c :: cs) =
    (step cb s c cs.isEmpty >>= fun r =>
      match r.1 with
      | .stop => .ok (c :: cs, r.2)
      | .next => execute cb r.2 cs
      | .again => execute cb r.2 (c :: cs)) := by
  rw [execute]
  split <;> next h => simp [h, bind, Except.bind]

@[simp] theorem execute_nil : execute cb s [] = .ok ([], s) := by
  rw [execute]

/-- A byte that is passed over. -/
theorem execute_of_next {s' : Scan σ} (h : step cb s c cs.isEmpty = next s' c) :
    execute cb s (c :: cs) = execute cb { s' with marked := s'.marked ++ [c] } cs := by
  rw [execute_cons, h]
  rfl

/-- What follows a callback goes on with the data that the callback leaves. -/
theorem call_bind {β : Type} (s : Scan σ) (f : σ → Except StdException σ)
    (k : Scan σ → Except StdException β) :
    (s.call f >>= k) = (f s.data >>= fun d => k { s with data := d }) := by
  unfold Scan.call
  cases f s.data with
  | error e => rfl
  | ok d => rfl

/-- A byte at which one callback is called. -/
theorem execute_of_call {f : σ → Except StdException σ} {g : Scan σ → Scan σ}
    (h : step cb s c cs.isEmpty = (s.call f >>= fun t => next (g t) c)) :
    execute cb s (c :: cs) = (f s.data >>= fun d =>
      let t := g { s with data := d }
      execute cb { t with marked := t.marked ++ [c] } cs) := by
  rw [execute_cons, h, call_bind, bind_assoc]
  rfl

/-- A byte that is read again after a callback. -/
theorem execute_of_again {f : σ → Except StdException σ} {st : ParserState}
    (h : step cb s c cs.isEmpty = (s.call f >>= fun t => again (t.goto st))) :
    execute cb s (c :: cs) = (f s.data >>= fun d =>
      execute cb (({ s with data := d } : Scan σ).goto st).setMark (c :: cs)) := by
  rw [execute_cons, h, call_bind, bind_assoc]
  rfl

/-! ### The first boundary -/

/-- The piece `y` of the boundary is passed over. -/
private theorem execute_boundary_piece {x y z rest : Bytes} (hp : p.boundary = x ++ (y ++ z))
    (hst : p.state = .s_start_boundary) (hi : p.index = x.length) :
    execute cb ⟨p, m, d⟩ (y ++ rest) =
      execute cb ⟨{ p with index := (x ++ y).length }, m ++ y, d⟩ rest := by
  induction y generalizing x p m with
  | nil =>
    rw [List.append_nil, ← hi]
    simp
  | cons c y ih =>
    have hlt : p.index < p.boundary.length := by simp [hp, hi]
    have hget : p.boundary.getD p.index 0 = c := by simp [hp, hi]
    have hstep : step cb ⟨p, m, d⟩ c (y ++ rest).isEmpty =
        next (Scan.setIndex ⟨p, m, d⟩ (p.index + 1)) c := by
      have h₁ : p.index ≠ p.boundary.length := hlt.ne
      have h₂ : p.index ≠ p.boundary.length + 1 := by omega
      simp only [step, hst, startBoundary, if_neg h₁, if_neg h₂, hget, ne_eq, not_true_eq_false,
        if_false]
    rw [List.cons_append, execute_of_next hstep]
    change execute cb ⟨{ p with index := p.index + 1 }, m ++ [c], d⟩ (y ++ rest) = _
    rw [ih (p := { p with index := p.index + 1 }) (x := x ++ [c]) (by simpa using hp) hst
      (by simp [hi])]
    simp

/-- `s_start` falls through to `s_start_boundary`. -/
private theorem execute_fromStart {buf : Bytes} (hst : p.state = .s_start) (hbuf : buf ≠ []) :
    execute cb ⟨p, m, d⟩ buf =
      execute cb ⟨{ p with state := .s_start_boundary, index := 0 }, m, d⟩ buf := by
  obtain ⟨c, cs, rfl⟩ := List.exists_cons_of_ne_nil hbuf
  have hstep : step cb ⟨p, m, d⟩ c cs.isEmpty =
      step cb ⟨{ p with state := .s_start_boundary, index := 0 }, m, d⟩ c cs.isEmpty := by
    simp [step, hst, Scan.goto, Scan.setIndex]
  rw [execute_cons, execute_cons, hstep]

/-- The boundary line at the start of the body. -/
theorem execute_start {rest : Bytes} (hst : p.state = .s_start) :
    execute cb ⟨p, m, d⟩ (p.boundary ++ crlf ++ rest) =
      (cb.onPartDataBegin d >>= fun d =>
        execute cb ⟨{ p with state := .s_header_field_start, index := 0 },
          m ++ p.boundary ++ crlf, d⟩ rest) := by
  rw [execute_fromStart hst (by simp [crlf]), List.append_assoc,
    execute_boundary_piece (x := []) (z := []) (by simp) rfl rfl, List.nil_append]
  have hcr : ∀ cs : Bytes, step cb
      -- behind the boundary the index counts on: CR at its length, LF one further
      ⟨{ p with state := .s_start_boundary, index := p.boundary.length }, m ++ p.boundary, d⟩
        cr cs.isEmpty =
      next ⟨{ p with state := .s_start_boundary, index := p.boundary.length + 1 },
        m ++ p.boundary, d⟩ cr := by
    intro cs
    simp [step, startBoundary, Scan.setIndex]
  have hlf : ∀ cs : Bytes, step cb
      ⟨{ p with state := .s_start_boundary, index := p.boundary.length + 1 },
        m ++ p.boundary ++ [cr], d⟩ lf cs.isEmpty =
      (Scan.call ⟨{ p with state := .s_start_boundary, index := p.boundary.length + 1 },
        m ++ p.boundary ++ [cr], d⟩ cb.onPartDataBegin >>= fun t =>
          next ((t.setIndex 0).goto .s_header_field_start) lf) := by
    intro cs
    cases h : cb.onPartDataBegin d <;>
      simp [step, startBoundary, Scan.setIndex, Scan.call, h, bind, Except.bind, Scan.goto]
  change execute cb _ (cr :: lf :: rest) = _
  rw [execute_of_next (hcr _)]
  change execute cb
    ⟨{ p with state := .s_start_boundary, index := p.boundary.length + 1 },
      m ++ p.boundary ++ [cr], d⟩ (lf :: rest) = _
  rw [execute_of_call (hlf _)]
  simp [Scan.setIndex, Scan.goto, crlf]

/-- A body that leaves the boundary line at the byte `c` is given up there, before any
callback. -/
theorem execute_start_stop {x y rest : Bytes} {c : UInt8} (hst : p.state = .s_start)
    (hp : p.boundary = x ++ y) (hc : (y ++ [cr]).head? ≠ some c) :
    ∃ s', s'.data = d ∧ execute cb ⟨p, m, d⟩ (x ++ c :: rest) = .ok (c :: rest, s') := by
  rw [execute_fromStart hst (by simp), execute_boundary_piece (x := []) (by simpa using hp) rfl rfl]
  refine ⟨⟨{ p with state := .s_start_boundary, index := ([] ++ x).length }, m ++ x, d⟩,
    rfl, ?_⟩
  have hstop : step cb ⟨{ p with state := .s_start_boundary, index := ([] ++ x).length },
      m ++ x, d⟩ c rest.isEmpty =
      stop ⟨{ p with state := .s_start_boundary, index := ([] ++ x).length }, m ++ x, d⟩ := by
    cases y with
    | nil =>
      -- the boundary is complete and CR is missing, or its next byte is another one
      have hlen : x.length = p.boundary.length := by rw [hp, List.append_nil]
      have hcr : c ≠ cr := fun h => hc (by simp [h])
      simp [step, startBoundary, hlen, hcr]
    | cons b y =>
      have h₁ : x.length ≠ p.boundary.length := by simp [hp]
      have h₂ : x.length ≠ p.boundary.length + 1 := by
        rw [hp, List.length_append, List.length_cons]
        omega
      have hget : c ≠ p.boundary.getD x.length 0 := by
        intro h
        exact hc (by simp [h, hp])
      simp only [step, startBoundary, List.nil_append, if_neg h₁, if_neg h₂, if_pos hget]
  rw [execute_cons, hstop]
  rfl

/-! ### Header lines -/

/-- A letter or a hyphen. -/
def IsNameChar (c : UInt8) : Prop := c = hyphen ∨ (97 ≤ tolower c ∧ tolower c ≤ 122)

instance (c : UInt8) : Decidable (IsNameChar c) := inferInstanceAs (Decidable (_ ∨ _))

private theorem IsNameChar.ne {c : UInt8} (h : IsNameChar c) : c ≠ cr ∧ c ≠ colon := by
  constructor <;>
  · rintro rfl
    revert h
    decide

private theorem execute_fieldChars {name rest : Bytes} (hname : ∀ c ∈ name, IsNameChar c)
    (hrest : rest ≠ []) (hst : p.state = .s_header_field) :
    execute cb ⟨p, m, d⟩ (name ++ rest) = execute cb ⟨p, m ++ name, d⟩ rest := by
  induction name generalizing m with
  | nil => simp
  | cons c name ih =>
    have hc : IsNameChar c := hname c List.mem_cons_self
    have hne : (name ++ rest).isEmpty = false := by simp [hrest]
    have hok : ¬(c ≠ hyphen ∧ (tolower c < 97 ∨ 122 < tolower c)) := by
      rintro ⟨hh, hr⟩
      rcases hc with h | ⟨h₁, h₂⟩
      · exact hh h
      · exact hr.elim (not_lt.mpr h₁) (not_lt.mpr h₂)
    have hstep : step cb ⟨p, m, d⟩ c (name ++ rest).isEmpty = next ⟨p, m, d⟩ c := by
      rw [hne]
      simp only [step, hst, headerField, if_neg hc.ne.1, if_neg hc.ne.2, if_neg hok,
        Bool.false_eq_true, if_false]
    rw [List.cons_append, execute_of_next hstep]
    change execute cb ⟨p, m ++ [c], d⟩ (name ++ rest) = _
    rw [ih fun b hb => hname b (List.mem_cons_of_mem _ hb)]
    simp

private theorem execute_fieldStart {buf : Bytes} (hbuf : buf ≠ [])
    (hst : p.state = .s_header_field_start) :
    execute cb ⟨p, m, d⟩ buf = execute cb ⟨{ p with state := .s_header_field }, [], d⟩ buf := by
  obtain ⟨c, cs, rfl⟩ := List.exists_cons_of_ne_nil hbuf
  have hstep : step cb ⟨p, m, d⟩ c cs.isEmpty =
      step cb ⟨{ p with state := .s_header_field }, [], d⟩ c cs.isEmpty := by
    simp [step, hst, Scan.goto, Scan.setMark]
  rw [execute_cons, execute_cons, hstep]

/-- The name of a header. -/
theorem execute_headerField {name rest : Bytes} (hname : ∀ c ∈ name, IsNameChar c)
    (hst : p.state = .s_header_field_start) :
    execute cb ⟨p, m, d⟩ (name ++ colon :: rest) =
      (cb.onHeaderField name d >>= fun d =>
        execute cb ⟨{ p with state := .s_header_value_start }, name ++ [colon], d⟩ rest) := by
  rw [execute_fieldStart (by simp) hst, execute_fieldChars hname (by simp) rfl]
  have hstep : step cb ⟨{ p with state := .s_header_field }, [] ++ name, d⟩ colon rest.isEmpty =
      (Scan.call ⟨{ p with state := .s_header_field }, [] ++ name, d⟩ (cb.onHeaderField name) >>=
        fun t => next (t.goto .s_header_value_start) colon) := by
    have hne : colon ≠ cr := by decide
    cases h : cb.onHeaderField name d <;>
      simp [step, headerField, Scan.call, h, bind, Except.bind, hne]
  rw [execute_of_call hstep]
  simp [Scan.goto]

/-- The blank line after the headers. -/
theorem execute_blankLine {rest : Bytes} (hst : p.state = .s_header_field_start) :
    execute cb ⟨p, m, d⟩ (crlf ++ rest) =
      execute cb ⟨{ p with state := .s_part_data_start }, crlf, d⟩ rest := by
  rw [execute_fieldStart (by simp [crlf]) hst]
  have hcr : ∀ cs : Bytes,
      step cb ⟨{ p with state := .s_header_field }, [], d⟩ cr cs.isEmpty =
        next ⟨{ p with state := .s_headers_almost_done }, [], d⟩ cr := by
    intro cs
    simp [step, headerField, Scan.goto]
  have hlf : ∀ cs : Bytes,
      step cb ⟨{ p with state := .s_headers_almost_done }, [cr], d⟩ lf cs.isEmpty =
        next ⟨{ p with state := .s_part_data_start }, [cr], d⟩ lf := by
    intro cs
    simp [step, Scan.goto]
  change execute cb _ (cr :: lf :: rest) = _
  rw [execute_of_next (hcr _)]
  change execute cb ⟨{ p with state := .s_headers_almost_done }, [cr], d⟩ (lf :: rest) = _
  rw [execute_of_next (hlf _)]
  rfl

private theorem execute_spaces {spaces rest : Bytes} (hsp : ∀ c ∈ spaces, c = space)
    (hst : p.state = .s_header_value_start) :
    execute cb ⟨p, m, d⟩ (spaces ++ rest) = execute cb ⟨p, m ++ spaces, d⟩ rest := by
  induction spaces generalizing m with
  | nil => simp
  | cons c spaces ih =>
    have hc : c = space := hsp c List.mem_cons_self
    have hstep : step cb ⟨p, m, d⟩ c (spaces ++ rest).isEmpty = next ⟨p, m, d⟩ c := by
      simp [step, hst, hc]
    rw [List.cons_append, execute_of_next hstep]
    change execute cb ⟨p, m ++ [c], d⟩ (spaces ++ rest) = _
    rw [ih fun b hb => hsp b (List.mem_cons_of_mem _ hb)]
    simp

private theorem execute_valueChars {v rest : Bytes} (hv : cr ∉ v) (hrest : rest ≠ [])
    (hst : p.state = .s_header_value) :
    execute cb ⟨p, m, d⟩ (v ++ rest) = execute cb ⟨p, m ++ v, d⟩ rest := by
  induction v generalizing m with
  | nil => simp
  | cons c v ih =>
    have hc : c ≠ cr := fun h => hv (h ▸ List.mem_cons_self)
    have hne : (v ++ rest).isEmpty = false := by simp [hrest]
    have hstep : step cb ⟨p, m, d⟩ c (v ++ rest).isEmpty = next ⟨p, m, d⟩ c := by
      rw [hne]
      simp [step, hst, headerValue, hc]
    rw [List.cons_append, execute_of_next hstep]
    change execute cb ⟨p, m ++ [c], d⟩ (v ++ rest) = _
    rw [ih fun h => hv (List.mem_cons_of_mem _ h)]
    simp

/-- What `on_header_value` gets: the leading spaces are skipped. -/
def trimValue (v : Bytes) : Bytes := v.dropWhile (· = space)

private theorem ne_space_of_trimValue {v bs : Bytes} {b : UInt8} (h : trimValue v = b :: bs) :
    b ≠ space := by
  have hhead := List.head?_dropWhile_not (fun b => decide (b = space)) v
  rw [show List.dropWhile (fun b => decide (b = space)) v = b :: bs from h] at hhead
  simpa using hhead

/-- The value of a header and the end of its line. -/
theorem execute_headerValue {v rest : Bytes} (hv : cr ∉ v)
    (hst : p.state = .s_header_value_start) :
    execute cb ⟨p, m, d⟩ (v ++ crlf ++ rest) =
      (cb.onHeaderValue (trimValue v) d >>= fun d =>
        execute cb ⟨{ p with state := .s_header_field_start }, trimValue v ++ crlf, d⟩
          rest) := by
  have hsplit : v ++ crlf ++ rest =
      v.takeWhile (· = space) ++ (trimValue v ++ crlf ++ rest) := by
    rw [← List.append_assoc, ← List.append_assoc, trimValue, List.takeWhile_append_dropWhile]
  rw [hsplit, execute_spaces (fun c hc => by simpa using List.mem_takeWhile_imp hc) hst]
  have hv' : cr ∉ trimValue v := fun h => hv ((List.dropWhile_suffix _).subset h)
  have hhead : ∀ c cs, trimValue v ++ crlf ++ rest = c :: cs → c ≠ space := by
    intro c cs heq hc
    cases htv : trimValue v with
    | nil =>
      rw [htv] at heq
      have : cr = c := (List.cons.inj heq).1
      exact absurd (this.trans hc) (by decide)
    | cons b bs =>
      rw [htv] at heq
      have hb : b = c := (List.cons.inj heq).1
      exact ne_space_of_trimValue htv (hb.trans hc)
  -- the first byte that is no space falls through to `s_header_value`
  have hfall : ∀ buf, buf ≠ [] → (∀ c cs, buf = c :: cs → c ≠ space) → ∀ m' : Bytes,
      execute cb ⟨p, m', d⟩ buf =
        execute cb ⟨{ p with state := .s_header_value }, [], d⟩ buf := by
    intro buf hbuf hsp m'
    obtain ⟨c, cs, rfl⟩ := List.exists_cons_of_ne_nil hbuf
    have hc := hsp c cs rfl
    have hstep : step cb ⟨p, m', d⟩ c cs.isEmpty =
        step cb ⟨{ p with state := .s_header_value }, [], d⟩ c cs.isEmpty := by
      simp [step, hst, Scan.goto, Scan.setMark, hc]
    rw [execute_cons, execute_cons, hstep]
  rw [hfall _ (by simp [crlf]) hhead, List.append_assoc,
    execute_valueChars hv' (by simp [crlf]) rfl]
  have hcr : ∀ cs : Bytes,
      step cb ⟨{ p with state := .s_header_value }, [] ++ trimValue v, d⟩ cr cs.isEmpty =
        (Scan.call ⟨{ p with state := .s_header_value }, [] ++ trimValue v, d⟩
          (cb.onHeaderValue (trimValue v)) >>=
          fun t => next (t.goto .s_header_value_almost_done) cr) := by
    intro cs
    cases h : cb.onHeaderValue (trimValue v) d <;>
      simp [step, headerValue, Scan.call, h, bind, Except.bind]
  change execute cb _ (cr :: lf :: rest) = _
  rw [execute_of_call (hcr _)]
  congr 1
  funext d
  have hlf : ∀ cs : Bytes,
      step cb ⟨{ p with state := .s_header_value_almost_done }, trimValue v ++ [cr], d⟩ lf
          cs.isEmpty =
        next ⟨{ p with state := .s_header_field_start }, trimValue v ++ [cr], d⟩ lf := by
    intro cs
    simp [step, Scan.goto]
  change execute cb ⟨{ p with state := .s_header_value_almost_done }, trimValue v ++ [cr], d⟩
    (lf :: rest) = _
  rw [execute_of_next (hlf _)]
  simp [crlf]

/-! ### Part data -/

/-- `on_part_data` may be given the data in pieces. -/
structure AppendsData (cb : MultipartParserSettings σ) : Prop where
  nil : ∀ d, cb.onPartData [] d = .ok d
  append : ∀ x y d, cb.onPartData (x ++ y) d = (cb.onPartData x d >>= cb.onPartData y)

/-- The delimiter behind the data. -/
def delimiter (boundary : Bytes) : Bytes := crlf ++ boundary

/-- A parser for a non-empty boundary without line ends, with room to look behind. -/
structure Ready (boundary : Bytes) (p : MultipartParser) : Prop where
  boundary_eq : p.boundary = boundary
  ne_nil : boundary ≠ []
  cr_notMem : cr ∉ boundary
  room : boundary.length + 2 ≤ p.lookbehind.length

/-- `Held p m h`: between two bytes of the data, `h` was read and not emitted. It is
the slice from the mark, or a beginning of the delimiter that is in `lookbehind`. -/
inductive Held (p : MultipartParser) (m : Bytes) : Bytes → Prop
  | data (hst : p.state = .s_part_data) : Held p m m
  | almost (hst : p.state = .s_part_data_almost_boundary)
      (hlook : p.lookbehind.take 1 = [cr]) : Held p m [cr]
  | boundary (hst : p.state = .s_part_data_boundary) (hlt : p.index < p.boundary.length)
      (hlook : p.lookbehind.take (2 + p.index) = crlf ++ p.boundary.take p.index) :
      Held p m (crlf ++ p.boundary.take p.index)

variable {boundary h : Bytes}

/-- The outcome of a byte in the data: the parser emits `e` and holds `h'`. -/
private structure Emits (cb : MultipartParserSettings σ) (boundary : Bytes)
    (p : MultipartParser) (m : Bytes) (c : UInt8) (e : Bytes) (p' : MultipartParser)
    (m' h' : Bytes) : Prop where
  ready : Ready boundary p'
  held : Held p' m' h'
  run : ∀ d cs, cs ≠ [] → execute cb ⟨p, m, d⟩ (c :: cs) =
    (cb.onPartData e d >>= fun d => execute cb ⟨p', m', d⟩ cs)

/-- A byte in `s_part_data`. -/
private theorem emits_data (hcb : AppendsData cb) (hr : Ready boundary p)
    (hst : p.state = .s_part_data) (c : UInt8) :
    ∃ e p' m' h', e ++ h' = m ++ [c] ∧ Emits cb boundary p m c e p' m' h' ∧
      (c = cr → h' = [cr] ∧ p'.state = .s_part_data_almost_boundary) := by
  by_cases hc : c = cr
  · subst hc
    -- the slice is emitted, and the CR may begin the delimiter
    refine ⟨m, { p with
      state := .s_part_data_almost_boundary, lookbehind := p.lookbehind.set 0 cr },
      [cr], [cr], rfl, ⟨?_, .almost rfl ?_, fun d cs hcs => ?_⟩, fun _ => ⟨rfl, rfl⟩⟩
    · exact ⟨hr.boundary_eq, hr.ne_nil, hr.cr_notMem, by simpa using hr.room⟩
    · have hlen := hr.room
      cases hl : p.lookbehind with
      | nil => simp [hl] at hlen
      | cons b bs => rfl
    · have hstep : step cb ⟨p, m, d⟩ cr cs.isEmpty =
          (Scan.call ⟨p, m, d⟩ (cb.onPartData m) >>= fun t =>
            next ((t.setMark.goto .s_part_data_almost_boundary).setLookbehind 0 cr) cr) := by
        simp [step, hst, partData]
      rw [execute_of_call hstep]
      rfl
  · refine ⟨[], p, m ++ [c], m ++ [c], rfl, ⟨hr, .data hst, fun d cs hcs => ?_⟩,
      fun h => absurd h hc⟩
    have hstep : step cb ⟨p, m, d⟩ c cs.isEmpty = next ⟨p, m, d⟩ c := by
      simp [step, hst, partData, hc, hcs]
    rw [execute_of_next hstep, hcb.nil]
    rfl

/-- A byte that does not go on with the delimiter is read again as data. -/
private theorem emits_again (hcb : AppendsData cb) (hr : Ready boundary p) {c : UInt8}
    (hstep : ∀ d (cs : Bytes), step cb ⟨p, m, d⟩ c cs.isEmpty =
      (Scan.call ⟨p, m, d⟩ (cb.onPartData h) >>= fun t => again (t.goto .s_part_data))) :
    ∃ e p' m' h', e ++ h' = h ++ [c] ∧ Emits cb boundary p m c e p' m' h' ∧
      (c = cr → h' = [cr] ∧ p'.state = .s_part_data_almost_boundary) := by
  obtain ⟨e, p', m', h', heq, hem, hcr⟩ := emits_data (p := { p with state := .s_part_data })
    (m := []) hcb ⟨hr.boundary_eq, hr.ne_nil, hr.cr_notMem, hr.room⟩ rfl c
  refine ⟨h ++ e, p', m', h', ?_, ⟨hem.ready, hem.held, fun d cs hcs => ?_⟩, hcr⟩
  · rw [List.append_assoc, heq]
    rfl
  · rw [execute_of_again (hstep d cs), hcb.append, bind_assoc]
    congr 1
    funext d
    exact hem.run d cs hcs

/-- **One byte of the data.** Unless it completes the delimiter, the parser emits a
beginning of what it holds and goes on holding the rest. -/
private theorem held_step (hcb : AppendsData cb) (hr : Ready boundary p) (hh : Held p m h)
    {c : UInt8} (hne : h ++ [c] ≠ delimiter boundary) :
    ∃ e p' m' h', e ++ h' = h ++ [c] ∧ Emits cb boundary p m c e p' m' h' ∧
      (c = cr → h' = [cr] ∧ p'.state = .s_part_data_almost_boundary) := by
  cases hh with
  | data hst => exact emits_data hcb hr hst c
  | almost hst hlook =>
    by_cases hc : c = lf
    · subst hc
      refine ⟨[], { p with
        state := .s_part_data_boundary, lookbehind := p.lookbehind.set 1 lf, index := 0 },
        m ++ [lf], crlf, rfl, ⟨?_, ?_, fun d cs hcs => ?_⟩, fun h => by cases h⟩
      · exact ⟨hr.boundary_eq, hr.ne_nil, hr.cr_notMem, by simpa using hr.room⟩
      · refine .boundary (p := { p with
          state := .s_part_data_boundary, lookbehind := p.lookbehind.set 1 lf, index := 0 })
          rfl ?_ ?_
        · rw [hr.boundary_eq]
          exact List.length_pos_iff.mpr hr.ne_nil
        · have hlen := hr.room
          match hl : p.lookbehind, hlook, hlen with
          | a :: b :: bs, hlook, _ =>
            obtain rfl : a = cr := by simpa using hlook
            simp [crlf]
          | [a], _, hlen => simp at hlen
      · have hstep : step cb ⟨p, m, d⟩ lf cs.isEmpty = next (((Scan.goto ⟨p, m, d⟩
            .s_part_data_boundary).setLookbehind 1 lf).setIndex 0) lf := by
          simp [step, hst]
        rw [execute_of_next hstep, hcb.nil]
        rfl
    · refine emits_again hcb hr fun d cs => ?_
      simp [step, hst, hc, hlook]
  | boundary hst hlt hlook =>
    by_cases hc : p.boundary.getD p.index 0 = c
    · have hsucc : p.boundary.take (p.index + 1) = p.boundary.take p.index ++ [c] := by
        rw [List.take_add_one]
        rw [List.getD_eq_getElem?_getD, List.getElem?_eq_getElem hlt] at hc
        rw [List.getElem?_eq_getElem hlt]
        exact congrArg (_ ++ [·]) hc
      -- the delimiter is not complete, so there is a next byte to match
      have hlt' : p.index + 1 < p.boundary.length := by
        refine lt_of_le_of_ne hlt fun heq => hne ?_
        rw [List.append_assoc, ← hsucc, heq, List.take_length, hr.boundary_eq, delimiter]
      refine ⟨[], { p with
        index := p.index + 1, lookbehind := p.lookbehind.set (2 + p.index) c },
        m ++ [c], crlf ++ p.boundary.take (p.index + 1), ?_, ⟨?_, ?_, fun d cs hcs => ?_⟩, ?_⟩
      · rw [List.nil_append, hsucc, List.append_assoc]
      · exact ⟨hr.boundary_eq, hr.ne_nil, hr.cr_notMem, by simpa using hr.room⟩
      · refine .boundary (p := { p with
          index := p.index + 1, lookbehind := p.lookbehind.set (2 + p.index) c }) hst hlt' ?_
        have hroom : 2 + p.index < p.lookbehind.length := by
          have := hr.room
          rw [← hr.boundary_eq] at this
          omega
        change (p.lookbehind.set (2 + p.index) c).take (2 + (p.index + 1)) = _
        rw [show 2 + (p.index + 1) = (2 + p.index) + 1 by omega, List.take_add_one,
          List.take_set_of_le le_rfl, hlook, hsucc]
        simp [hroom]
      · have hstep : step cb ⟨p, m, d⟩ c cs.isEmpty =
            next ((Scan.setLookbehind ⟨p, m, d⟩ (2 + p.index) c).setIndex (p.index + 1)) c := by
          simp only [step, hst, partDataBoundary, hc, ne_eq, not_true_eq_false, if_false]
          exact if_neg hlt'.ne
        rw [execute_of_next hstep, hcb.nil]
        rfl
      · rintro rfl
        -- the boundary has no CR
        refine absurd ?_ hr.cr_notMem
        rw [← hr.boundary_eq, ← hc, List.getD_eq_getElem?_getD, List.getElem?_eq_getElem hlt]
        exact List.getElem_mem hlt
    · refine emits_again hcb hr fun d cs => ?_
      rw [← hlook]
      simp only [step, hst, partDataBoundary, ne_eq, hc, not_false_eq_true, if_true]

/-- All bytes `x` of the data: the parser emits all of it but what it holds. -/
private theorem held_run (hcb : AppendsData cb) (hr : Ready boundary p) (hh : Held p m h)
    {x : Bytes} (hx : ¬ delimiter boundary <:+: h ++ x) :
    ∃ e p' m' h', e ++ h' = h ++ x ∧ Ready boundary p' ∧ Held p' m' h' ∧
      ∀ d rest, rest ≠ [] → execute cb ⟨p, m, d⟩ (x ++ rest) =
        (cb.onPartData e d >>= fun d => execute cb ⟨p', m', d⟩ rest) := by
  induction x generalizing p m h with
  | nil =>
    refine ⟨[], p, m, h, by simp, hr, hh, fun d rest _ => ?_⟩
    rw [hcb.nil]
    rfl
  | cons c x ih =>
    have hne : h ++ [c] ≠ delimiter boundary := by
      intro heq
      refine hx ⟨[], x, ?_⟩
      rw [← heq]
      simp
    -- the delimiter is not complete yet, since the data does not contain it
    obtain ⟨e, p', m', h', heq, hem, -⟩ := held_step hcb hr hh hne
    have hcat : e ++ (h' ++ x) = h ++ c :: x := by
      rw [← List.append_assoc, heq, List.append_assoc]
      rfl
    have hx' : ¬ delimiter boundary <:+: h' ++ x := by
      intro hin
      refine hx (hin.trans ?_)
      rw [← hcat]
      exact (List.suffix_append _ _).isInfix
    obtain ⟨e₂, p₂, m₂, h₂, heq₂, hr₂, hh₂, hrun₂⟩ := ih hem.ready hem.held hx'
    refine ⟨e ++ e₂, p₂, m₂, h₂, ?_, hr₂, hh₂, fun d rest hrest => ?_⟩
    · rw [List.append_assoc, heq₂, hcat]
    · rw [List.cons_append, hem.run d _ (by simp [hrest]), hcb.append, bind_assoc]
      congr 1
      funext d
      exact hrun₂ d rest hrest

variable (cb) in
/-- The rest `y` of the boundary behind the data. -/
private theorem execute_boundary_match {x y : Bytes} (hp : p.boundary = x ++ y)
    (hy : y ≠ []) (hst : p.state = .s_part_data_boundary) (hi : p.index = x.length)
    (hr : Ready boundary p) :
    ∃ p' m', Ready boundary p' ∧ p'.state = .s_part_data_almost_end ∧
      ∀ d rest, execute cb ⟨p, m, d⟩ (y ++ rest) =
        (cb.onPartDataEnd d >>= fun d => execute cb ⟨p', m', d⟩ rest) := by
  induction y generalizing x p m with
  | nil => exact absurd rfl hy
  | cons c y ih =>
    have hget : p.boundary.getD p.index 0 = c := by simp [hp, hi]
    have hstep : ∀ d (cs : Bytes), step cb ⟨p, m, d⟩ c cs.isEmpty = boundaryMatched cb
        ((Scan.setLookbehind ⟨p, m, d⟩ (2 + p.index) c).setIndex (p.index + 1)) c := by
      intro d cs
      simp only [step, hst, partDataBoundary, hget, ne_eq, not_true_eq_false, if_false]
    have hr' : Ready boundary { p with
        index := p.index + 1, lookbehind := p.lookbehind.set (2 + p.index) c } :=
      ⟨hr.boundary_eq, hr.ne_nil, hr.cr_notMem, by simpa using hr.room⟩
    by_cases hy' : y = []
    -- the last byte of the boundary ends the part, the others move the index
    · subst hy'
      refine ⟨{ p with
        state := .s_part_data_almost_end, index := p.index + 1,
        lookbehind := p.lookbehind.set (2 + p.index) c }, m ++ [c],
        ⟨hr.boundary_eq, hr.ne_nil, hr.cr_notMem, by simpa using hr.room⟩, rfl, fun d rest => ?_⟩
      have hlast : p.index + 1 = p.boundary.length := by simp [hp, hi]
      have hstep' : step cb ⟨p, m, d⟩ c ([] ++ rest).isEmpty =
          (Scan.call ((Scan.setLookbehind ⟨p, m, d⟩ (2 + p.index) c).setIndex (p.index + 1))
            cb.onPartDataEnd >>= fun t => next (t.goto .s_part_data_almost_end) c) := by
        rw [hstep d]
        exact if_pos hlast
      rw [List.cons_append, execute_cons, hstep', call_bind, bind_assoc]
      rfl
    · obtain ⟨p', m', hr₂, hst₂, hrun⟩ := ih (p := { p with
        index := p.index + 1, lookbehind := p.lookbehind.set (2 + p.index) c })
        (x := x ++ [c]) (m := m ++ [c]) (by simpa using hp) hy' hst (by simp [hi]) hr'
      refine ⟨p', m', hr₂, hst₂, fun d rest => ?_⟩
      have hmore : p.index + 1 ≠ p.boundary.length := by
        have := List.length_pos_iff.mpr hy'
        simp only [hp, hi, List.length_append, List.length_cons]
        omega
      have hnext : step cb ⟨p, m, d⟩ c (y ++ rest).isEmpty =
          next ((Scan.setLookbehind ⟨p, m, d⟩ (2 + p.index) c).setIndex (p.index + 1)) c := by
        rw [hstep d]
        exact if_neg hmore
      rw [List.cons_append, execute_of_next hnext]
      exact hrun d rest

private theorem Ready.goto {st : ParserState} (hr : Ready boundary p) :
    Ready boundary { p with state := st } :=
  ⟨hr.boundary_eq, hr.ne_nil, hr.cr_notMem, hr.room⟩

private theorem append_cr_ne_delimiter (hr : Ready boundary p) (h : Bytes) :
    h ++ [cr] ≠ delimiter boundary := by
  intro heq
  -- the last byte of the delimiter is in the boundary
  have hlast := congrArg List.getLast? heq
  rw [List.getLast?_concat, delimiter, List.getLast?_append_of_ne_nil _ hr.ne_nil] at hlast
  exact hr.cr_notMem (List.mem_of_getLast? hlast.symm)

/-- The data of a part and the delimiter behind it: the data is emitted whole. -/
theorem execute_partData (hcb : AppendsData cb) (hr : Ready boundary p)
    (hst : p.state = .s_part_data_start) {x : Bytes} (hx : ¬ delimiter boundary <:+: x) :
    ∃ p' m', Ready boundary p' ∧ p'.state = .s_part_data_almost_end ∧
      ∀ d rest, execute cb ⟨p, m, d⟩ (x ++ delimiter boundary ++ rest) =
        (((cb.onHeadersComplete d >>= cb.onPartData x) >>= cb.onPartDataEnd) >>= fun d =>
          execute cb ⟨p', m', d⟩ rest) := by
  -- the data, then the three pieces CR, LF and boundary of the delimiter
  obtain ⟨e, p₁, m₁, h₁, heq₁, hr₁, hh₁, hrun₁⟩ := held_run (p := { p with
    state := .s_part_data }) (m := []) hcb hr.goto (.data rfl) (x := x) (by simpa using hx)
  obtain ⟨e₂, p₂, m₂, h₂, heq₂, hem₂, hcr⟩ :=
    held_step hcb hr₁ hh₁ (c := cr) (append_cr_ne_delimiter hr₁ h₁)
  obtain ⟨rfl, hst₂⟩ := hcr rfl
  obtain rfl : e₂ = h₁ := List.append_inj_left' heq₂ rfl
  -- LF after a held CR starts the comparison with the boundary
  have hlf : ∀ d (cs : Bytes), step cb ⟨p₂, m₂, d⟩ lf cs.isEmpty = next (((Scan.goto
      ⟨p₂, m₂, d⟩ .s_part_data_boundary).setLookbehind 1 lf).setIndex 0) lf := by
    intro d cs
    simp [step, hst₂]
  have hr₂ := hem₂.ready
  have hr₂' : Ready boundary { p₂ with
      state := .s_part_data_boundary, lookbehind := p₂.lookbehind.set 1 lf, index := 0 } :=
    ⟨hr₂.boundary_eq, hr₂.ne_nil, hr₂.cr_notMem, by simpa using hr₂.room⟩
  obtain ⟨p₃, m₃, hr₃, hst₃, hrun₃⟩ := execute_boundary_match cb (m := m₂ ++ [lf])
    (x := []) (y := boundary) hr₂'.boundary_eq hr₂.ne_nil rfl rfl hr₂'
  refine ⟨p₃, m₃, hr₃, hst₃, fun d rest => ?_⟩
  have hstart : ∀ buf, buf ≠ [] → execute cb ⟨p, m, d⟩ buf =
      (cb.onHeadersComplete d >>= fun d =>
        execute cb ⟨{ p with state := .s_part_data }, [], d⟩ buf) := by
    intro buf hbuf
    obtain ⟨c, cs, rfl⟩ := List.exists_cons_of_ne_nil hbuf
    rw [execute_cons, step, hst]
    change (Scan.call ⟨p, m, d⟩ cb.onHeadersComplete >>= _) >>= _ = _
    rw [call_bind, bind_assoc]
    congr 1
    funext d
    rw [execute_cons]
    rfl
  calc execute cb ⟨p, m, d⟩ (x ++ delimiter boundary ++ rest)
      = (cb.onHeadersComplete d >>= fun d => execute cb
          ⟨{ p with state := .s_part_data }, [], d⟩ (x ++ (cr :: lf :: (boundary ++ rest)))) := by
        rw [hstart _ (by simp [delimiter, crlf])]
        simp [delimiter, crlf]
    _ = (cb.onHeadersComplete d >>= fun d => cb.onPartData e d >>= fun d =>
          cb.onPartData e₂ d >>= fun d => cb.onPartDataEnd d >>= fun d =>
            execute cb ⟨p₃, m₃, d⟩ rest) := by
        congr 1
        funext d
        rw [hrun₁ d _ (List.cons_ne_nil _ _)]
        congr 1
        funext d
        rw [hem₂.run d _ (List.cons_ne_nil _ _)]
        congr 1
        funext d
        rw [execute_of_next (hlf d _)]
        exact hrun₃ d rest
    _ = _ := by
        have hdata : e ++ e₂ = x := by simpa using heq₁
        rw [← hdata]
        simp only [bind_assoc, hcb.append]

/-! ### A whole body -/

/-- A part as the parser sees it. -/
structure RawPart where
  headers : List (Bytes × Bytes)
  data : Bytes

/-- `name: value` and the end of the line. -/
def headerLine (h : Bytes × Bytes) : Bytes := h.1 ++ [colon, space] ++ h.2 ++ crlf

/-- The headers, the blank line and the data. -/
def RawPart.bytes (part : RawPart) : Bytes :=
  (part.headers.map headerLine).flatten ++ crlf ++ part.data

/-- The boundary line, then every part followed by the delimiter, then `--`. -/
def serialise (boundary : Bytes) (parts : List RawPart) : Bytes :=
  boundary ++ (parts.map fun part => crlf ++ part.bytes ++ delimiter boundary).flatten ++
    [hyphen, hyphen]

/-- A part that can stand between delimiters. -/
structure RawPart.Fits (boundary : Bytes) (part : RawPart) : Prop where
  name_ok : ∀ h ∈ part.headers, ∀ c ∈ h.1, IsNameChar c
  value_ok : ∀ h ∈ part.headers, cr ∉ h.2
  data_ok : ¬ delimiter boundary <:+: part.data

/-- The callbacks for a header line. -/
def headerCalls (cb : MultipartParserSettings σ) (d : σ) (h : Bytes × Bytes) :
    Except StdException σ :=
  cb.onHeaderField h.1 d >>= cb.onHeaderValue (trimValue h.2)

/-- The callbacks for a part, in order. -/
def partCalls (cb : MultipartParserSettings σ) (d : σ) (part : RawPart) :
    Except StdException σ :=
  (((cb.onPartDataBegin d >>= fun d => part.headers.foldlM (headerCalls cb) d) >>=
    cb.onHeadersComplete) >>= cb.onPartData part.data) >>= cb.onPartDataEnd

variable (cb) in
private theorem execute_headers {headers : List (Bytes × Bytes)}
    (hname : ∀ h ∈ headers, ∀ c ∈ h.1, IsNameChar c) (hvalue : ∀ h ∈ headers, cr ∉ h.2)
    (hst : p.state = .s_header_field_start) :
    ∃ m', ∀ d rest, execute cb ⟨p, m, d⟩ ((headers.map headerLine).flatten ++ rest) =
      (headers.foldlM (headerCalls cb) d >>= fun d => execute cb ⟨p, m', d⟩ rest) := by
  induction headers generalizing m with
  | nil => exact ⟨m, fun d rest => rfl⟩
  | cons h headers ih =>
    have hp : { p with state := .s_header_field_start } = p := by
      rw [← hst]
    obtain ⟨m', hrun⟩ := ih (m := trimValue (space :: h.2) ++ crlf)
      (fun g hg => hname g (List.mem_cons_of_mem _ hg))
      (fun g hg => hvalue g (List.mem_cons_of_mem _ hg))
    refine ⟨m', fun d rest => ?_⟩
    have hcr : cr ∉ space :: h.2 := by
      intro hmem
      rcases List.mem_cons.mp hmem with heq | hmem
      · exact absurd heq (by decide)
      · exact hvalue h List.mem_cons_self hmem
    -- the blank behind the colon is trimmed with those of the value
    have htrim : trimValue (space :: h.2) = trimValue h.2 := by
      simp [trimValue]
    have hbytes : ((h :: headers).map headerLine).flatten ++ rest =
        h.1 ++ colon :: (space :: h.2 ++ crlf ++ ((headers.map headerLine).flatten ++ rest)) := by
      simp [headerLine]
    rw [hbytes, execute_headerField (hname h List.mem_cons_self) hst, List.foldlM_cons,
      headerCalls, bind_assoc, bind_assoc]
    congr 1
    funext d
    rw [execute_headerValue hcr rfl, htrim]
    congr 1
    funext d
    change execute cb ⟨{ p with state := .s_header_field_start }, _, d⟩ _ = _
    rw [hp, ← htrim]
    exact hrun d rest

/-- A part, from its first header to the delimiter behind it. -/
private theorem execute_part (hcb : AppendsData cb) (hr : Ready boundary p)
    (hst : p.state = .s_header_field_start) {part : RawPart} (hfit : part.Fits boundary) :
    ∃ p' m', Ready boundary p' ∧ p'.state = .s_part_data_almost_end ∧
      ∀ d rest, (cb.onPartDataBegin d >>= fun d =>
          execute cb ⟨p, m, d⟩ (part.bytes ++ delimiter boundary ++ rest)) =
        (partCalls cb d part >>= fun d => execute cb ⟨p', m', d⟩ rest) := by
  obtain ⟨m₁, hrun₁⟩ := execute_headers cb (m := m) hfit.name_ok hfit.value_ok hst
  obtain ⟨p', m', hr', hst', hrun₂⟩ := execute_partData (p := { p with
    state := .s_part_data_start }) (m := crlf) hcb hr.goto rfl hfit.data_ok
  refine ⟨p', m', hr', hst', fun d rest => ?_⟩
  simp only [partCalls, bind_assoc]
  congr 1
  funext d
  have hbytes : part.bytes ++ delimiter boundary ++ rest = (part.headers.map headerLine).flatten ++
      (crlf ++ (part.data ++ delimiter boundary ++ rest)) := by
    simp [RawPart.bytes]
  rw [hbytes, hrun₁]
  congr 1
  funext d
  rw [execute_blankLine hst, hrun₂]
  simp only [bind_assoc]

/-- What follows a delimiter: the end of the body. -/
private theorem execute_end (hst : p.state = .s_part_data_almost_end) :
    ∃ p' m', ∀ d, execute cb ⟨p, m, d⟩ [hyphen, hyphen] =
      (cb.onBodyEnd d >>= fun d => .ok ([], ⟨p', m', d⟩)) := by
  refine ⟨{ p with state := .s_end }, m ++ [hyphen] ++ [hyphen], fun d => ?_⟩
  have h₁ : step cb ⟨p, m, d⟩ hyphen [hyphen].isEmpty =
      next (Scan.goto ⟨p, m, d⟩ .s_part_data_final_hyphen) hyphen := by
    simp [step, hst]
  have h₂ : ∀ m : Bytes, step cb ⟨{ p with state := .s_part_data_final_hyphen }, m, d⟩ hyphen
      ([] : Bytes).isEmpty =
        (Scan.call ⟨{ p with state := .s_part_data_final_hyphen }, m, d⟩ cb.onBodyEnd >>=
          fun t => next (t.goto .s_end) hyphen) := by
    intro m
    simp [step]
  rw [execute_of_next h₁]
  change execute cb ⟨{ p with state := .s_part_data_final_hyphen }, _, d⟩ [hyphen] = _
  rw [execute_of_call (h₂ _)]
  simp [Scan.goto]

/-- What follows a delimiter: another part. -/
private theorem execute_again (hst : p.state = .s_part_data_almost_end) (d : σ) (rest : Bytes) :
    execute cb ⟨p, m, d⟩ (crlf ++ rest) = (cb.onPartDataBegin d >>= fun d =>
      execute cb ⟨{ p with state := .s_header_field_start }, m ++ [cr] ++ [lf], d⟩ rest) := by
  have h₁ : step cb ⟨p, m, d⟩ cr (lf :: rest).isEmpty =
      next (Scan.goto ⟨p, m, d⟩ .s_part_data_end) cr := by
    have : cr ≠ hyphen := by decide
    simp [step, hst, this]
  have h₂ : ∀ m : Bytes, step cb ⟨{ p with state := .s_part_data_end }, m, d⟩ lf rest.isEmpty =
      (Scan.call ⟨{ p with state := .s_part_data_end }, m, d⟩ cb.onPartDataBegin >>=
        fun t => next (t.goto .s_header_field_start) lf) := by
    intro m
    cases h : cb.onPartDataBegin d <;> simp [step, Scan.call, Scan.goto, h, bind, Except.bind]
  change execute cb ⟨p, m, d⟩ (cr :: lf :: rest) = _
  rw [execute_of_next h₁]
  change execute cb ⟨{ p with state := .s_part_data_end }, _, d⟩ (lf :: rest) = _
  rw [execute_of_call (h₂ _)]
  rfl

/-- The parts after a delimiter, and the end of the body. -/
private theorem execute_parts (hcb : AppendsData cb) (hr : Ready boundary p)
    (hst : p.state = .s_part_data_almost_end) {parts : List RawPart}
    (hfit : ∀ part ∈ parts, part.Fits boundary) :
    ∃ p' m', ∀ d, execute cb ⟨p, m, d⟩ ((parts.map fun part =>
        crlf ++ part.bytes ++ delimiter boundary).flatten ++ [hyphen, hyphen]) =
      ((parts.foldlM (partCalls cb) d >>= cb.onBodyEnd) >>= fun d => .ok ([], ⟨p', m', d⟩)) := by
  induction parts generalizing p m with
  | nil => exact execute_end hst
  | cons part parts ih =>
    obtain ⟨p₁, m₁, hr₁, hst₁, hrun₁⟩ := execute_part (p := { p with
      state := .s_header_field_start }) (m := m ++ [cr] ++ [lf]) hcb hr.goto rfl
      (hfit part List.mem_cons_self)
    obtain ⟨p', m', hrun⟩ := ih (m := m₁) hr₁ hst₁
      fun q hq => hfit q (List.mem_cons_of_mem _ hq)
    refine ⟨p', m', fun d => ?_⟩
    have hbytes : ((part :: parts).map fun part =>
        crlf ++ part.bytes ++ delimiter boundary).flatten ++ [hyphen, hyphen] =
        crlf ++ (part.bytes ++ delimiter boundary ++ ((parts.map fun part =>
          crlf ++ part.bytes ++ delimiter boundary).flatten ++ [hyphen, hyphen])) := by
      simp
    rw [hbytes, execute_again hst, hrun₁, List.foldlM_cons, bind_assoc, bind_assoc]
    congr 1
    funext d
    rw [hrun d, bind_assoc]

/-- **The parser is exact.** On a serialised list of parts it reads the whole body and
makes the callbacks of the parts in order, each with its part's own bytes. -/
theorem multipartParserExecute_serialise (hcb : AppendsData cb) (hnul : 0 ∉ boundary)
    (hne : boundary ≠ []) (hcr : cr ∉ boundary) {parts : List RawPart} (hparts : parts ≠ [])
    (hfit : ∀ part ∈ parts, part.Fits boundary) (d : σ) :
    ∃ p', multipartParserExecute cb (init boundary) d (serialise boundary parts) =
      ((parts.foldlM (partCalls cb) d >>= cb.onBodyEnd) >>= fun d =>
        .ok ((serialise boundary parts).length, p', d)) := by
  obtain ⟨part, parts, rfl⟩ := List.exists_cons_of_ne_nil hparts
  have hbound : (init boundary).boundary = boundary := cStr_eq_self hnul
  have hr : Ready boundary (init boundary) :=
    ⟨hbound, hne, hcr, by simp [init, cStr_eq_self hnul]⟩
  -- the first part follows the boundary line, the others a delimiter
  obtain ⟨p₁, m₁, hr₁, hst₁, hrun₁⟩ := execute_part (p := { init boundary with
    state := .s_header_field_start, index := 0 }) (m := [] ++ (init boundary).boundary ++ crlf)
    hcb ⟨hbound, hne, hcr, hr.room⟩ rfl (hfit part List.mem_cons_self)
  obtain ⟨p', m', hrun⟩ := execute_parts (m := m₁) hcb hr₁ hst₁
    fun q hq => hfit q (List.mem_cons_of_mem _ hq)
  refine ⟨p', ?_⟩
  have hbytes : serialise boundary (part :: parts) = (init boundary).boundary ++ crlf ++
      (part.bytes ++ delimiter boundary ++ ((parts.map fun part =>
        crlf ++ part.bytes ++ delimiter boundary).flatten ++ [hyphen, hyphen])) := by
    simp [serialise, hbound]
  have hexec : execute cb ⟨init boundary, [], d⟩ (serialise boundary (part :: parts)) =
      (((part :: parts).foldlM (partCalls cb) d >>= cb.onBodyEnd) >>= fun d =>
        .ok ([], ⟨p', m', d⟩)) := by
    rw [hbytes, execute_start rfl]
    refine (hrun₁ d _).trans ?_
    rw [List.foldlM_cons, bind_assoc, bind_assoc]
    congr 1
    funext d
    rw [hrun d, bind_assoc]
  rw [multipartParserExecute, hexec]
  cases (part :: parts).foldlM (partCalls cb) d >>= cb.onBodyEnd <;> rfl

end Wfrest.MultipartParser
