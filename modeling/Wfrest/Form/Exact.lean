import Wfrest.Form.Disposition

/-!
# Exactness of the form parser

The byte machine below `parse_multipart` is exact (`multipartParserExecute_serialise`),
so what remains is `handle_header`. It leaves early when the name or the value of a
header is empty, without clearing them, and what the next header brings is appended:
header lines are glued together until both a name and a value are there (`glue`),
also across parts.

`parseMultipart_exact_iff` says when the parser is exact: in every part, the
`Content-Disposition` headers among the glued lines give the part's own name and
file name.
-/

namespace Wfrest

open MultipartParser MultipartParserUserdata

/-! ### Bodies -/

/-- A boundary: not empty, without line ends. -/
structure Boundary where
  bytes : Bytes
  ne_nil : bytes ≠ []
  cr_notMem : cr ∉ bytes
  lf_notMem : lf ∉ bytes

/-- A header line. Its value may be empty. -/
structure Header where
  name : Bytes
  value : Bytes
  name_ok : ∀ c ∈ name, IsNameChar c
  value_ok : cr ∉ value ∧ lf ∉ value

/-- A name or file name as it can stand in a `Content-Disposition`. -/
def Quotable (s : Bytes) : Prop := ∀ c ∈ s, c ∉ [dquote, semicolon, equals, cr, lf]

/-- A part of a body with boundary `b`. -/
structure Part (b : Boundary) where
  /-- The headers in front of the `Content-Disposition`. -/
  before : List Header
  name : Bytes
  filename : Option Bytes
  /-- The headers behind the `Content-Disposition`. -/
  after : List Header
  data : Bytes
  name_ne_nil : name ≠ []
  name_ok : Quotable name
  filename_ok : ∀ f ∈ filename, Quotable f
  data_ok : ¬ delimiter (dashes ++ b.bytes) <:+: data

namespace Part

variable {b : Boundary}

/-- `form-data; name="n"`, with `; filename="f"` when there is one. -/
def disposition (part : Part b) : Bytes :=
  ascii "form-data; name=\"" ++ part.name ++ [dquote] ++
    match part.filename with
    | none => []
    | some f => ascii "; filename=\"" ++ f ++ [dquote]

/-- The header lines of a part. -/
def headers (part : Part b) : List (Bytes × Bytes) :=
  part.before.map (fun h => (h.name, h.value)) ++
    (ascii "Content-Disposition", part.disposition) ::
      part.after.map (fun h => (h.name, h.value))

/-- The part as the parser sees it. -/
def raw (part : Part b) : RawPart := ⟨part.headers, part.data⟩

/-- What the form should hold under the part's name. -/
def entry (part : Part b) : Bytes × Bytes × Bytes :=
  (part.name, part.filename.getD [], part.data)

end Part

/-- The standard serialisation. -/
def body (b : Boundary) (parts : List (Part b)) : Bytes :=
  serialise (dashes ++ b.bytes) (parts.map Part.raw)

/-- The form is the map of the parts, the last one winning for equal names, and every
part assigns its own entry. -/
def Exact (b : Boundary) (parts : List (Part b)) : Prop :=
  parseMultipart b.bytes (body b parts) = .ok (Form.ofAssignments (parts.map Part.entry)) ∧
    assignments b.bytes (body b parts) = .ok (parts.map Part.entry)

/-! ### Glued header lines -/

/-- What `handle_header` finds complete. -/
def complete (g : Bytes × Bytes) : List (Bytes × Bytes) :=
  if g.1 = [] ∨ g.2 = [] then [] else [g]

/-- What it leaves in `header_field` and `header_value`. -/
def leftOver (g : Bytes × Bytes) : Bytes × Bytes := if g.1 = [] ∨ g.2 = [] then g else ([], [])

/-- The headers that `handle_header` reads on a list of lines, and what is left over,
given what was left over before: a line is glued to the lines in front of it until there
are a name and a value. -/
def glue (left : Bytes × Bytes) : List (Bytes × Bytes) →
    List (Bytes × Bytes) × (Bytes × Bytes)
  | [] => ([], left)
  | h :: hs =>
    let g := (left.1 ++ h.1, left.2 ++ trimValue h.2)
    (complete g ++ (glue (leftOver g) hs).1, (glue (leftOver g) hs).2)

/-- The name and the file name that a list of headers gives. -/
def readAll (acc : Bytes × Bytes) (hs : List (Bytes × Bytes)) :
    Except StdException (Bytes × Bytes) :=
  ((hs.filter fun h => isDisposition h.1).map Prod.snd).foldlM readDisposition acc

/-- In every part the glued headers give the part's own name and file name. -/
def ReadsOwn {b : Boundary} (left : Bytes × Bytes) : List (Part b) → Prop
  | [] => True
  | part :: parts =>
    readAll ([], []) (glue left part.headers).1 = .ok (part.name, part.filename.getD []) ∧
      ReadsOwn (glue left part.headers).2 parts

theorem readAll_append (acc : Bytes × Bytes) (hs hs' : List (Bytes × Bytes)) :
    readAll acc (hs ++ hs') = (readAll acc hs >>= fun acc => readAll acc hs') := by
  simp only [readAll, List.filter_append, List.map_append, List.foldlM_append]

theorem leftOver_leftOver (g : Bytes × Bytes) : leftOver (leftOver g) = leftOver g := by
  unfold leftOver
  split_ifs <;> simp_all

theorem leftOver_glue (left : Bytes × Bytes) (hs : List (Bytes × Bytes))
    (hleft : leftOver left = left) : leftOver (glue left hs).2 = (glue left hs).2 := by
  induction hs generalizing left with
  | nil => exact hleft
  | cons h hs ih => exact ih _ (leftOver_leftOver _)

theorem complete_of_leftOver {left : Bytes × Bytes} (h : leftOver left = left) :
    complete left = [] := by
  unfold complete
  unfold leftOver at h
  split_ifs at h ⊢
  · rfl
  next hne => exact absurd (.inl (congrArg Prod.fst h).symm) hne

/-! ### One part -/

/-- `handle_header` reads what is complete. -/
private theorem handleHeader_eq (mp : List (Bytes × Bytes × Bytes)) (F V data n f : Bytes) :
    handleHeader ⟨mp, F, V, data, n, f⟩ = (readAll (n, f) (complete (F, V)) >>= fun acc =>
      .ok ⟨mp, (leftOver (F, V)).1, (leftOver (F, V)).2, data, acc.1, acc.2⟩) := by
  unfold handleHeader complete leftOver readAll
  by_cases hempty : F = [] ∨ V = []
  · simp [hempty, bind, Except.bind, pure, Except.pure]
  · by_cases hdis : isDisposition F
    · simp only [hempty, if_false, hdis, if_true, List.filter_cons, List.filter_nil, List.map_cons,
        List.map_nil, List.foldlM_cons, List.foldlM_nil]
      cases readDisposition (n, f) V <;> rfl
    · simp [hempty, hdis, bind, Except.bind, pure, Except.pure]

/-- The header lines of a part, and `headers_complete`. -/
private theorem headers_eq (mp : List (Bytes × Bytes × Bytes)) (F V data n f : Bytes)
    (hs : List (Bytes × Bytes)) :
    (hs.foldlM (headerCalls settings) ⟨mp, F, V, data, n, f⟩ >>= handleHeader) =
      (readAll (n, f) (complete (F, V) ++ (glue (leftOver (F, V)) hs).1) >>= fun acc =>
        .ok ⟨mp, (glue (leftOver (F, V)) hs).2.1, (glue (leftOver (F, V)) hs).2.2, data,
          acc.1, acc.2⟩) := by
  induction hs generalizing F V n f with
  | nil =>
    rw [glue, List.append_nil]
    exact handleHeader_eq mp F V data n f
  | cons h hs ih =>
    -- the next header field is what makes the machine handle the header before it
    have hcalls : headerCalls settings ⟨mp, F, V, data, n, f⟩ h =
        (readAll (n, f) (complete (F, V)) >>= fun acc =>
          .ok ⟨mp, (leftOver (F, V)).1 ++ h.1, (leftOver (F, V)).2 ++ trimValue h.2, data,
            acc.1, acc.2⟩) := by
      simp only [headerCalls, settings, handleHeader_eq]
      cases readAll (n, f) (complete (F, V)) <;> rfl
    rw [List.foldlM_cons, hcalls, readAll_append]
    cases readAll (n, f) (complete (F, V)) with
    | error e => rfl
    | ok acc => exact ih _ _ _ _

/-- A part assigns what its glued headers say. -/
private theorem partCalls_eq (mp : List (Bytes × Bytes × Bytes)) {left : Bytes × Bytes}
    (hleft : leftOver left = left) (part : RawPart) :
    partCalls settings ⟨mp, left.1, left.2, [], [], []⟩ part =
      (readAll ([], []) (glue left part.headers).1 >>= fun acc =>
        .ok ⟨mp ++ if acc.1 ≠ [] then [(acc.1, acc.2, part.data)] else [],
          (glue left part.headers).2.1, (glue left part.headers).2.2, [], [], []⟩) := by
  have hcomplete : complete (left.1, left.2) = [] := complete_of_leftOver hleft
  have hleft' : leftOver (left.1, left.2) = left := hleft
  have hheaders := headers_eq mp left.1 left.2 [] [] [] part.headers
  rw [hcomplete, hleft', List.nil_append] at hheaders
  change ((((part.headers.foldlM (headerCalls settings) _ >>= handleHeader) >>= _) >>= _)) = _
  rw [hheaders]
  cases readAll ([], []) (glue left part.headers).1 with
  | error e => rfl
  | ok acc =>
    change Except.ok (handleData _) = Except.ok _
    congr 1
    unfold handleData
    by_cases hne : acc.1 = []
    · simp [hne]
    · simp [hne]

/-! ### All parts -/

private theorem map_eq_ok {α β : Type} {x : Except StdException α} {f : α → β} {y : β}
    (h : x.map f = .ok y) : ∃ a, x = .ok a ∧ f a = y := by
  cases x with
  | error e => cases h
  | ok a => exact ⟨a, rfl, Except.ok.inj h⟩

private theorem foldlM_partCalls_ok {parts : List RawPart} {mp : List (Bytes × Bytes × Bytes)}
    {left : Bytes × Bytes} (hleft : leftOver left = left) {u : MultipartParserUserdata}
    (hrun : parts.foldlM (partCalls settings) ⟨mp, left.1, left.2, [], [], []⟩ = .ok u) :
    ∃ ext, u.mp = mp ++ ext ∧ ext.length ≤ parts.length := by
  induction parts generalizing mp left with
  | nil =>
    obtain rfl := Except.ok.inj hrun
    exact ⟨[], by simp, le_rfl⟩
  | cons part parts ih =>
    rw [List.foldlM_cons, partCalls_eq mp hleft] at hrun
    cases hread : readAll ([], []) (glue left part.headers).1 with
    | error e => rw [hread] at hrun; cases hrun
    | ok acc =>
      rw [hread] at hrun
      obtain ⟨ext, hext, hlen⟩ := ih (leftOver_glue left part.headers hleft) hrun
      -- a part without a name assigns nothing, any other one entry
      refine ⟨(if acc.1 ≠ [] then [(acc.1, acc.2, part.data)] else []) ++ ext, ?_, ?_⟩
      · rw [hext, List.append_assoc]
      · have : (if acc.1 ≠ [] then [(acc.1, acc.2, part.data)] else []).length ≤ 1 := by
          split_ifs <;> simp
        rw [List.length_append, List.length_cons]
        omega

variable {b : Boundary}

/-- The parts assign their own entries exactly when each of them reads its own name and
file name. The induction carries what the parts before left over. -/
private theorem foldlM_partCalls_iff (parts : List (Part b)) (mp : List (Bytes × Bytes × Bytes))
    {left : Bytes × Bytes} (hleft : leftOver left = left) :
    ((parts.map Part.raw).foldlM (partCalls settings) ⟨mp, left.1, left.2, [], [], []⟩).map
        MultipartParserUserdata.mp = .ok (mp ++ parts.map Part.entry) ↔
      ReadsOwn left parts := by
  induction parts generalizing mp left with
  | nil => simp [ReadsOwn, Except.map, pure, Except.pure]
  | cons part parts ih =>
    have hleft' := leftOver_glue left part.headers hleft
    rw [List.map_cons, List.foldlM_cons, partCalls_eq mp hleft, ReadsOwn]
    change (Except.map _ ((readAll ([], []) (glue left part.headers).1 >>= _) >>= _) = _) ↔ _
    cases hread : readAll ([], []) (glue left part.headers).1 with
    | error e =>
      constructor
      · intro h
        cases h
      · rintro ⟨h, -⟩
        cases h
    | ok acc =>
      change ((parts.map Part.raw).foldlM (partCalls settings) ⟨mp ++ if acc.1 ≠ [] then
        [(acc.1, acc.2, part.data)] else [], _, _, [], [], []⟩).map _ = _ ↔ _
      -- one wrong name decides it: the entries are compared from the front
      by_cases hown : acc = (part.name, part.filename.getD [])
      · subst hown
        rw [if_pos part.name_ne_nil]
        have := ih (mp ++ [part.entry]) hleft'
        rw [List.append_assoc] at this
        exact this.trans (by simp)
      · have hne : ¬ (Except.ok acc : Except StdException _) =
            .ok (part.name, part.filename.getD []) := fun h => hown (Except.ok.inj h)
        refine iff_of_false (fun h => ?_) fun h => hne h.1
        obtain ⟨u, hrun, hmp⟩ := map_eq_ok h
        obtain ⟨ext, hext, hlen⟩ := foldlM_partCalls_ok hleft' hrun
        rw [hext, List.append_assoc, List.append_cancel_left_eq, List.map_cons] at hmp
        by_cases hname : acc.1 = []
        · -- the part assigns nothing, and the others cannot make up for it
          rw [if_neg (not_not.mpr hname), List.nil_append] at hmp
          rw [hmp, List.length_cons, List.length_map, List.length_map] at hlen
          omega
        · rw [if_pos hname, List.singleton_append, List.cons.injEq] at hmp
          have h₁ : acc.1 = part.name := congrArg Prod.fst hmp.1
          have h₂ : acc.2 = part.filename.getD [] := congrArg (fun e => e.2.1) hmp.1
          exact hown (Prod.ext h₁ h₂)

/-- A body that leaves the boundary line assigns nothing. -/
theorem assignments_stop {boundary_ x y rest : Bytes} {c : UInt8}
    (hb : cStr (dashes ++ boundary_) = x ++ y) (hc : (y ++ [cr]).head? ≠ some c) :
    assignments boundary_ (x ++ c :: rest) = .ok [] := by
  have hstart : (MultipartParser.init (dashes ++ boundary_)).state = .s_start := rfl
  obtain ⟨s', hdata, hexec⟩ : ∃ s', s'.data = MultipartParserUserdata.init ∧
      execute settings ⟨.init (dashes ++ boundary_), [], MultipartParserUserdata.init⟩
        (x ++ c :: rest) = .ok (c :: rest, s') := execute_start_stop hstart hb hc
  unfold assignments multipartParserExecute
  rw [hexec]
  change Except.ok s'.data.mp = _
  rw [hdata]
  rfl

/-- A NUL ends the boundary that the parser looks for. -/
private theorem exists_cStr_stop (b : Boundary) (h0 : 0 ∈ b.bytes) :
    ∃ rest, dashes ++ b.bytes = cStr (dashes ++ b.bytes) ++ 0 :: rest := by
  have hcat := List.takeWhile_append_dropWhile (p := (· ≠ (0 : UInt8))) (l := dashes ++ b.bytes)
  cases hdrop : (dashes ++ b.bytes).dropWhile (· ≠ (0 : UInt8)) with
  | nil =>
    have := List.dropWhile_eq_nil_iff.mp hdrop 0 (List.mem_append_right _ h0)
    simp at this
  | cons c rest =>
    have hhead := List.head?_dropWhile_not (fun b => decide (b ≠ (0 : UInt8))) (dashes ++ b.bytes)
    rw [hdrop] at hhead
    obtain rfl : c = 0 := by simpa using hhead
    refine ⟨rest, ?_⟩
    rw [hdrop] at hcat
    exact hcat.symm

theorem Part.fits (part : Part b) : part.raw.Fits (dashes ++ b.bytes) := by
  -- a header of the part is one of its own or the disposition
  have hmem : ∀ h ∈ part.headers, (∃ g : Header, h = (g.name, g.value)) ∨
      h = (ascii "Content-Disposition", part.disposition) := by
    intro h hh
    rcases List.mem_append.mp hh with hh | hh
    · obtain ⟨g, -, rfl⟩ := List.mem_map.mp hh
      exact .inl ⟨g, rfl⟩
    · rcases List.mem_cons.mp hh with rfl | hh
      · exact .inr rfl
      · obtain ⟨g, -, rfl⟩ := List.mem_map.mp hh
        exact .inl ⟨g, rfl⟩
  have hquot : ∀ s, Quotable s → cr ∉ s := fun s hs hcr => hs cr hcr (by decide)
  refine ⟨fun h hh => ?_, fun h hh => ?_, part.data_ok⟩
  · rcases hmem h hh with ⟨g, rfl⟩ | rfl
    · exact g.name_ok
    · change ∀ c ∈ ascii "Content-Disposition", IsNameChar c
      decide +kernel
  · rcases hmem h hh with ⟨g, rfl⟩ | rfl
    · exact g.value_ok.1
    · have h₁ : cr ∉ ascii "form-data; name=\"" := by decide
      have h₂ : cr ∉ ascii "; filename=\"" := by decide
      have h₃ : cr ∉ [dquote] := by decide
      have h₄ : cr ∉ (match part.filename with
          | none => []
          | some f => ascii "; filename=\"" ++ f ++ [dquote] : Bytes) := by
        cases hf : part.filename with
        | none => simp
        | some f =>
          have := hquot f (part.filename_ok f hf)
          simp only [List.mem_append, not_or]
          exact ⟨⟨h₂, this⟩, h₃⟩
      change cr ∉ part.disposition
      unfold Part.disposition
      simp only [List.mem_append, not_or]
      exact ⟨⟨⟨h₁, hquot _ part.name_ok⟩, h₃⟩, h₄⟩

/-- **When multipart parsing is exact.** The form holds each part's own entry if and
only if there is no part, or the boundary has no NUL and in every part the glued header
lines give the part's own name and file name. -/
theorem parseMultipart_exact_iff (b : Boundary) (parts : List (Part b)) :
    Exact b parts ↔ parts = [] ∨ (0 ∉ b.bytes ∧ ReadsOwn ([], []) parts) := by
  have hexact : Exact b parts ↔
      assignments b.bytes (body b parts) = .ok (parts.map Part.entry) := by
    refine ⟨And.right, fun h => ⟨?_, h⟩⟩
    rw [parseMultipart, h]
    rfl
  rw [hexact]
  by_cases h0 : 0 ∈ b.bytes
  · -- the parser stops at the NUL in the first line
    obtain ⟨rest, hrest⟩ := exists_cStr_stop b h0
    have hbody : body b parts = cStr (dashes ++ b.bytes) ++ 0 :: (rest ++
        (((parts.map Part.raw).map fun part => crlf ++ part.bytes ++
          delimiter (dashes ++ b.bytes)).flatten ++ [hyphen, hyphen])) := by
      have := congrArg (· ++ (((parts.map Part.raw).map fun part => crlf ++ part.bytes ++
        delimiter (dashes ++ b.bytes)).flatten ++ [hyphen, hyphen])) hrest
      simpa only [body, serialise, List.append_assoc, List.cons_append] using this
    rw [hbody, assignments_stop (y := []) (by simp) (by decide)]
    cases parts with
    | nil => simp
    | cons part parts =>
      refine iff_of_false (fun h => ?_) (by simp [h0])
      have := Except.ok.inj h
      simp at this
  · cases parts with
    | nil =>
      -- the closing line comes first, where the parser expects the end of a boundary line
      have hstr : cStr (dashes ++ b.bytes) = dashes ++ b.bytes :=
        cStr_eq_self (by simp [h0, dashes]; decide)
      have hbody : body b [] = (dashes ++ b.bytes) ++ hyphen :: [hyphen] := by
        simp [body, serialise]
      rw [hbody, assignments_stop (y := []) (by rw [hstr]; simp) (by decide)]
      simp
    | cons part parts =>
      have hnul : 0 ∉ dashes ++ b.bytes := by
        rw [List.mem_append, not_or]
        exact ⟨by decide, h0⟩
      have hcr : cr ∉ dashes ++ b.bytes := by
        rw [List.mem_append, not_or]
        exact ⟨by decide, b.cr_notMem⟩
      have hne : (part :: parts).map Part.raw ≠ [] := by simp
      -- the parser makes the callbacks of the parts, so only these are left to compare
      obtain ⟨p', hrun⟩ := multipartParserExecute_serialise settings_appendsData hnul
        (by simp [dashes]) hcr hne
        (fun raw hraw => by
          obtain ⟨q, -, rfl⟩ := List.mem_map.mp hraw
          exact q.fits) MultipartParserUserdata.init
      have hmap : assignments b.bytes (body b (part :: parts)) =
          (((part :: parts).map Part.raw).foldlM (partCalls settings)
            MultipartParserUserdata.init).map MultipartParserUserdata.mp := by
        unfold assignments body
        rw [hrun]
        cases ((part :: parts).map Part.raw).foldlM (partCalls settings)
          MultipartParserUserdata.init <;> rfl
      rw [hmap]
      have hleft : leftOver (([], []) : Bytes × Bytes) = ([], []) := by simp [leftOver]
      have hiff := foldlM_partCalls_iff (part :: parts) [] hleft
      rw [List.nil_append] at hiff
      exact hiff.trans (by simp [h0])

/-! ### A blank header in front of the disposition -/

/-- One part with the headers `X-Empty:` and `Content-Disposition: form-data; name="n"`. -/
def blankBefore : Part ⟨ascii "b", by decide, by decide, by decide⟩ where
  before := [⟨ascii "X-Empty", [], by decide +kernel, by decide⟩]
  name := ascii "n"
  filename := none
  after := []
  data := ascii "d"
  name_ne_nil := by decide
  name_ok := by unfold Quotable; decide +kernel
  filename_ok := by simp
  data_ok := by decide

/-- The part is lost: its name is read under `X-EmptyContent-Disposition`. -/
theorem not_exact_blankBefore :
    ¬ ∀ (b : Boundary) (parts : List (Part b)), Exact b parts := by
  intro hall
  have h := (hall _ [blankBefore]).2
  have hlen : ((assignments (ascii "b") (body _ [blankBefore])).map List.length).toOption =
      some 0 := by
    decide +kernel
  rw [show assignments (ascii "b") (body _ [blankBefore]) = _ from h] at hlen
  cases hlen

/-! ### Plain headers -/

/-- ` key="v"`, as it stands behind a `;`. -/
def dispoParam (key v : Bytes) : Bytes := space :: key ++ equals :: (dquote :: v ++ [dquote])

/-- A `form-data` disposition gives the name and the file name in it. -/
theorem readDisposition_disposition {b : Boundary} (part : Part b) :
    readDisposition ([], []) part.disposition = .ok (part.name, part.filename.getD []) := by
  have hunsplit : ∀ {s}, Quotable s → Unsplit s := fun hs =>
    ⟨fun hmem => hs _ hmem (by simp), fun hmem => hs _ hmem (by simp)⟩
  have hgap : ∀ c ∈ [space], isspace c = true := forall_mem_of_all (by decide)
  have hname : DispoParam.Plain ⟨[space], ascii "name", part.name⟩ :=
    ⟨hgap, ⟨_, _, rfl, by decide⟩, (by decide : Unsplit (ascii "name")), hunsplit part.name_ok⟩
  have e₁ : ascii "form-data; name=\"" =
      ascii "form-data" ++ semicolon :: space :: ascii "name" ++ [equals, dquote] := by
    decide
  cases hf : part.filename with
  | none =>
    have hdisp : part.disposition =
        ascii "form-data" ++ semicolon :: dispoParam (ascii "name") part.name := by
      rw [Part.disposition, hf]
      simp only [e₁, dispoParam, List.append_assoc, List.cons_append, List.nil_append,
        List.append_nil]
    have hread := readDisposition_params ([], []) (List.forall_mem_singleton.mpr hname)
    rw [hdisp]
    simpa [paramBytes, DispoParam.bytes, dispoParam] using hread
  | some f =>
    have hfile : DispoParam.Plain ⟨[space], ascii "filename", f⟩ :=
      ⟨hgap, ⟨_, _, rfl, by decide⟩, (by decide : Unsplit (ascii "filename")),
        hunsplit (part.filename_ok f hf)⟩
    have hdisp : part.disposition =
        ascii "form-data" ++ semicolon :: (dispoParam (ascii "name") part.name ++
          semicolon :: dispoParam (ascii "filename") f) := by
      rw [Part.disposition, hf]
      have e₂ : ascii "; filename=\"" =
          semicolon :: space :: ascii "filename" ++ [equals, dquote] := by
        decide
      simp only [e₁, e₂, dispoParam, List.append_assoc, List.cons_append, List.nil_append]
    have hread := readDisposition_params ([], [])
      (List.forall_mem_cons.mpr ⟨hname, List.forall_mem_singleton.mpr hfile⟩)
    rw [hdisp]
    simpa [paramBytes, DispoParam.bytes, dispoParam] using hread

/-- All headers but the disposition have a name, another one, and a value. -/
def Part.Plain {b : Boundary} (part : Part b) : Prop :=
  ∀ h ∈ part.before ++ part.after,
    h.name ≠ [] ∧ isDisposition h.name = false ∧ trimValue h.value ≠ []

private theorem glue_of_complete {hs : List (Bytes × Bytes)}
    (hall : ∀ h ∈ hs, h.1 ≠ [] ∧ trimValue h.2 ≠ []) :
    glue ([], []) hs = (hs.map fun h => (h.1, trimValue h.2), ([], [])) := by
  induction hs with
  | nil => rfl
  | cons h hs ih =>
    obtain ⟨h₁, h₂⟩ := hall h List.mem_cons_self
    have hne : ¬(h.1 = [] ∨ trimValue h.2 = []) := not_or.mpr ⟨h₁, h₂⟩
    simp only [glue, List.nil_append, complete, leftOver, if_neg hne,
      ih fun g hg => hall g (List.mem_cons_of_mem _ hg), List.map_cons, List.singleton_append]

/-- With plain headers only, every part reads its own name and file name. -/
theorem readsOwn_of_plain {b : Boundary} {parts : List (Part b)}
    (hplain : ∀ part ∈ parts, part.Plain) : ReadsOwn ([], []) parts := by
  induction parts with
  | nil => trivial
  | cons part parts ih =>
    have hpart := hplain part List.mem_cons_self
    have htrim : trimValue part.disposition = part.disposition := by
      unfold Part.disposition
      rfl
    have hall : ∀ h ∈ part.headers, h.1 ≠ [] ∧ trimValue h.2 ≠ [] := by
      intro h hh
      rcases List.mem_append.mp hh with hh | hh
      · obtain ⟨g, hg, rfl⟩ := List.mem_map.mp hh
        obtain ⟨h₁, -, h₂⟩ := hpart g (List.mem_append_left _ hg)
        exact ⟨h₁, h₂⟩
      · rcases List.mem_cons.mp hh with rfl | hh
        · refine ⟨(by decide : ascii "Content-Disposition" ≠ []), ?_⟩
          change trimValue part.disposition ≠ []
          rw [htrim]
          simp [Part.disposition, ascii]
        · obtain ⟨g, hg, rfl⟩ := List.mem_map.mp hh
          obtain ⟨h₁, -, h₂⟩ := hpart g (List.mem_append_right _ hg)
          exact ⟨h₁, h₂⟩
    -- the headers around the disposition are not dispositions
    have hothers : ∀ gs : List Header, (∀ g ∈ gs, g ∈ part.before ++ part.after) →
        ((gs.map fun g => (g.name, g.value)).map fun h => (h.1, trimValue h.2)).filter
          (fun h => isDisposition h.1) = [] := by
      intro gs hgs
      rw [List.filter_eq_nil_iff]
      intro h hh
      obtain ⟨h', hh', rfl⟩ := List.mem_map.mp hh
      obtain ⟨g, hg, rfl⟩ := List.mem_map.mp hh'
      simp [(hpart g (hgs g hg)).2.1]
    rw [ReadsOwn, glue_of_complete hall]
    refine ⟨?_, ih fun q hq => hplain q (List.mem_cons_of_mem _ hq)⟩
    have hdis : isDisposition (ascii "Content-Disposition") = true := by decide
    have hreads := readDisposition_disposition part
    simp only [readAll, Part.headers, List.map_append, List.map_cons, List.filter_append,
      List.filter_cons]
    rw [hothers _ fun g hg => List.mem_append_left _ hg,
      hothers _ fun g hg => List.mem_append_right _ hg, if_pos hdis, htrim]
    simp [hreads]

end Wfrest
