import Wfrest.Form.MultiPart
import Wfrest.Lib.Lines

/-!
# Parameters of a `Content-Disposition`

`handle_header` cuts the value of the header at every `;`, and each piece at every `=`,
without regard to quotes. A parameter whose text has neither is read back, whatever
white space stands in front of it (`readDisposition_params`). A text with one of them
never is: what `name` and `filename` are given is a piece of a piece
(`unsplit_of_readDisposition`).
-/

namespace Wfrest

open MultipartParserUserdata

/-- Neither `;` nor `=`. -/
def Unsplit (s : Bytes) : Prop := semicolon ∉ s ∧ equals ∉ s

instance : DecidablePred Unsplit := fun s =>
  decidable_of_iff (s.contains semicolon = false ∧ s.contains equals = false)
    (by simp [Unsplit])

/-- A parameter: the white space in front of it, its key, and the text in its quotes. -/
structure DispoParam where
  gap : Bytes
  key : Bytes
  text : Bytes

namespace DispoParam

/-- The parameter as it stands behind a `;`. -/
def bytes (p : DispoParam) : Bytes :=
  p.gap ++ p.key ++ equals :: (dquote :: p.text ++ [dquote])

/-- A parameter that the cuts leave in one piece. -/
structure Plain (p : DispoParam) : Prop where
  gap : ∀ c ∈ p.gap, isspace c = true
  key_head : ∃ c cs, p.key = c :: cs ∧ isspace c = false
  key : Unsplit p.key
  text : Unsplit p.text

/-- What reading the parameter does to `name` and `filename`. -/
def assign (acc : Bytes × Bytes) (p : DispoParam) : Bytes × Bytes :=
  if (ascii "name").isPrefixOf p.key then (p.text, acc.2)
  else if (ascii "filename").isPrefixOf p.key then (acc.1, p.text)
  else acc

@[simp] theorem assign_name (acc : Bytes × Bytes) (gap text : Bytes) :
    assign acc ⟨gap, ascii "name", text⟩ = (text, acc.2) := by
  rw [assign, if_pos (by decide : (ascii "name").isPrefixOf (ascii "name") = true)]

/-- The test for `name` comes first, and fails. -/
@[simp] theorem assign_filename (acc : Bytes × Bytes) (gap text : Bytes) :
    assign acc ⟨gap, ascii "filename", text⟩ = (acc.1, text) := by
  rw [assign, if_neg (by decide : ¬ (ascii "name").isPrefixOf (ascii "filename") = true),
    if_pos (by decide : (ascii "filename").isPrefixOf (ascii "filename") = true)]

theorem Plain.semicolon_notMem {p : DispoParam} (h : p.Plain) : semicolon ∉ p.bytes := by
  have hgap : semicolon ∉ p.gap := fun hmem => absurd (h.gap _ hmem) (by decide)
  have h₁ : semicolon ≠ equals := by decide
  have h₂ : semicolon ≠ dquote := by decide
  simp [bytes, hgap, h.key.1, h.text.1, h₁, h₂]

/-- Trimming takes the white space away. -/
theorem Plain.trim {p : DispoParam} (h : p.Plain) :
    (p.bytes.rdropWhile isspace).dropWhile isspace =
      p.key ++ equals :: (dquote :: p.text ++ [dquote]) := by
  obtain ⟨c, cs, hkey, hc⟩ := h.key_head
  have hlast : p.bytes = (p.gap ++ p.key ++ equals :: dquote :: p.text) ++ [dquote] := by
    simp [bytes]
  have hright : p.bytes.rdropWhile isspace = p.bytes := by
    rw [hlast, List.rdropWhile_concat_neg _ _ _ (by decide)]
  rw [hright, bytes, List.append_assoc, List.dropWhile_append_of_pos h.gap, hkey,
    List.cons_append, List.dropWhile_cons_of_neg (by simp [hc])]

end DispoParam

/-! ### Parameters without separators -/

/-- A plain parameter goes to the name or the file name. -/
theorem readDispo_param (acc : Bytes × Bytes) {dispo : StringPiece} (hin : dispo.InBuffer)
    {p : DispoParam} (hp : p.Plain) (hview : dispo.view = p.bytes) :
    readDispo acc dispo = .ok (p.assign acc) := by
  obtain ⟨htrim, htview⟩ := hin.trim
  rw [hview, hp.trim] at htview
  -- split at the one `=`: the key, then the text in its quotes
  have hsplit := htrim.splitPiece (by rw [htview]; simp) equals
  have hq : equals ∉ dquote :: p.text ++ [dquote] := by
    simp only [List.cons_append, List.mem_cons, List.mem_append, List.not_mem_nil, or_false,
      not_or]
    exact ⟨by decide, hp.text.2, by decide⟩
  rw [htview, List.splitOn_append_cons_self_of_not_mem hp.key.2,
    List.splitOn_eq_singleton hq] at hsplit
  obtain ⟨hpieces, hviews⟩ := hsplit
  obtain ⟨k, tail, hs, hk, htail⟩ := List.map_eq_cons_iff.mp hviews
  obtain ⟨kv1, rfl, hkv⟩ := List.map_eq_singleton_iff.mp htail
  rw [hs] at hpieces
  have hkin := hpieces k (by simp)
  obtain ⟨hvin, hvview⟩ :=
    (hpieces kv1 (by simp)).trimPairs_quoted hkv equals [39, 39]
  -- `starts_with` reads a literal up to its NUL
  have hstarts : ∀ name : String, 0 ∉ ascii name →
      k.startsWith (.ofCStr (ascii name)) = (ascii name).isPrefixOf p.key := by
    intro name h0
    have hlen : k.length = p.key.length := by rw [← hk, StringPiece.length_view hkin]
    have hname := StringPiece.view_ofCStr (ascii name)
    rw [cStr_eq_self h0] at hname
    rw [StringPiece.startsWith, hname, hk, hlen]
    change (decide ((cStr (ascii name)).length ≤ p.key.length) && _) = _
    rw [cStr_eq_self h0]
    cases hpre : (ascii name).isPrefixOf p.key with
    | false => simp
    | true =>
      have := (List.isPrefixOf_iff_prefix.mp hpre).length_le
      simp [this]
  have hstring : (kv1.trimPairs equals quotePairs).asString = .ok p.text := by
    rw [← hvview]
    exact hvin.asString
  simp only [readDispo, hs, hstarts "name" (by decide), hstarts "filename" (by decide), hstring,
    DispoParam.assign]
  split_ifs <;> rfl

/-- A piece without `=` is passed over. -/
theorem readDispo_noParam {acc : Bytes × Bytes} {dispo : StringPiece}
    (hin : dispo.InBuffer) (hne : (dispo.view.rdropWhile isspace).dropWhile isspace ≠ [])
    (heq : equals ∉ (dispo.view.rdropWhile isspace).dropWhile isspace) :
    readDispo acc dispo = .ok acc := by
  obtain ⟨htrim, htview⟩ := hin.trim
  rw [← htview] at hne heq
  obtain ⟨-, hviews⟩ := htrim.splitPiece hne equals
  rw [List.splitOn_eq_singleton heq] at hviews
  obtain ⟨k, hs, -⟩ := List.map_eq_singleton_iff.mp hviews
  rw [readDispo, hs]

/-- What stands behind `form-data`. -/
def paramBytes (ps : List DispoParam) : Bytes := ps.flatMap fun p => semicolon :: p.bytes

private theorem splitOn_paramBytes {kind : Bytes} (hkind : semicolon ∉ kind)
    {ps : List DispoParam} (hps : ∀ p ∈ ps, p.Plain) :
    (kind ++ paramBytes ps).splitOn semicolon = kind :: ps.map DispoParam.bytes := by
  induction ps generalizing kind with
  | nil =>
    rw [paramBytes, List.flatMap_nil, List.append_nil, List.splitOn_eq_singleton hkind]
    rfl
  | cons p ps ih =>
    have hrest := ih (hps p List.mem_cons_self).semicolon_notMem
      fun q hq => hps q (List.mem_cons_of_mem _ hq)
    rw [paramBytes, List.flatMap_cons, List.cons_append,
      List.splitOn_append_cons_self_of_not_mem hkind, List.map_cons]
    exact congrArg (kind :: ·) hrest

private theorem foldlM_readDispo {ps : List DispoParam} (hps : ∀ p ∈ ps, p.Plain)
    {pieces : List StringPiece} (hin : ∀ piece ∈ pieces, piece.InBuffer)
    (hviews : pieces.map StringPiece.view = ps.map DispoParam.bytes) (acc : Bytes × Bytes) :
    pieces.foldlM readDispo acc = .ok (ps.foldl DispoParam.assign acc) := by
  induction ps generalizing pieces acc with
  | nil =>
    obtain rfl := List.map_eq_nil_iff.mp hviews
    rfl
  | cons p ps ih =>
    obtain ⟨piece, pieces, rfl, hview, hviews⟩ := List.map_eq_cons_iff.mp hviews
    rw [List.foldlM_cons, readDispo_param acc (hin piece List.mem_cons_self)
      (hps p List.mem_cons_self) hview]
    exact ih (fun q hq => hps q (List.mem_cons_of_mem _ hq))
      (fun q hq => hin q (List.mem_cons_of_mem _ hq)) hviews _

/-- **Plain parameters are read**, one after the other. -/
theorem readDisposition_params (acc : Bytes × Bytes) {ps : List DispoParam}
    (hps : ∀ p ∈ ps, p.Plain) :
    readDisposition acc (ascii "form-data" ++ paramBytes ps) =
      .ok (ps.foldl DispoParam.assign acc) := by
  have hne : ascii "form-data" ++ paramBytes ps ≠ [] := by simp [ascii]
  have hsplit := (StringPiece.inBuffer_ofString (ascii "form-data" ++ paramBytes ps)).splitPiece
    (by simpa using hne) semicolon
  rw [StringPiece.view_ofString, splitOn_paramBytes (by decide) hps] at hsplit
  obtain ⟨hin, hviews⟩ := hsplit
  obtain ⟨piece, pieces, hs, hview, hviews⟩ := List.map_eq_cons_iff.mp hviews
  rw [hs] at hin
  have hkind : readDispo acc piece = .ok acc := by
    refine readDispo_noParam (hin piece List.mem_cons_self) ?_ ?_ <;> rw [hview] <;> decide
  rw [readDisposition, hs, List.foldlM_cons, hkind]
  exact foldlM_readDispo hps (fun q hq => hin q (List.mem_cons_of_mem _ hq)) hviews acc

/-! ### What is read is a piece of a piece -/

namespace StringPiece

/-- The buffers of views that are cut from a view are not longer than its own. -/
theorem length_ptr_of_mem_splitPiece {s piece : StringPiece} {sep : UInt8}
    (h : piece ∈ s.splitPiece sep) : piece.ptr.length ≤ s.ptr.length := by
  have hsub : ∀ offset len, (s.sub offset len).ptr.length ≤ s.ptr.length := fun offset len => by
    change (s.ptr.drop offset).length ≤ _
    rw [List.length_drop]
    exact Nat.sub_le _ _
  have hloop : ∀ cursor p, ∀ piece ∈ s.splitLoop sep cursor p,
      piece.ptr.length ≤ s.ptr.length := by
    intro cursor p
    fun_induction splitLoop s sep cursor p with
    | case1 cursor p hlt hsep ih =>
      intro piece hmem
      rcases List.mem_cons.mp hmem with rfl | hmem
      · exact hsub _ _
      · exact ih piece hmem
    | case2 cursor p hlt hsep ih => exact ih
    | case3 cursor p hlt =>
      intro piece hmem
      rw [List.mem_singleton.mp hmem]
      exact hsub _ _
  unfold splitPiece at h
  split at h
  · cases h
  · exact hloop 0 0 piece h

theorem length_ptr_trim (s : StringPiece) : s.trim.ptr.length ≤ s.ptr.length := by
  have hright : s.rtrim.ptr.length ≤ s.ptr.length := by
    unfold rtrim
    dsimp only
    split
    · exact Nat.zero_le _
    · change (s.ptr.drop 0).length ≤ _
      rw [List.drop_zero]
  have hleft : ∀ t : StringPiece, t.ltrim.ptr.length ≤ t.ptr.length := by
    intro t
    unfold ltrim
    dsimp only
    split
    · exact Nat.zero_le _
    · change (t.ptr.drop _).length ≤ _
      rw [List.length_drop]
      exact Nat.sub_le _ _
  exact (hleft s.rtrim).trans hright

/-- Where stripping the quotes gives a string, the string stands in the view. The length
of a lone quote wraps, and then there is no string. -/
theorem infix_of_trimPairs {s : StringPiece} (hfits : s.ptr.length < 2 ^ 63) {before : UInt8}
    {pairs v : Bytes} (h : (s.trimPairs before pairs).asString = .ok v) : v <:+: s.view := by
  have hview : ∀ {t : StringPiece}, t.asString = .ok v → t.length ≤ t.ptr.length ∧ v = t.view := by
    intro t ht
    unfold asString at ht
    split at ht
    next hle => exact ⟨hle, (Except.ok.inj ht).symm⟩
    · cases ht
  obtain ⟨hle, rfl⟩ := hview h
  rcases trimPairs_cases before s pairs with heq | ⟨heq, -⟩
  · rw [heq]
  · rw [heq] at hle ⊢
    change sizeSub s.length 2 ≤ (s.ptr.drop 1).length at hle
    rw [List.length_drop] at hle
    change (s.ptr.drop 1).take (sizeSub s.length 2) <:+: s.ptr.take s.length
    by_cases h2 : 2 ≤ s.length
    · rw [sizeSub_of_le h2]
      have hdrop : (s.ptr.take s.length).drop 1 = (s.ptr.drop 1).take (s.length - 1) :=
        List.drop_take
      have htake : (s.ptr.drop 1).take (s.length - 2) =
          ((s.ptr.take s.length).drop 1).take (s.length - 2) := by
        rw [hdrop, List.take_take, min_eq_left (by omega)]
      rw [htake]
      exact (List.take_prefix _ _).isInfix.trans (List.drop_suffix _ _).isInfix
    · unfold sizeSub at hle
      rw [if_neg h2] at hle
      omega

end StringPiece

/-- What one piece gives to `name` and `filename` has no separator. -/
private theorem unsplit_of_readDispo {acc acc' : Bytes × Bytes} {dispo : StringPiece}
    (hin : dispo.InBuffer) (hfits : dispo.ptr.length < 2 ^ 63) (hsemi : semicolon ∉ dispo.view)
    (h : readDispo acc dispo = .ok acc') (hacc : Unsplit acc.1 ∧ Unsplit acc.2) :
    Unsplit acc'.1 ∧ Unsplit acc'.2 := by
  unfold readDispo at h
  split at h
  next key kv1 hs =>
    have hpieces : kv1 ∈ dispo.trim.splitPiece equals := by
      rw [hs]
      exact List.mem_cons_of_mem _ (List.mem_singleton_self _)
    -- the value stands in `kv[1]`, which is a piece of the trimmed view
    have hvalue : ∀ v, (kv1.trimPairs equals quotePairs).asString = .ok v → Unsplit v := by
      intro v hv
      have hkv1 : kv1.ptr.length < 2 ^ 63 :=
        lt_of_le_of_lt ((StringPiece.length_ptr_of_mem_splitPiece hpieces).trans
          (StringPiece.length_ptr_trim dispo)) hfits
      have hsub := StringPiece.infix_of_trimPairs hkv1 hv
      obtain ⟨htrim, htview⟩ := hin.trim
      have hne : dispo.trim.view ≠ [] := by
        intro hnil
        have hlen : dispo.trim.length = 0 := by rw [← StringPiece.length_view htrim, hnil]; rfl
        rw [StringPiece.splitPiece, if_pos hlen] at hs
        cases hs
      have hmem : kv1.view ∈ dispo.trim.view.splitOn equals := by
        rw [← (htrim.splitPiece hne equals).2]
        exact List.mem_map_of_mem hpieces
      have hview : kv1.view <:+: dispo.view := by
        have hstrip : dispo.trim.view <:+: dispo.view := by
          rw [htview]
          exact (List.dropWhile_suffix _).isInfix.trans (List.rdropWhile_prefix _ _).isInfix
        exact (Lines.infix_of_mem_splitOn hmem).trans hstrip
      exact ⟨fun hmem' => hsemi (hview.subset (hsub.subset hmem')),
        fun hmem' => Lines.notMem_of_mem_splitOn hmem (hsub.subset hmem')⟩
    dsimp only at h
    cases hv : (kv1.trimPairs equals quotePairs).asString with
    | error e =>
      rw [hv] at h
      split_ifs at h
      · cases h
      · cases h
      · obtain rfl := Except.ok.inj h
        exact hacc
    | ok v =>
      rw [hv] at h
      split_ifs at h
      · obtain rfl := Except.ok.inj h
        exact ⟨hvalue v hv, hacc.2⟩
      · obtain rfl := Except.ok.inj h
        exact ⟨hacc.1, hvalue v hv⟩
      · obtain rfl := Except.ok.inj h
        exact hacc
  · obtain rfl := Except.ok.inj h
    exact hacc

/-- **What a header gives has no separator**, if there was none before. -/
theorem unsplit_of_readDisposition {acc acc' : Bytes × Bytes} {headerValue : Bytes}
    (hfits : headerValue.length < 2 ^ 63) (h : readDisposition acc headerValue = .ok acc')
    (hacc : Unsplit acc.1 ∧ Unsplit acc.2) : Unsplit acc'.1 ∧ Unsplit acc'.2 := by
  by_cases hnil : headerValue = []
  · subst hnil
    obtain rfl := Except.ok.inj h
    exact hacc
  have hsplit := (StringPiece.inBuffer_ofString headerValue).splitPiece
    (by simpa using hnil) semicolon
  rw [StringPiece.view_ofString] at hsplit
  have hpieces : ∀ piece ∈ (StringPiece.ofString headerValue).splitPiece semicolon,
      piece.InBuffer ∧ piece.ptr.length < 2 ^ 63 ∧ semicolon ∉ piece.view := by
    intro piece hmem
    refine ⟨hsplit.1 piece hmem, ?_, ?_⟩
    · exact lt_of_le_of_lt (StringPiece.length_ptr_of_mem_splitPiece hmem) hfits
    · refine Lines.notMem_of_mem_splitOn (l := headerValue) ?_
      rw [← hsplit.2]
      exact List.mem_map_of_mem hmem
  -- one piece after the other
  unfold readDisposition at h
  generalize (StringPiece.ofString headerValue).splitPiece semicolon = pieces at h hpieces
  induction pieces generalizing acc with
  | nil =>
    obtain rfl := Except.ok.inj h
    exact hacc
  | cons piece pieces ih =>
    rw [List.foldlM_cons] at h
    cases hread : readDispo acc piece with
    | error e => rw [hread] at h; cases h
    | ok acc₁ =>
      rw [hread] at h
      obtain ⟨hin, hptr, hsemi⟩ := hpieces piece List.mem_cons_self
      exact ih (unsplit_of_readDispo hin hptr hsemi hread hacc) h
        fun q hq => hpieces q (List.mem_cons_of_mem _ hq)

/-! ### A disposition with a name and a file name -/

/-- `\` -/
def backslash : UInt8 := 92

/-- A text that can stand in quotes: no quote, no backslash and no line end. -/
def QuotedText (s : Bytes) : Prop := ∀ c ∈ s, c ∉ [dquote, backslash, cr, lf]

/-- A disposition `form-data; name="n"; filename="f"`, or with the two parameters the
other way round, and with white space behind the semicolons. -/
structure FormDisposition where
  name : Bytes
  filename : Bytes
  nameFirst : Bool
  nameGap : Bytes
  filenameGap : Bytes
  name_ne_nil : name ≠ []
  name_ok : QuotedText name
  filename_ok : QuotedText filename
  nameGap_ok : ∀ c ∈ nameGap, isspace c = true
  filenameGap_ok : ∀ c ∈ filenameGap, isspace c = true

namespace FormDisposition

/-- The two parameters in their order. -/
def params (d : FormDisposition) : List DispoParam :=
  let name : DispoParam := ⟨d.nameGap, ascii "name", d.name⟩
  let filename : DispoParam := ⟨d.filenameGap, ascii "filename", d.filename⟩
  if d.nameFirst then [name, filename] else [filename, name]

/-- The value of the header. -/
def value (d : FormDisposition) : Bytes := ascii "form-data" ++ paramBytes d.params

/-- The header has been read up to its end. -/
def Arrived (d : FormDisposition) (u : MultipartParserUserdata) : Prop :=
  isDisposition u.headerField = true ∧ u.headerValue = d.value

/-- `handle_header` gives the name and the file name of the disposition. -/
def ReadBack (d : FormDisposition) (u : MultipartParserUserdata) : Prop :=
  ∃ u', u.handleHeader = .ok u' ∧ u'.name = d.name ∧ u'.filename = d.filename

theorem isDisposition_self : isDisposition (ascii "Content-Disposition") = true := by decide

theorem handleHeader_of_arrived {d : FormDisposition} {u : MultipartParserUserdata}
    (hu : d.Arrived u) :
    u.handleHeader = (readDisposition (u.name, u.filename) d.value).map fun acc =>
      { u with name := acc.1, filename := acc.2, headerField := [], headerValue := [] } := by
  obtain ⟨hfield, hvalue⟩ := hu
  have hfield' : u.headerField ≠ [] := by
    intro hnil
    rw [hnil] at hfield
    exact absurd hfield (by decide)
  have hvalue' : u.headerValue ≠ [] := by
    rw [hvalue, value]
    simp [ascii]
  rw [handleHeader, if_neg (not_or.mpr ⟨hfield', hvalue'⟩), if_pos hfield, hvalue]
  cases readDisposition (u.name, u.filename) d.value <;> rfl

/-- Texts without separators are read back, whatever was there before. -/
theorem readBack_of_unsplit {d : FormDisposition} (hname : Unsplit d.name)
    (hfilename : Unsplit d.filename) {u : MultipartParserUserdata} (hu : d.Arrived u) :
    d.ReadBack u := by
  have hps : ∀ p ∈ d.params, p.Plain := by
    have h₁ : DispoParam.Plain ⟨d.nameGap, ascii "name", d.name⟩ :=
      ⟨d.nameGap_ok, ⟨_, _, rfl, by decide⟩, (by decide : Unsplit (ascii "name")), hname⟩
    have h₂ : DispoParam.Plain ⟨d.filenameGap, ascii "filename", d.filename⟩ :=
      ⟨d.filenameGap_ok, ⟨_, _, rfl, by decide⟩, (by decide : Unsplit (ascii "filename")),
        hfilename⟩
    intro p hp
    unfold params at hp
    dsimp only at hp
    split at hp <;> simp only [List.mem_cons, List.not_mem_nil, or_false] at hp <;>
      rcases hp with rfl | rfl <;> assumption
  have hassign : d.params.foldl DispoParam.assign (u.name, u.filename) =
      (d.name, d.filename) := by
    unfold params
    dsimp only
    split <;> simp
  let u' : MultipartParserUserdata :=
    { u with name := d.name, filename := d.filename, headerField := [], headerValue := [] }
  refine ⟨u', ?_, rfl, rfl⟩
  rw [handleHeader_of_arrived hu, value, readDisposition_params _ hps, hassign]
  rfl

/-- Where nothing was there before, only texts without separators are. -/
theorem unsplit_of_readBack {d : FormDisposition} (hfits : d.value.length < 2 ^ 63)
    {u : MultipartParserUserdata} (hu : d.Arrived u) (hn : u.name = []) (hf : u.filename = [])
    (h : d.ReadBack u) : Unsplit d.name ∧ Unsplit d.filename := by
  obtain ⟨u', hhandle, hname, hfilename⟩ := h
  rw [handleHeader_of_arrived hu, hn, hf] at hhandle
  cases hread : readDisposition ([], []) d.value with
  | error e => rw [hread] at hhandle; cases hhandle
  | ok acc =>
    rw [hread] at hhandle
    obtain rfl := Except.ok.inj hhandle
    rw [← hname, ← hfilename]
    exact unsplit_of_readDisposition hfits hread (by decide)

/-- **When a disposition is read back.** The name and the file name are read back from
every state of the parser's data, and from one without a name and a file name, if and only
if neither of them has a `;` or a `=`. -/
theorem readBack_iff (d : FormDisposition) (hfits : d.value.length < 2 ^ 63) :
    ((∀ u, d.Arrived u → d.ReadBack u) ↔ Unsplit d.name ∧ Unsplit d.filename) ∧
      ∀ u, d.Arrived u → u.name = [] → u.filename = [] →
        (d.ReadBack u ↔ Unsplit d.name ∧ Unsplit d.filename) := by
  have hfresh : ∀ u, d.Arrived u → u.name = [] → u.filename = [] →
      (d.ReadBack u ↔ Unsplit d.name ∧ Unsplit d.filename) := fun u hu hn hf =>
    ⟨unsplit_of_readBack hfits hu hn hf, fun h => readBack_of_unsplit h.1 h.2 hu⟩
  refine ⟨⟨fun hall => ?_, fun h u hu => readBack_of_unsplit h.1 h.2 hu⟩, hfresh⟩
  let u : MultipartParserUserdata :=
    ⟨[], ascii "Content-Disposition", d.value, [], [], []⟩
  have hu : d.Arrived u := ⟨isDisposition_self, rfl⟩
  exact (hfresh u hu rfl rfl).mp (hall u hu)

/-- `form-data; name="a"; filename="b"` -/
def plain : FormDisposition where
  name := ascii "a"
  filename := ascii "b"
  nameFirst := true
  nameGap := [space]
  filenameGap := [space]
  name_ne_nil := by decide
  name_ok := forall_mem_of_all (by decide)
  filename_ok := forall_mem_of_all (by decide)
  nameGap_ok := forall_mem_of_all (by decide)
  filenameGap_ok := forall_mem_of_all (by decide)

theorem readBack_plain :
    plain.ReadBack ⟨[], ascii "Content-Disposition", plain.value, [], [], []⟩ :=
  (readBack_iff plain (by decide +kernel)).1.mpr ⟨by decide, by decide⟩ _
    ⟨isDisposition_self, rfl⟩

/-- `form-data; name="a"; filename="b;c"` -/
def cutFilename : FormDisposition :=
  { plain with
    filename := ascii "b;c"
    filename_ok := forall_mem_of_all (by decide) }

/-- The file name is cut in front of the semicolon, and keeps its opening quote. -/
theorem not_readBack_cutFilename : ¬ ∀ (d : FormDisposition) (u : MultipartParserUserdata),
    d.Arrived u → d.ReadBack u := by
  intro hall
  let u : MultipartParserUserdata :=
    ⟨[], ascii "Content-Disposition", cutFilename.value, [], [], []⟩
  obtain ⟨u', hhandle, -, hfilename⟩ := hall cutFilename u ⟨isDisposition_self, rfl⟩
  have hread : (u.handleHeader.map MultipartParserUserdata.filename).toOption =
      some (ascii "\"b") := by
    decide +kernel
  rw [hhandle] at hread
  rw [show u'.filename = ascii "\"b" from Option.some.inj hread] at hfilename
  exact absurd hfilename (by decide)

end FormDisposition

end Wfrest
