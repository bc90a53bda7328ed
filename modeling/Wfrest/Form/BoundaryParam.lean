import Wfrest.Base.ContentType
import Wfrest.Form.MultiPart
import Wfrest.Lib.Lines

/-!
# The boundary of a form

`HttpReq::fill_content_type` takes everything behind the first `boundary=` of the
`Content-Type` for the boundary, up to the end of the text. That is the boundary
parameter only if no parameter follows it and `boundary=` does not stand in one before
it (`setsBoundary_iff`).
-/

namespace Wfrest

open StringPiece

/-- `HttpReq::fill_content_type` on the header `Content-Type`: the content type, and the
boundary of the form, which was `boundary_` before. -/
def fillContentType (boundary_ contentTypeStr : Bytes) :
    Except StdException (HttpContentType × Bytes) :=
  let contentType := toEnum contentTypeStr
  if contentType = .MULTIPART_FORM_DATA then
    match strstr (ascii "boundary=") (cStr contentTypeStr) with
    | none => .ok (contentType, boundary_)
    | some boundary =>
      let boundaryPiece := ofCStr (boundary.drop (ascii "boundary=").length)
      -- the byte in front of the piece is the `=`
      (boundaryPiece.trimPairs equals quotePairs).asString.map fun b => (contentType, b)
  else .ok (contentType, boundary_)

/-! ### Content types with parameters -/

/-- `name=value` -/
def paramText (p : Bytes × Bytes) : Bytes := p.1 ++ equals :: p.2

/-- The parameters, each behind `; `. -/
def paramsText (ps : List (Bytes × Bytes)) : Bytes :=
  ps.flatMap fun p => semicolon :: space :: paramText p

/-- A letter, a digit, `-` or `_`. -/
def IsBoundaryByte (c : UInt8) : Prop :=
  (97 ≤ c ∧ c ≤ 122) ∨ (65 ≤ c ∧ c ≤ 90) ∨ (48 ≤ c ∧ c ≤ 57) ∨ c = hyphen ∨ c = 95

instance : DecidablePred IsBoundaryByte := fun c => by unfold IsBoundaryByte; infer_instance

/-- A `multipart/form-data` type with one boundary parameter. -/
structure MultipartType where
  before : List (Bytes × Bytes)
  boundary : Bytes
  /-- The boundary is in double quotes. -/
  quoted : Bool
  after : List (Bytes × Bytes)
  boundary_ne_nil : boundary ≠ []
  boundary_ok : ∀ c ∈ boundary, IsBoundaryByte c
  others_ok : ∀ p ∈ before ++ after, p.1 ≠ ascii "boundary" ∧ 0 ∉ p.1 ∧ 0 ∉ p.2

namespace MultipartType

/-- The value of the boundary parameter. -/
def boundaryValue (t : MultipartType) : Bytes :=
  if t.quoted then dquote :: t.boundary ++ [dquote] else t.boundary

/-- What stands in front of the boundary parameter. -/
def front (t : MultipartType) : Bytes :=
  ascii "multipart/form-data" ++ paramsText t.before ++ [semicolon, space]

/-- What stands behind its `=`. -/
def rest (t : MultipartType) : Bytes := t.boundaryValue ++ paramsText t.after

/-- The value of the header. -/
def text (t : MultipartType) : Bytes := t.front ++ (ascii "boundary=" ++ t.rest)

theorem text_eq (t : MultipartType) :
    t.text = ascii "multipart/form-data" ++
      paramsText (t.before ++ (ascii "boundary", t.boundaryValue) :: t.after) := by
  have hkey : ascii "boundary=" = ascii "boundary" ++ [equals] := by decide
  simp [text, front, rest, paramsText, paramText, hkey]

/-- The form gets the boundary. -/
def SetsBoundary (t : MultipartType) (boundary_ : Bytes) : Prop :=
  (fillContentType boundary_ t.text).map Prod.snd = .ok t.boundary

/-- The texts of a header have no NUL. -/
theorem zero_notMem_text (t : MultipartType) : 0 ∉ t.text := by
  have hparams : ∀ ps : List (Bytes × Bytes), (∀ p ∈ ps, 0 ∉ p.1 ∧ 0 ∉ p.2) →
      0 ∉ paramsText ps := by
    intro ps hps hmem
    obtain ⟨p, hp, hmem⟩ := List.mem_flatMap.mp hmem
    have h₁ : (0 : UInt8) ≠ semicolon := by decide
    have h₂ : (0 : UInt8) ≠ space := by decide
    have h₃ : (0 : UInt8) ≠ equals := by decide
    simp [paramText, h₁, h₂, h₃, hps p hp] at hmem
  have hboundary : 0 ∉ t.boundary := fun hmem => absurd (t.boundary_ok 0 hmem) (by decide)
  have hvalue : 0 ∉ t.boundaryValue := by
    unfold boundaryValue
    have h₁ : (0 : UInt8) ≠ dquote := by decide
    split
    · simp [hboundary, h₁]
    · exact hboundary
  have hbefore := hparams t.before fun p hp => (t.others_ok p (List.mem_append_left _ hp)).2
  have hafter := hparams t.after fun p hp => (t.others_ok p (List.mem_append_right _ hp)).2
  have h₁ : 0 ∉ ascii "multipart/form-data" := by decide
  have h₂ : (0 : UInt8) ∉ [semicolon, space] := by decide
  have h₃ : 0 ∉ ascii "boundary=" := by decide
  simp only [text, front, rest, List.mem_append, not_or]
  exact ⟨⟨⟨h₁, hbefore⟩, h₂⟩, h₃, hvalue, hafter⟩

/-- `boundary=` stands in none of the parameters before. -/
def FirstOfText (t : MultipartType) : Prop :=
  ∀ p ∈ t.before, ¬ ascii "boundary=" <:+: paramText p

theorem firstOfText_iff (t : MultipartType) :
    t.FirstOfText ↔ ¬ ascii "boundary=" <:+: t.front := by
  have hsemi : semicolon ∉ ascii "boundary=" := by decide
  -- no key begins with the space behind a semicolon
  have hspace : ∀ s, ascii "boundary=" <:+: space :: s ↔ ascii "boundary=" <:+: s := by
    intro s
    rw [List.infix_cons_iff]
    refine or_iff_right fun hpre => ?_
    have hb : ascii "boundary=" = 98 :: ascii "oundary=" := by decide
    rw [hb, List.cons_prefix_cons] at hpre
    exact absurd hpre.1 (by decide)
  have hparams : ∀ (kind : Bytes) (ps : List (Bytes × Bytes)),
      ascii "boundary=" <:+: kind ++ paramsText ps ↔
        ascii "boundary=" <:+: kind ∨ ∃ p ∈ ps, ascii "boundary=" <:+: paramText p := by
    intro kind ps
    induction ps generalizing kind with
    | nil => simp [paramsText]
    | cons p ps ih =>
      have hcons : kind ++ paramsText (p :: ps) =
          kind ++ semicolon :: (space :: paramText p ++ paramsText ps) := by
        simp [paramsText]
      rw [hcons, Lines.infix_append_cons_iff hsemi, ih, hspace]
      simp
  have hfront : t.front = (ascii "multipart/form-data" ++ paramsText t.before) ++
      semicolon :: [space] := rfl
  have hkind : ¬ ascii "boundary=" <:+: ascii "multipart/form-data" := by decide
  have hlast : ¬ ascii "boundary=" <:+: [space] := by decide
  rw [hfront, Lines.infix_append_cons_iff hsemi, hparams, FirstOfText]
  simp only [hkind, hlast, false_or, or_false, not_exists, not_and]

/-- An occurrence that begins before the parameter ends before it. -/
theorem infix_front_of_prefix {t : MultipartType} {x : Bytes} (hx : x <:+ t.front) (hne : x ≠ [])
    (hpre : ascii "boundary=" <+: x ++ (ascii "boundary=" ++ t.rest)) :
    ∃ y, x = ascii "boundary=" ++ y ∧ [semicolon, space] <:+ y := by
  have hend : [semicolon, space] <:+ t.front := List.suffix_append _ _
  rcases List.suffix_or_suffix_of_suffix hx hend with hx | ⟨z, rfl⟩
  · -- it would begin with the semicolon or the space
    have hb : ascii "boundary=" = 98 :: ascii "oundary=" := by decide
    rw [hb] at hpre
    rcases List.suffix_cons_iff.mp hx with rfl | hx
    · exact absurd (List.cons_prefix_cons.mp hpre).1 (by decide)
    · rcases List.suffix_cons_iff.mp hx with rfl | hx
      · exact absurd (List.cons_prefix_cons.mp hpre).1 (by decide)
      · exact absurd (List.suffix_nil.mp hx) hne
  · obtain ⟨r, hr⟩ := hpre
    rw [List.append_assoc] at hr
    rcases List.append_eq_append_iff.mp hr with ⟨c, rfl, -⟩ | ⟨c, hc, hsep⟩
    · exact ⟨c ++ [semicolon, space], List.append_assoc _ _ _, List.suffix_append _ _⟩
    · cases c with
      | nil =>
        rw [List.append_nil] at hc
        exact ⟨[semicolon, space], by rw [hc], List.suffix_refl _⟩
      | cons b c =>
        -- the semicolon would stand in `boundary=`
        have hmem : semicolon ∈ ascii "boundary=" := by
          rw [hc, ← (List.cons.inj hsep).1]
          exact List.mem_append_right _ List.mem_cons_self
        exact absurd hmem (by decide)

/-- The first occurrence in the text. -/
theorem strstr_text (t : MultipartType) :
    ∃ s, strstr (ascii "boundary=") (cStr t.text) = some (ascii "boundary=" ++ s) ∧ 0 ∉ s ∧
      (t.FirstOfText → s = t.rest) ∧
      (¬ t.FirstOfText → ∃ u w, s = u ++ semicolon :: w ∧ w ≠ []) := by
  have hown : ascii "boundary=" ++ t.rest <:+ t.text := List.suffix_append _ _
  have hownPrefix : ascii "boundary=" <+: ascii "boundary=" ++ t.rest := List.prefix_append _ _
  rw [cStr_eq_self t.zero_notMem_text]
  obtain ⟨found, hfind, hsuf, hpre, hmax⟩ :=
    exists_strstr (hownPrefix.isInfix.trans hown.isInfix)
  obtain ⟨s, rfl⟩ := hpre
  have hnul : 0 ∉ s := fun hmem =>
    t.zero_notMem_text (hsuf.subset (List.mem_append_right _ hmem))
  refine ⟨s, hfind, hnul, ?_⟩
  -- what is found ends with the parameter itself
  obtain ⟨x, hx⟩ := List.suffix_of_suffix_length_le hown hsuf (hmax _ hown hownPrefix)
  have hxfront : x <:+ t.front := by
    rw [← hx] at hsuf
    obtain ⟨z, hz⟩ := hsuf
    rw [← List.append_assoc] at hz
    exact ⟨z, List.append_cancel_right hz⟩
  by_cases hnil : x = []
  · subst hnil
    have hs : t.rest = s := List.append_cancel_left hx
    refine ⟨fun _ => hs.symm, fun hnot => ?_⟩
    rw [firstOfText_iff, not_not] at hnot
    -- an occurrence in front would have been found first
    obtain ⟨z, y, hy⟩ := hnot
    have hlong : ascii "boundary=" ++ y ++ (ascii "boundary=" ++ t.rest) <:+ t.text :=
      ⟨z, by rw [text, ← hy]; simp⟩
    have hle := hmax _ hlong (by rw [List.append_assoc]; exact List.prefix_append _ _)
    have hpos : 0 < (ascii "boundary=").length := by decide
    simp only [List.length_append, hs] at hle
    omega
  · have hprefix : ascii "boundary=" <+: x ++ (ascii "boundary=" ++ t.rest) := by
      rw [hx]
      exact List.prefix_append _ _
    obtain ⟨y, rfl, z, rfl⟩ := infix_front_of_prefix hxfront hnil hprefix
    refine ⟨fun hfirst => ?_, fun _ => ?_⟩
    · rw [firstOfText_iff] at hfirst
      exact absurd ((List.prefix_append _ _).isInfix.trans hxfront.isInfix) hfirst
    · refine ⟨z, space :: (ascii "boundary=" ++ t.rest), ?_, by simp⟩
      rw [List.append_assoc] at hx
      rw [← List.append_cancel_left hx]
      simp

end MultipartType

/-! ### Stripping the quotes -/

private theorem isPair_quotePairs {lhs rhs : UInt8} (h : isPair lhs rhs quotePairs = true) :
    lhs = dquote ∨ lhs = 39 := by
  simp only [quotePairs, isPair, Bool.or_false, Bool.or_eq_true, decide_eq_true_eq] at h
  rcases h with h | h
  · exact Or.inl h.1
  · exact Or.inr h.1

private theorem ofCStr_eq {s : Bytes} (h0 : 0 ∉ s) : ofCStr s = ofString s := by
  rw [ofCStr, cStr_eq_self h0]
  rfl

/-- A semicolon that is not the last byte survives. -/
theorem semicolon_mem_of_trimPairs {u w v : Bytes} (hw : w ≠ [])
    (h0 : 0 ∉ u ++ semicolon :: w)
    (h : ((ofCStr (u ++ semicolon :: w)).trimPairs equals quotePairs).asString = .ok v) :
    semicolon ∈ v := by
  rw [ofCStr_eq h0] at h
  rcases trimPairs_cases equals (ofString (u ++ semicolon :: w)) quotePairs with
    heq | ⟨heq, rhs, hpair⟩
  · rw [heq, (inBuffer_ofString _).asString, view_ofString] at h
    rw [← Except.ok.inj h]
    exact List.mem_append_right _ List.mem_cons_self
  · -- the first byte is a quote, so the semicolon is not the first byte either
    have hlhs := isPair_quotePairs hpair
    cases u with
    | nil =>
      change semicolon = dquote ∨ semicolon = 39 at hlhs
      exact absurd hlhs (by decide)
    | cons a u =>
      obtain ⟨w, b, rfl⟩ := (List.eq_nil_or_concat' w).resolve_left hw
      have hlen : (a :: u ++ semicolon :: (w ++ [b])).length - 2 =
          (u ++ semicolon :: w).length := by
        simp
      have hsize : 2 ≤ (a :: u ++ semicolon :: (w ++ [b])).length := by
        simp
        omega
      have hdrop : (a :: u ++ semicolon :: (w ++ [b])).drop 1 = (u ++ semicolon :: w) ++ [b] := by
        simp
      rw [heq, length_ofString, ptr_ofString, sizeSub_of_le hsize, hlen, hdrop, asString] at h
      split at h
      · rw [← Except.ok.inj h, view, List.take_left]
        exact List.mem_append_right _ List.mem_cons_self
      · cases h

namespace MultipartType

theorem semicolon_notMem_boundary (t : MultipartType) : semicolon ∉ t.boundary := fun hmem =>
  absurd (t.boundary_ok _ hmem) (by decide)

/-- The value alone gives the boundary. -/
theorem trimPairs_boundaryValue (t : MultipartType) :
    ((ofCStr t.boundaryValue).trimPairs equals quotePairs).asString = .ok t.boundary := by
  have hnul : 0 ∉ t.boundary := fun hmem => absurd (t.boundary_ok 0 hmem) (by decide)
  have hq : (0 : UInt8) ≠ dquote := by decide
  unfold boundaryValue
  split
  · rw [ofCStr_eq (by simp [hnul, hq])]
    have htrim := (inBuffer_ofString (dquote :: t.boundary ++ [dquote])).trimPairs_quoted
      (view_ofString _) equals [39, 39]
    rw [quotePairs, htrim.1.asString, htrim.2]
  · rw [ofCStr_eq hnul]
    obtain ⟨c, cs, hb⟩ := List.exists_cons_of_ne_nil t.boundary_ne_nil
    have hc := t.boundary_ok c (by rw [hb]; exact List.mem_cons_self)
    rcases trimPairs_cases equals (ofString t.boundary) quotePairs with heq | ⟨-, rhs, hpair⟩
    · rw [heq, (inBuffer_ofString _).asString, view_ofString]
    · -- a boundary does not begin with a quote
      have hlhs := isPair_quotePairs hpair
      have hget : (ofString t.boundary).get 0 = c := by rw [hb]; rfl
      rw [hget] at hlhs
      rcases hlhs with rfl | rfl
      · exact absurd hc (by decide)
      · exact absurd hc (by decide)

theorem toEnum_text (t : MultipartType) : toEnum t.text = .MULTIPART_FORM_DATA := by
  rw [text_eq]
  exact toEnum_multipart _

/-- **When the boundary is found.** The form gets the boundary of the parameter if and only
if it is the last parameter and `boundary=` stands in none before it. -/
theorem setsBoundary_iff (t : MultipartType) (boundary_ : Bytes) :
    t.SetsBoundary boundary_ ↔
      t.after = [] ∧ ∀ p ∈ t.before, ¬ ascii "boundary=" <:+: paramText p := by
  obtain ⟨s, hfind, hnul, hfirst, hlater⟩ := t.strstr_text
  have hfill : (fillContentType boundary_ t.text).map Prod.snd =
      ((ofCStr s).trimPairs equals quotePairs).asString := by
    rw [fillContentType, t.toEnum_text]
    simp only [if_true, hfind, List.drop_left]
    cases ((ofCStr s).trimPairs equals quotePairs).asString <;> rfl
  -- with a semicolon in it the text is not a boundary
  have hcut : ∀ u w, s = u ++ semicolon :: w → w ≠ [] → ¬ t.SetsBoundary boundary_ := by
    rintro u w rfl hw hsets
    rw [SetsBoundary, hfill] at hsets
    exact t.semicolon_notMem_boundary (semicolon_mem_of_trimPairs hw hnul hsets)
  constructor
  · intro hsets
    have hfst : t.FirstOfText := by
      by_contra hnot
      obtain ⟨u, w, hs, hw⟩ := hlater hnot
      exact hcut u w hs hw hsets
    refine ⟨?_, hfst⟩
    by_contra hafter
    obtain ⟨p, ps, hp⟩ := List.exists_cons_of_ne_nil hafter
    refine hcut t.boundaryValue (space :: (paramText p ++ paramsText ps)) ?_ (by simp) hsets
    rw [hfirst hfst, rest, hp]
    simp [paramsText]
  · rintro ⟨hafter, hfst⟩
    have hs : s = t.boundaryValue := by
      rw [hfirst hfst, rest, hafter]
      exact List.append_nil _
    rw [SetsBoundary, hfill, hs]
    exact t.trimPairs_boundaryValue

/-- `multipart/form-data; boundary=bnd; charset=c` -/
def charsetBehind : MultipartType where
  before := []
  boundary := ascii "bnd"
  quoted := false
  after := [(ascii "charset", ascii "c")]
  boundary_ne_nil := by decide
  boundary_ok := forall_mem_of_all (by decide)
  others_ok := by decide

/-- The boundary becomes `bnd; charset=c`. -/
theorem not_setsBoundary_charsetBehind :
    ¬ ∀ (t : MultipartType) (boundary_ : Bytes), t.SetsBoundary boundary_ := by
  intro hall
  have hread : ((fillContentType [] charsetBehind.text).map Prod.snd).toOption =
      some (ascii "bnd; charset=c") := by
    decide +kernel
  have hsets := hall charsetBehind []
  rw [SetsBoundary] at hsets
  rw [hsets] at hread
  exact absurd hread (by decide)

end MultipartType

end Wfrest
