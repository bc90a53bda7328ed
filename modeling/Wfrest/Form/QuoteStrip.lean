import Wfrest.Form.BoundaryParam
import Wfrest.Form.Disposition

/-!
# Quote stripping

`StrUtil::trim_pairs` compares the first and the last byte of a view with pairs of quotes,
and cuts both off when they match. On a view of two bytes or more it does what it is for
(`stripsQuotes_iff`). It also looks at the first and the last byte of an empty view, which
are outside of it, and takes the one byte of a view `"` for both of its quotes; the new
length is then 1 - 2.

Two callers make a `std::string` of what is left: `handle_header` of a parameter and
`fill_content_type` of a boundary. The string fits into the header it comes from unless a
client has sent a lone quote.
-/

namespace Wfrest

open StringPiece

/-! ### The function -/

namespace StringPiece

/-- The reads of the loop in `trim_pairs`, as offsets from `begin()`. The last byte is only
looked at when the first one matches. -/
def pairReads (length : Nat) (lhs rhs : UInt8) : Bytes → List Int
  | p :: q :: pairs =>
    if lhs = p then
      0 :: (length - 1 : Int) :: if rhs = q then [] else pairReads length lhs rhs pairs
    else 0 :: pairReads length lhs rhs pairs
  | _ => []

/-- The bytes that `trim_pairs` reads. -/
def trimPairsReads (before : UInt8) (str : StringPiece) (pairs : Bytes) : List Int :=
  pairReads str.length (str.get 0)
    (if str.length = 0 then before else str.get (str.length - 1)) pairs

/-- `trim_pairs` reads bytes of the view only, and returns the view, or, when it has two
bytes and they are a pair, what is between them. -/
structure StripsQuotes (before : UInt8) (str : StringPiece) (pairs : Bytes) : Prop where
  reads : ∀ i ∈ trimPairsReads before str pairs, 0 ≤ i ∧ i < str.length
  result : trimPairs before str pairs = str ∨
    2 ≤ str.length ∧ isPair (str.get 0) (str.get (str.length - 1)) pairs = true ∧
      trimPairs before str pairs = str.sub 1 (str.length - 2)

/-- Whatever the bytes are, the offsets are those of the first and of the last one. -/
theorem mem_pairReads {length : Nat} {lhs rhs : UInt8} {pairs : Bytes} {i : Int}
    (h : i ∈ pairReads length lhs rhs pairs) : i = 0 ∨ i = length - 1 := by
  fun_induction pairReads length lhs rhs pairs with
  | case1 q pairs ih =>
    rw [List.mem_cons, List.mem_cons] at h
    rcases h with h | h | h
    · exact Or.inl h
    · exact Or.inr h
    · split at h
      · cases h
      · exact ih h
  | case2 p q pairs hlhs ih =>
    rcases List.mem_cons.mp h with h | h
    · exact Or.inl h
    · exact ih h
  | case3 => cases h

/-- The first byte is always looked at, when there is a pair. -/
theorem zero_mem_pairReads {length : Nat} {lhs rhs : UInt8} {pairs : Bytes}
    (h : 2 ≤ pairs.length) : 0 ∈ pairReads length lhs rhs pairs := by
  match pairs, h with
  | p :: q :: pairs, _ =>
    rw [pairReads]
    split <;> exact List.mem_cons_self

theorem isPair_of_length_lt {lhs rhs : UInt8} {pairs : Bytes} (h : pairs.length < 2) :
    isPair lhs rhs pairs = false := by
  match pairs, h with
  | [], _ => rfl
  | [_], _ => rfl

theorem pairReads_of_length_lt {length : Nat} {lhs rhs : UInt8} {pairs : Bytes}
    (h : pairs.length < 2) : pairReads length lhs rhs pairs = [] := by
  match pairs, h with
  | [], _ => rfl
  | [_], _ => rfl

/-- The length of a lone quote wraps. -/
theorem trimPairs_lone {before : UInt8} {str : StringPiece} {pairs : Bytes}
    (hlen : str.length = 1) (hpair : isPair (str.get 0) (str.get 0) pairs = true) :
    trimPairs before str pairs = ⟨str.ptr.drop 1, 2 ^ 64 - 1⟩ := by
  rw [trimPairs, hlen, if_neg Nat.one_ne_zero, Nat.sub_self, if_pos hpair]
  rfl

theorem trimPairs_of_not_isPair {before : UInt8} {str : StringPiece} {pairs : Bytes}
    (hlen : str.length ≠ 0)
    (hpair : ¬ isPair (str.get 0) (str.get (str.length - 1)) pairs = true) :
    trimPairs before str pairs = str := by
  rw [trimPairs, if_neg hlen, if_neg hpair]

theorem trimPairs_of_isPair {before : UInt8} {str : StringPiece} {pairs : Bytes}
    (hlen : 2 ≤ str.length)
    (hpair : isPair (str.get 0) (str.get (str.length - 1)) pairs = true) :
    trimPairs before str pairs = str.sub 1 (str.length - 2) := by
  have hne : str.length ≠ 0 := by omega
  rw [trimPairs, if_neg hne, if_pos hpair, sizeSub_of_le hlen]
  rfl

/-- **When quotes are stripped** as they should be: there is no pair to look for, or the
view has two bytes, or it has one and that is not a pair with itself. -/
theorem stripsQuotes_iff {before : UInt8} {str : StringPiece} {pairs : Bytes} :
    StripsQuotes before str pairs ↔
      pairs.length < 2 ∨ 2 ≤ str.length ∨
        str.length = 1 ∧ isPair (str.get 0) (str.get 0) pairs = false := by
  constructor
  · intro h
    by_contra hno
    simp only [not_or, not_lt, not_le, not_and, Bool.not_eq_false] at hno
    obtain ⟨hpairs, hlt, hone⟩ := hno
    rcases Nat.le_one_iff_eq_zero_or_eq_one.mp (Nat.le_of_lt_succ hlt) with hlen | hlen
    · -- the empty view has no first byte
      have := (h.reads 0 (zero_mem_pairReads hpairs)).2
      omega
    · rcases h.result with hself | ⟨htwo, -, -⟩
      · rw [trimPairs_lone hlen (hone hlen)] at hself
        have := congrArg StringPiece.length hself
        change 2 ^ 64 - 1 = str.length at this
        omega
      · omega
  · rintro (hpairs | htwo | ⟨hone, hpair⟩)
    · refine ⟨fun i hi => ?_, Or.inl ?_⟩
      · rw [trimPairsReads, pairReads_of_length_lt hpairs] at hi
        cases hi
      · rw [trimPairs, isPair_of_length_lt hpairs]
        rfl
    · refine ⟨fun i hi => ?_, ?_⟩
      · rcases mem_pairReads hi with rfl | rfl <;> omega
      · by_cases hpair : isPair (str.get 0) (str.get (str.length - 1)) pairs = true
        · exact Or.inr ⟨htwo, hpair, trimPairs_of_isPair htwo hpair⟩
        · exact Or.inl (trimPairs_of_not_isPair (by omega) hpair)
    · refine ⟨fun i hi => ?_, Or.inl ?_⟩
      · rcases mem_pairReads hi with rfl | rfl <;> omega
      · refine trimPairs_of_not_isPair (by omega) ?_
        rw [hone, Nat.sub_self, hpair]
        exact Bool.false_ne_true

end StringPiece

/-! ### The callers -/

/-- The string made of the view exists and is not longer than the header. -/
def StringFits (header : Bytes) (v : StringPiece) : Prop :=
  ∃ s, v.asString = .ok s ∧ s.length ≤ header.length

/-- A single quote, of either kind. -/
def LoneQuote (v : StringPiece) : Prop := v.view = [dquote] ∨ v.view = [39]

/-- The key of a parameter that `handle_header` keeps. -/
def keepsKey (key : StringPiece) : Bool :=
  key.startsWith (.ofCStr (ascii "name")) || key.startsWith (.ofCStr (ascii "filename"))

/-- What the turn of the loop over `dispo_list` makes a `std::string` of. -/
def dispoValue (dispo : StringPiece) : Option StringPiece :=
  match dispo.trim.splitPiece equals with
  | [key, kv1] => if keepsKey key then some (kv1.trimPairs equals quotePairs) else none
  | _ => none

/-- What `handle_header` makes a `std::string` of. -/
def headerValues (u : MultipartParserUserdata) : List StringPiece :=
  if isDisposition u.headerField then
    ((StringPiece.ofString u.headerValue).splitPiece semicolon).filterMap dispoValue
  else []

/-- What `fill_content_type` makes a `std::string` of. -/
def contentTypeValue (contentTypeStr : Bytes) : Option StringPiece :=
  if toEnum contentTypeStr = .MULTIPART_FORM_DATA then
    (strstr (ascii "boundary=") (cStr contentTypeStr)).map fun boundary =>
      (ofCStr (boundary.drop (ascii "boundary=").length)).trimPairs equals quotePairs
  else none

/-- A turn ends if the string can be made. -/
theorem readDispo_isOk_iff {acc : Bytes × Bytes} {dispo : StringPiece} :
    (∃ acc', readDispo acc dispo = .ok acc') ↔
      ∀ v, dispoValue dispo = some v → ∃ s, v.asString = .ok s := by
  have hmap : ∀ (v : StringPiece) (f : Bytes → Bytes × Bytes),
      (∃ acc', v.asString.map f = .ok acc') ↔ ∃ s, v.asString = .ok s := by
    intro v f
    cases v.asString <;> simp [Except.map]
  unfold readDispo dispoValue keepsKey
  generalize dispo.trim.splitPiece equals = kv
  match kv with
  | [key, kv1] =>
    by_cases hname : key.startsWith (.ofCStr (ascii "name")) = true
    · simp only [hname, if_true, Bool.true_or, hmap, Option.some.injEq, forall_eq']
    · by_cases hfile : key.startsWith (.ofCStr (ascii "filename")) = true
      · simp only [hname, hfile, if_true, Bool.false_eq_true, if_false, Bool.or_true, hmap,
          Option.some.injEq, forall_eq']
      · simp [hname, hfile]
  | [] => simp
  | [_] => simp
  | _ :: _ :: _ :: _ => simp

theorem foldlM_readDispo_isOk_iff {acc : Bytes × Bytes} {dispos : List StringPiece} :
    (∃ acc', dispos.foldlM readDispo acc = .ok acc') ↔
      ∀ v ∈ dispos.filterMap dispoValue, ∃ s, v.asString = .ok s := by
  induction dispos generalizing acc with
  | nil => exact iff_of_true ⟨acc, rfl⟩ fun v hv => absurd hv List.not_mem_nil
  | cons dispo dispos ih =>
    have hcons : (∀ v ∈ (dispo :: dispos).filterMap dispoValue, ∃ s, v.asString = .ok s) ↔
        (∀ v, dispoValue dispo = some v → ∃ s, v.asString = .ok s) ∧
          ∀ v ∈ dispos.filterMap dispoValue, ∃ s, v.asString = .ok s := by
      simp only [List.mem_filterMap, List.mem_cons]
      constructor
      · intro h
        refine ⟨fun v hv => h v ⟨dispo, Or.inl rfl, hv⟩, ?_⟩
        rintro v ⟨d, hd, hv⟩
        exact h v ⟨d, Or.inr hd, hv⟩
      · rintro ⟨hhead, htail⟩ v ⟨d, rfl | hd, hv⟩
        · exact hhead v hv
        · exact htail v ⟨d, hd, hv⟩
    rw [hcons, ← @readDispo_isOk_iff acc, List.foldlM_cons]
    cases hread : readDispo acc dispo with
    | error e => simp [bind, Except.bind]
    | ok acc' => simpa [bind, Except.bind] using ih

/-- **`handle_header` ends** if all its strings can be made. -/
theorem handleHeader_isOk_iff {u : MultipartParserUserdata} :
    (∃ u', u.handleHeader = .ok u') ↔ ∀ v ∈ headerValues u, ∃ s, v.asString = .ok s := by
  unfold MultipartParserUserdata.handleHeader headerValues
  by_cases hempty : u.headerField = [] ∨ u.headerValue = []
  · rw [if_pos hempty]
    refine iff_of_true ⟨u, rfl⟩ fun v hv => ?_
    -- without a name it is no disposition, and without a value there is nothing to cut
    rcases hempty with hfield | hvalue
    · rw [hfield] at hv
      exact absurd hv (by simp [isDisposition, strcaseeq, cStr, ascii])
    · rw [hvalue] at hv
      split at hv
      · cases hv
      · cases hv
  · rw [if_neg hempty]
    split
    · rw [← @foldlM_readDispo_isOk_iff (u.name, u.filename)]
      unfold readDisposition
      cases ((ofString u.headerValue).splitPiece semicolon).foldlM readDispo
          (u.name, u.filename) with
      | error e => simp [bind, Except.bind]
      | ok acc => simp [bind, Except.bind, pure, Except.pure]
    · exact iff_of_true ⟨_, rfl⟩ fun v hv => absurd hv List.not_mem_nil

/-! ### Strings that fit into their header -/

theorem isPair_quotePairs_iff {lhs rhs : UInt8} :
    isPair lhs rhs quotePairs = true ↔ lhs = dquote ∧ rhs = dquote ∨ lhs = 39 ∧ rhs = 39 := by
  simp [isPair, quotePairs]

/-- A lone quote has one byte. -/
theorem not_loneQuote_of_length_ne {v : StringPiece} (hin : v.InBuffer) (hlen : v.length ≠ 1) :
    ¬ LoneQuote v := by
  have hview := length_view hin
  rintro (h | h)
  · rw [h] at hview
    exact hlen hview.symm
  · rw [h] at hview
    exact hlen hview.symm

/-- The one byte of a view is a lone quote exactly if it is a pair with itself. -/
theorem loneQuote_iff_isPair {v : StringPiece} (hin : v.InBuffer) (hlen : v.length = 1) :
    LoneQuote v ↔ isPair (v.get 0) (v.get 0) quotePairs = true := by
  obtain ⟨c, hc⟩ := List.length_eq_one_iff.mp ((length_view hin).trans hlen)
  have hget : v.get 0 = c := by
    cases hv : v.ptr with
    | nil => simp [view, hv] at hc
    | cons a as =>
      rw [view, hv, hlen] at hc
      rw [StringPiece.get, hv]
      exact (List.cons.inj hc).1
  rw [LoneQuote, hc, hget, isPair_quotePairs_iff]
  simp

/-- No buffer is as long as the wrapped length. -/
theorem not_stringFits_lone {header : Bytes} {v : StringPiece} (hlen : v.length = 1)
    (hpair : isPair (v.get 0) (v.get 0) quotePairs = true) (hptr : v.ptr.length < 2 ^ 63) :
    ¬ StringFits header (v.trimPairs equals quotePairs) := by
  rw [trimPairs_lone hlen hpair]
  rintro ⟨s, hs, -⟩
  unfold asString at hs
  split at hs
  next hle =>
    change 2 ^ 64 - 1 ≤ (v.ptr.drop 1).length at hle
    rw [List.length_drop] at hle
    omega
  · cases hs

/-- Two quotes are cut off a view that has both. -/
theorem stringFits_trimPairs_of_isPair {header : Bytes} {v : StringPiece} (hin : v.InBuffer)
    (hptr : v.ptr.length ≤ header.length) (htwo : 2 ≤ v.length)
    (hpair : isPair (v.get 0) (v.get (v.length - 1)) quotePairs = true) :
    StringFits header (v.trimPairs equals quotePairs) := by
  rw [trimPairs_of_isPair htwo hpair]
  have hsub : (v.sub 1 (v.length - 2)).InBuffer := hin.sub (by omega)
  refine ⟨_, hsub.asString, ?_⟩
  rw [length_view hsub]
  have hle : v.length ≤ v.ptr.length := hin
  change v.length - 2 ≤ header.length
  omega

/-- The quotes of a view go, or the view stays, unless it is a lone quote. -/
theorem stringFits_trimPairs_iff {header : Bytes} (hfits : header.length < 2 ^ 63)
    {v : StringPiece} (hin : v.InBuffer) (hptr : v.ptr.length ≤ header.length) :
    StringFits header (v.trimPairs equals quotePairs) ↔ ¬ LoneQuote v := by
  have hself : StringFits header v := by
    refine ⟨v.view, hin.asString, ?_⟩
    rw [length_view hin]
    exact le_trans hin hptr
  rcases Nat.lt_or_ge v.length 2 with hlt | htwo
  · rcases Nat.le_one_iff_eq_zero_or_eq_one.mp (Nat.le_of_lt_succ hlt) with hlen | hlen
    · -- in front of an empty value is the `=`, which is no quote
      have hpair : ¬ isPair (v.get 0) equals quotePairs = true := by
        rw [isPair_quotePairs_iff]
        rintro (⟨-, h⟩ | ⟨-, h⟩)
        · exact absurd h (by decide)
        · exact absurd h (by decide)
      rw [trimPairs, if_pos hlen, if_neg hpair]
      exact iff_of_true hself (not_loneQuote_of_length_ne hin (by omega))
    · rw [loneQuote_iff_isPair hin hlen]
      by_cases hpair : isPair (v.get 0) (v.get 0) quotePairs = true
      · exact iff_of_false (not_stringFits_lone hlen hpair (lt_of_le_of_lt hptr hfits))
          fun h => h hpair
      · rw [trimPairs_of_not_isPair (by omega) (by rw [hlen]; exact hpair)]
        exact iff_of_true hself hpair
  · refine iff_of_true ?_ (not_loneQuote_of_length_ne hin (by omega))
    by_cases hpair : isPair (v.get 0) (v.get (v.length - 1)) quotePairs = true
    · exact stringFits_trimPairs_of_isPair hin hptr htwo hpair
    · rw [trimPairs_of_not_isPair (by omega) hpair]
      exact hself

/-- A piece of a view lies in its buffer, which is not longer. -/
theorem inBuffer_of_mem_splitPiece {s piece : StringPiece} {sep : UInt8} (h : s.InBuffer)
    (hmem : piece ∈ s.splitPiece sep) : piece.InBuffer ∧ piece.ptr.length ≤ s.ptr.length := by
  refine ⟨?_, length_ptr_of_mem_splitPiece hmem⟩
  by_cases hnil : s.view = []
  · have hlen : s.length = 0 := by rw [← length_view h, hnil]; rfl
    rw [StringPiece.splitPiece, if_pos hlen] at hmem
    cases hmem
  · exact (h.splitPiece hnil sep).1 piece hmem

/-- `handle_header` finds a lone quote behind a key that it keeps. -/
def HasLoneQuote (u : MultipartParserUserdata) : Prop :=
  isDisposition u.headerField = true ∧
    ∃ dispo ∈ (StringPiece.ofString u.headerValue).splitPiece semicolon, ∃ key kv1,
      dispo.trim.splitPiece equals = [key, kv1] ∧ keepsKey key = true ∧ LoneQuote kv1

theorem headerValues_fit_iff {u : MultipartParserUserdata}
    (hfits : u.headerValue.length < 2 ^ 63) :
    (∀ v ∈ headerValues u, StringFits u.headerValue v) ↔ ¬ HasLoneQuote u := by
  -- what a turn makes a string of, in terms of the value in front of the stripping
  have hturn : ∀ dispo ∈ (StringPiece.ofString u.headerValue).splitPiece semicolon,
      (∀ v, dispoValue dispo = some v → StringFits u.headerValue v) ↔
        ∀ key kv1, dispo.trim.splitPiece equals = [key, kv1] → keepsKey key = true →
          ¬ LoneQuote kv1 := by
    intro dispo hdispo
    obtain ⟨hin, hptr⟩ := inBuffer_of_mem_splitPiece (inBuffer_ofString _) hdispo
    have hkv : ∀ kv1 ∈ dispo.trim.splitPiece equals,
        kv1.InBuffer ∧ kv1.ptr.length ≤ u.headerValue.length := by
      intro kv1 hmem
      obtain ⟨hkin, hkptr⟩ := inBuffer_of_mem_splitPiece hin.trim.1 hmem
      exact ⟨hkin, hkptr.trans ((length_ptr_trim dispo).trans hptr)⟩
    unfold dispoValue
    generalize dispo.trim.splitPiece equals = kv at hkv
    split
    · next key kv1 =>
      obtain ⟨hkin, hkptr⟩ := hkv kv1 (by simp)
      have hfit := stringFits_trimPairs_iff hfits hkin hkptr
      cases hkey : keepsKey key with
      | false => simp [hkey]
      | true => simp [hkey, hfit]
    · next hno =>
      refine iff_of_true (by simp) ?_
      rintro key kv1 rfl
      exact absurd rfl (hno key kv1)
  unfold headerValues HasLoneQuote
  cases hfield : isDisposition u.headerField with
  | false => simp
  | true =>
    simp only [if_true, true_and, not_exists, not_and, List.mem_filterMap, forall_exists_index,
      and_imp]
    constructor
    · intro h dispo hdispo key kv1 hkv hkey
      exact (hturn dispo hdispo).mp (fun v hv => h v dispo hdispo hv) key kv1 hkv hkey
    · intro h v dispo hdispo hv
      exact (hturn dispo hdispo).mpr (h dispo hdispo) v hv

/-- The bytes behind the first `boundary=` are a lone quote. -/
def LoneBoundary (contentTypeStr : Bytes) : Prop :=
  toEnum contentTypeStr = .MULTIPART_FORM_DATA ∧
    ∃ boundary, strstr (ascii "boundary=") (cStr contentTypeStr) = some boundary ∧
      LoneQuote (ofCStr (boundary.drop (ascii "boundary=").length))

theorem contentTypeValue_fits_iff {contentTypeStr : Bytes}
    (hfits : contentTypeStr.length < 2 ^ 63) :
    (∀ v, contentTypeValue contentTypeStr = some v → StringFits contentTypeStr v) ↔
      ¬ LoneBoundary contentTypeStr := by
  unfold contentTypeValue LoneBoundary
  by_cases htype : toEnum contentTypeStr = .MULTIPART_FORM_DATA
  swap
  · simp [htype]
  cases hfind : strstr (ascii "boundary=") (cStr contentTypeStr) with
  | none => simp
  | some boundary =>
    have hsuffix : boundary <:+ cStr contentTypeStr := strstr_suffix hfind
    have hlen : (boundary.drop (ascii "boundary=").length).length ≤ contentTypeStr.length := by
      rw [List.length_drop]
      have h₁ := hsuffix.length_le
      have h₂ := (List.takeWhile_prefix (l := contentTypeStr) (· ≠ (0 : UInt8))).length_le
      change (cStr contentTypeStr).length ≤ _ at h₂
      omega
    have hin : (ofCStr (boundary.drop (ascii "boundary=").length)).InBuffer :=
      (List.takeWhile_prefix _).length_le
    have hfit := stringFits_trimPairs_iff hfits hin hlen
    simp [htype, hfit]

/-- `fill_content_type` in terms of its string. -/
theorem fillContentType_eq (boundary_ contentTypeStr : Bytes) :
    fillContentType boundary_ contentTypeStr =
      match contentTypeValue contentTypeStr with
      | none => .ok (toEnum contentTypeStr, boundary_)
      | some v => v.asString.map fun b => (toEnum contentTypeStr, b) := by
  unfold fillContentType contentTypeValue
  by_cases htype : toEnum contentTypeStr = .MULTIPART_FORM_DATA
  · simp only [if_pos htype]
    cases strstr (ascii "boundary=") (cStr contentTypeStr) <;> rfl
  · simp only [if_neg htype]

/-- What becomes a string lies in the header. -/
theorem length_ptr_contentTypeValue {contentTypeStr : Bytes} {v : StringPiece}
    (h : contentTypeValue contentTypeStr = some v) : v.ptr.length ≤ contentTypeStr.length := by
  unfold contentTypeValue at h
  split at h
  · obtain ⟨boundary, hfind, rfl⟩ := Option.map_eq_some_iff.mp h
    have hptr : (ofCStr (boundary.drop (ascii "boundary=").length)).ptr.length ≤
        contentTypeStr.length := by
      change (boundary.drop (ascii "boundary=").length).length ≤ _
      rw [List.length_drop]
      have h₁ := (strstr_suffix hfind).length_le
      have h₂ : (cStr contentTypeStr).length ≤ contentTypeStr.length :=
        (List.takeWhile_prefix _).length_le
      omega
    rcases trimPairs_cases equals (ofCStr (boundary.drop (ascii "boundary=").length)) quotePairs
      with heq | ⟨heq, -⟩
    · rw [heq]
      exact hptr
    · rw [heq, List.length_drop]
      exact (Nat.sub_le _ _).trans hptr
  · cases h

/-- **`fill_content_type` throws** on a lone quote behind `boundary=`, and on nothing else. -/
theorem isOk_fillContentType_iff {contentTypeStr : Bytes} (boundary_ : Bytes)
    (hfits : contentTypeStr.length < 2 ^ 63) :
    (fillContentType boundary_ contentTypeStr).isOk ↔ ¬ LoneBoundary contentTypeStr := by
  rw [← contentTypeValue_fits_iff hfits, fillContentType_eq]
  cases hv : contentTypeValue contentTypeStr with
  | none => exact iff_of_true rfl nofun
  | some v =>
    have hptr := length_ptr_contentTypeValue hv
    have hfit : StringFits contentTypeStr v ↔ v.asString.isOk := by
      unfold StringFits asString
      split
      · next hle =>
        refine iff_of_true ⟨v.view, rfl, ?_⟩ rfl
        exact (length_view hle).le.trans (hle.trans hptr)
      · exact iff_of_false (fun ⟨s, hs, _⟩ => by cases hs) (by decide)
    simp only [Option.some.injEq, forall_eq', hfit]
    cases v.asString <;> rfl

/-- **Quote stripping.** `trim_pairs` returns a part of the view and stays inside, unless
there is a pair to look for and the view is empty or a lone quote. What its callers make
strings of fits into the header, unless a client has sent a lone quote. -/
theorem quoteStripping_iff (before : UInt8) (str : StringPiece) (pairs : Bytes)
    (u : MultipartParserUserdata) (contentTypeStr : Bytes)
    (hu : u.headerValue.length < 2 ^ 63) (hc : contentTypeStr.length < 2 ^ 63) :
    (StripsQuotes before str (cStr pairs) ↔
      (cStr pairs).length < 2 ∨ 2 ≤ str.length ∨
        str.length = 1 ∧ isPair (str.get 0) (str.get 0) (cStr pairs) = false) ∧
    ((∀ v ∈ headerValues u, StringFits u.headerValue v) ↔ ¬ HasLoneQuote u) ∧
    ((∀ v, contentTypeValue contentTypeStr = some v → StringFits contentTypeStr v) ↔
      ¬ LoneBoundary contentTypeStr) :=
  ⟨stripsQuotes_iff, headerValues_fit_iff hu, contentTypeValue_fits_iff hc⟩

/-- A field with a name in double quotes and a file name in single ones. -/
def quotedField : MultipartParserUserdata :=
  { MultipartParserUserdata.init with
    headerField := ascii "Content-Disposition"
    headerValue := ascii "form-data; name=\"key\"; filename='a.txt'" }

/-- A boundary in quotes. -/
def quotedType : Bytes := ascii "multipart/form-data; boundary=\"--x\""

theorem not_hasLoneQuote_quotedField : ¬ HasLoneQuote quotedField := by
  have hcheck : ∀ dispo ∈ (StringPiece.ofString quotedField.headerValue).splitPiece semicolon,
      ∀ kv1 ∈ dispo.trim.splitPiece equals, kv1.view ≠ [dquote] ∧ kv1.view ≠ [39] := by
    decide +kernel
  rintro ⟨-, dispo, hdispo, key, kv1, hkv, -, hlone⟩
  have hmem : kv1 ∈ dispo.trim.splitPiece equals :=
    hkv ▸ List.mem_cons_of_mem _ List.mem_cons_self
  exact hlone.elim (hcheck dispo hdispo kv1 hmem).1 (hcheck dispo hdispo kv1 hmem).2

theorem not_loneBoundary_quotedType : ¬ LoneBoundary quotedType := by
  have hfind : strstr (ascii "boundary=") (cStr quotedType) =
      some (ascii "boundary=\"--x\"") := by
    decide
  rintro ⟨-, boundary, hboundary, hlone⟩
  rw [hfind] at hboundary
  rw [← Option.some.inj hboundary] at hlone
  exact hlone.elim (by decide) (by decide)

/-- Quotes around a letter, around the name and the file name of a field, and around a
boundary. -/
theorem quoteStripping_quoted :
    StripsQuotes equals (StringPiece.ofString [dquote, 97, dquote]) quotePairs ∧
    (headerValues quotedField).map asString = [.ok (ascii "key"), .ok (ascii "a.txt")] ∧
    (∀ v ∈ headerValues quotedField, StringFits quotedField.headerValue v) ∧
    (contentTypeValue quotedType).map asString = some (.ok (ascii "--x")) ∧
    ∀ v, contentTypeValue quotedType = some v → StringFits quotedType v := by
  obtain ⟨hstrips, hvalues, htype⟩ := quoteStripping_iff equals
    (StringPiece.ofString [dquote, 97, dquote]) quotePairs quotedField quotedType
    (by decide) (by decide)
  exact ⟨hstrips.mpr (Or.inr (Or.inl (by decide))), by decide +kernel,
    hvalues.mpr not_hasLoneQuote_quotedField, by decide,
    htype.mpr not_loneBoundary_quotedType⟩
/-- A view of one quote is not stripped as it should be, and a boundary of one quote stops
the request with an exception. -/
theorem not_stripsQuotes_loneQuote :
    ¬ StripsQuotes equals (StringPiece.ofString [dquote]) quotePairs ∧
      fillContentType [] (ascii "multipart/form-data; boundary=" ++ [dquote]) =
        .error .length_error := by
  refine ⟨fun h => ?_, by decide⟩
  have hno := stripsQuotes_iff.mp h
  revert hno
  decide

end Wfrest
