import Wfrest.Base.StringPiece
import Mathlib.Data.List.DropRight

/-!
# `StrUtil`

Trimming, quote stripping and splitting of views. All but `trimPairs` only look at
the bytes of the view; `views_splitPiece`, `view_ltrim` and `view_rtrim` say what they
do with them. `trimPairs` looks at the first and at the last byte even when there is
none, and shortens a view by two even when it has one.
-/

namespace Wfrest

/-- `std::isspace` in the C locale. -/
def isspace (b : UInt8) : Bool := b = space ∨ (9 ≤ b ∧ b ≤ 13)

/-- `strcasecmp(a, b) == 0` -/
def strcaseeq (a b : Bytes) : Bool := (cStr a).map tolower = (cStr b).map tolower

namespace StringPiece

/-- The view `StringPiece()`. -/
def empty : StringPiece := ⟨[], 0⟩

/-- `StrUtil::ltrim` -/
def ltrim (str : StringPiece) : StringPiece :=
  let n := (str.view.takeWhile isspace).length
  if n = str.length then empty else str.sub n (str.length - n)

/-- `StrUtil::rtrim` -/
def rtrim (str : StringPiece) : StringPiece :=
  let n := (str.view.rdropWhile isspace).length
  if n = 0 then empty else str.sub 0 n

/-- `StrUtil::trim` -/
def trim (str : StringPiece) : StringPiece := ltrim (rtrim str)

/-- The loop over `pairs` in `trim_pairs`: some pair is `lhs`, `rhs`. -/
def isPair (lhs rhs : UInt8) : Bytes → Bool
  | p :: q :: pairs => (lhs = p ∧ rhs = q) || isPair lhs rhs pairs
  | _ => false

/-- `StrUtil::trim_pairs`. For an empty view `rhs` points to the byte in front of it,
which the caller passes as `before`. -/
def trimPairs (before : UInt8) (str : StringPiece) (pairs : Bytes) : StringPiece :=
  let lhs := str.get 0
  let rhs := if str.length = 0 then before else str.get (str.length - 1)
  if isPair lhs rhs pairs then ⟨str.ptr.drop 1, sizeSub str.length 2⟩ else str

/-- The loop of `split_piece`, with `cursor` and `p` as offsets. -/
def splitLoop (str : StringPiece) (sep : UInt8) (cursor p : Nat) : List StringPiece :=
  if p < str.length then
    if str.get p = sep then
      str.sub cursor (p - cursor) :: str.splitLoop sep (p + 1) (p + 1)
    else str.splitLoop sep cursor (p + 1)
  else [str.sub cursor (str.length - cursor)]
termination_by str.length - p

/-- `StrUtil::split_piece<StringPiece>` -/
def splitPiece (str : StringPiece) (sep : UInt8) : List StringPiece :=
  if str.length = 0 then [] else str.splitLoop sep 0 0

/-! ### What they do with the bytes of a view -/

/-- The view lies inside its buffer. -/
def InBuffer (s : StringPiece) : Prop := s.length ≤ s.ptr.length

theorem inBuffer_ofString (s : Bytes) : (ofString s).InBuffer := le_refl _

theorem InBuffer.asString {s : StringPiece} (h : s.InBuffer) : s.asString = .ok s.view :=
  if_pos h

theorem inBuffer_empty : empty.InBuffer := le_refl _

theorem InBuffer.sub {s : StringPiece} (h : s.InBuffer) {offset len : Nat}
    (hle : offset + len ≤ s.length) : (s.sub offset len).InBuffer := by
  change len ≤ (s.ptr.drop offset).length
  rw [List.length_drop]
  have : s.length ≤ s.ptr.length := h
  omega

theorem view_sub {s : StringPiece} {offset len : Nat} (hle : offset + len ≤ s.length) :
    (s.sub offset len).view = (s.view.drop offset).take len := by
  simp only [view, sub, List.drop_take, List.take_take]
  rw [min_eq_left (by omega)]

theorem InBuffer.ltrim {s : StringPiece} (h : s.InBuffer) :
    s.ltrim.InBuffer ∧ s.ltrim.view = s.view.dropWhile isspace := by
  have hcat := List.takeWhile_append_dropWhile (p := isspace) (l := s.view)
  have hlen : (s.view.takeWhile isspace).length + (s.view.dropWhile isspace).length = s.length := by
    rw [← List.length_append, hcat, length_view h]
  unfold StringPiece.ltrim
  by_cases hn : (s.view.takeWhile isspace).length = s.length
  · have hnil : s.view.dropWhile isspace = [] := List.length_eq_zero_iff.mp (by omega)
    rw [if_pos hn, hnil]
    exact ⟨inBuffer_empty, rfl⟩
  · rw [if_neg hn]
    refine ⟨h.sub (by omega), ?_⟩
    rw [view_sub (by omega)]
    have hdrop : s.view.drop (s.view.takeWhile isspace).length = s.view.dropWhile isspace :=
      (congrArg (List.drop _) hcat.symm).trans List.drop_left
    rw [hdrop, List.take_of_length_le (by omega)]

theorem InBuffer.rtrim {s : StringPiece} (h : s.InBuffer) :
    s.rtrim.InBuffer ∧ s.rtrim.view = s.view.rdropWhile isspace := by
  have hpre := List.rdropWhile_prefix isspace s.view
  have hle : (s.view.rdropWhile isspace).length ≤ s.length := by
    rw [← length_view h]
    exact hpre.length_le
  unfold StringPiece.rtrim
  by_cases hn : (s.view.rdropWhile isspace).length = 0
  · rw [if_pos hn, List.length_eq_zero_iff.mp hn]
    exact ⟨inBuffer_empty, rfl⟩
  · rw [if_neg hn]
    refine ⟨h.sub (by omega), ?_⟩
    rw [view_sub (by omega), List.drop_zero, ← List.prefix_iff_eq_take.mp hpre]

/-- `trim` drops the white space at both ends. -/
theorem InBuffer.trim {s : StringPiece} (h : s.InBuffer) :
    s.trim.InBuffer ∧ s.trim.view = (s.view.rdropWhile isspace).dropWhile isspace := by
  have hr := h.rtrim
  have hl := hr.1.ltrim
  exact ⟨hl.1, by rw [← hr.2]; exact hl.2⟩

/-- Without white space there is nothing to trim. -/
theorem InBuffer.trim_of_forall_not {s : StringPiece} (h : s.InBuffer)
    (hspace : ∀ c ∈ s.view, isspace c = false) : s.trim.view = s.view := by
  have hright : s.view.rdropWhile isspace = s.view := by
    rw [List.rdropWhile_eq_self_iff]
    intro hne
    simp [hspace _ (List.getLast_mem hne)]
  rw [h.trim.2, hright]
  cases hview : s.view with
  | nil => rfl
  | cons c cs =>
    rw [List.dropWhile_cons_of_neg]
    simp [hspace c (by rw [hview]; exact List.mem_cons_self)]

private theorem views_splitLoop {s : StringPiece} (h : s.InBuffer) (sep : UInt8)
    {cursor p : Nat} (hcp : cursor ≤ p) (hp : p ≤ s.length) :
    (∀ piece ∈ s.splitLoop sep cursor p, piece.InBuffer) ∧
    (s.splitLoop sep cursor p).map view =
      ((s.view.drop p).splitOn sep).modifyHead ((s.view.drop cursor).take (p - cursor) ++ ·) := by
  have hlen := length_view h
  -- the piece begun at `cursor` has been read up to `p`
  fun_induction splitLoop s sep cursor p with
  | case1 cursor p hlt hsep ih =>
    obtain ⟨hin, hviews⟩ := ih le_rfl hlt
    have hdrop : s.view.drop p = sep :: s.view.drop (p + 1) := by
      rw [List.drop_eq_getElem_cons (by omega)]
      congr 1
      rw [← hsep, get, List.getD_eq_getElem?_getD]
      simp only [view, List.getElem_take]
      rw [List.getElem?_eq_getElem (lt_of_lt_of_le hlt h)]
      rfl
    refine ⟨?_, ?_⟩
    · rintro piece hpiece
      rcases List.mem_cons.mp hpiece with rfl | hpiece
      · exact h.sub (by omega)
      · exact hin piece hpiece
    · rw [List.map_cons, hviews, view_sub (by omega), hdrop,
        List.splitOn_cons_eq_if_modifyHead]
      simp only [beq_self_eq_true, if_true, Nat.sub_self, List.take_zero, List.nil_append,
        List.modifyHead_cons, List.append_nil]
      congr 1
      cases (s.view.drop (p + 1)).splitOn sep <;> rfl
  | case2 cursor p hlt hsep ih =>
    obtain ⟨hin, hviews⟩ := ih (by omega) hlt
    refine ⟨hin, ?_⟩
    have hpt : p < s.view.length := by omega
    have hget : s.view[p] ≠ sep := by
      intro heq
      apply hsep
      rw [← heq, get, List.getD_eq_getElem?_getD,
        List.getElem?_eq_getElem (lt_of_lt_of_le hlt h)]
      simp [view]
    have htake : (s.view.drop cursor).take (p + 1 - cursor) =
        (s.view.drop cursor).take (p - cursor) ++ [s.view[p]] := by
      rw [show p + 1 - cursor = (p - cursor) + 1 by omega, List.take_add_one,
        List.getElem?_drop, show cursor + (p - cursor) = p by omega,
        List.getElem?_eq_getElem hpt]
      rfl
    rw [hviews, List.drop_eq_getElem_cons hpt, List.splitOn_cons_eq_if_modifyHead,
      if_neg (by simpa using hget), htake]
    cases (s.view.drop (p + 1)).splitOn sep <;> simp
  | case3 cursor p hlt =>
    obtain rfl : p = s.length := by omega
    refine ⟨?_, ?_⟩
    · rintro piece hpiece
      obtain rfl := List.mem_singleton.mp hpiece
      exact h.sub (by omega)
    · have hnil : s.view.drop s.length = [] := List.drop_of_length_le (by omega)
      rw [List.map_singleton, view_sub (by omega), hnil]
      simp

/-- The pieces are those between the separators. -/
theorem InBuffer.splitPiece {s : StringPiece} (h : s.InBuffer) (hne : s.view ≠ [])
    (sep : UInt8) :
    (∀ piece ∈ s.splitPiece sep, piece.InBuffer) ∧
      (s.splitPiece sep).map view = s.view.splitOn sep := by
  have hlen : s.length ≠ 0 := by
    rw [← length_view h]
    exact fun h0 => hne (List.length_eq_zero_iff.mp h0)
  have := views_splitLoop h sep (le_refl 0) (Nat.zero_le _)
  unfold StringPiece.splitPiece
  rw [if_neg hlen]
  refine ⟨this.1, this.2.trans ?_⟩
  rw [List.drop_zero]
  generalize s.view.splitOn sep = pieces
  cases pieces <;> simp

/-- The view stays, or it begins with a quote and is shortened at both ends. -/
theorem trimPairs_cases (before : UInt8) (str : StringPiece) (pairs : Bytes) :
    trimPairs before str pairs = str ∨
      (trimPairs before str pairs = ⟨str.ptr.drop 1, sizeSub str.length 2⟩ ∧
        ∃ rhs, isPair (str.get 0) rhs pairs = true) := by
  unfold trimPairs
  dsimp only
  generalize (if str.length = 0 then before else str.get (str.length - 1)) = rhs
  by_cases hpair : isPair (str.get 0) rhs pairs = true
  · exact Or.inr ⟨if_pos hpair, rhs, hpair⟩
  · exact Or.inl (if_neg hpair)

/-- A view in double quotes loses them. -/
theorem InBuffer.trimPairs_quoted {s : StringPiece} (h : s.InBuffer) {inner : Bytes}
    (hview : s.view = dquote :: inner ++ [dquote]) (before : UInt8) (pairs : Bytes) :
    (trimPairs before s (dquote :: dquote :: pairs)).InBuffer ∧
      (trimPairs before s (dquote :: dquote :: pairs)).view = inner := by
  have hlen : s.length = inner.length + 2 := by
    rw [← length_view h, hview]
    simp
  have hget : ∀ i (hi : i < s.length), s.get i = s.view.getD i 0 := by
    intro i hi
    rw [get, List.getD_eq_getElem?_getD, List.getD_eq_getElem?_getD, view, List.getElem?_take,
      if_pos hi]
  have hlhs : s.get 0 = dquote := by
    rw [hget 0 (by omega), hview]
    rfl
  have hrhs : s.get (s.length - 1) = dquote := by
    rw [hget _ (by omega), hview, hlen, List.getD_eq_getElem?_getD]
    simp
  have heq : trimPairs before s (dquote :: dquote :: pairs) = s.sub 1 inner.length := by
    have h0 : s.length ≠ 0 := by omega
    simp only [trimPairs, hlhs, if_neg h0, hrhs, isPair, and_self, decide_true, Bool.true_or,
      if_true]
    rw [hlen, sizeSub_of_le (by omega)]
    rfl
  have hle : 1 + inner.length ≤ s.length := by omega
  rw [heq]
  refine ⟨h.sub hle, ?_⟩
  rw [view_sub hle, hview]
  simp

end StringPiece

end Wfrest
