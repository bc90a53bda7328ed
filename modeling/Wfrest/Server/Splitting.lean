import Wfrest.Form.Urlencode
import Wfrest.Lib.Lines
import Wfrest.Server.Cookie

/-!
# Splitting loses nothing

`StrUtil::split_piece` gives all of a view: one piece more than there are separators, none
of them with a separator in it, and together the view (`StringPiece.Lossless`).

Three parsers cut an element at its `=` and take `kv[0]`, and `kv[1]` unless `kv` has one
piece, with the `operator[]` of a vector, which does not look at the size. Here they are once
more with accesses that fail out of range. They never do, because they skip the empty elements,
which alone have no pieces (`splitting`).
-/

namespace Wfrest

namespace StringPiece

/-- The pieces are what stands between the separators. -/
structure Lossless (s : StringPiece) (sep : UInt8) : Prop where
  length_eq : (s.splitPiece sep).length = s.view.count sep + 1
  sep_notMem : ∀ piece ∈ s.splitPiece sep, sep ∉ piece.view
  join_eq : [sep].intercalate ((s.splitPiece sep).map view) = s.view
  /-- `split_piece<std::string>` makes strings of them. -/
  asString_eq : ∀ piece ∈ s.splitPiece sep, piece.asString = .ok piece.view

theorem lossless_of_inBuffer {s : StringPiece} (h : s.InBuffer) (hlen : s.length ≠ 0)
    (sep : UInt8) : Lossless s sep := by
  have hne : s.view ≠ [] := by
    intro hnil
    rw [← length_view h, hnil] at hlen
    exact hlen rfl
  obtain ⟨hin, hviews⟩ := h.splitPiece hne sep
  constructor
  · rw [← List.length_map view, hviews, Lines.length_splitOn]
  · intro piece hpiece
    refine Lines.notMem_of_mem_splitOn (l := s.view) ?_
    rw [← hviews]
    exact List.mem_map_of_mem hpiece
  · rw [hviews, List.intercalate_splitOn]
  · intro piece hpiece
    exact (hin piece hpiece).asString

theorem splitLoop_ne_nil (s : StringPiece) (sep : UInt8) (cursor p : Nat) :
    s.splitLoop sep cursor p ≠ [] := by
  fun_induction splitLoop s sep cursor p with
  | case1 cursor p hlt hsep ih => exact List.cons_ne_nil _ _
  | case2 cursor p hlt hsep ih => exact ih
  | case3 cursor p hlt => exact List.cons_ne_nil _ _

/-- A view that is not empty has a first piece, wherever it lies. -/
theorem exists_splitPiece {s : StringPiece} (hlen : s.length ≠ 0) (sep : UInt8) :
    ∃ piece pieces, s.splitPiece sep = piece :: pieces := by
  rw [splitPiece, if_neg hlen]
  exact List.exists_cons_of_ne_nil (s.splitLoop_ne_nil sep 0 0)

end StringPiece

/-! ### The accesses to the pieces -/

/-- One round of the loops of `split_query` and `parse_post_kv`: `none` if an access to `kv`
is out of range. -/
def kvRound (res : List (Bytes × Bytes)) (ele : StringPiece) : Option (List (Bytes × Bytes)) :=
  if ele.length = 0 then some res
  else
    let kv := (ele.splitPiece equals).map StringPiece.view
    kv[0]?.bind fun key =>
      if key = [] ∨ (OrdMap.get? key res).isSome then some res
      else if kv.length = 1 then some (OrdMap.insert key [] res)
      else kv[1]?.map fun val => OrdMap.insert key (if val = [] then [] else val) res

/-- `UriUtil::split_query`, with checked accesses. -/
def UriUtil.splitQuery? (query : StringPiece) : Option (List (Bytes × Bytes)) :=
  if query.length = 0 then some [] else (query.splitPiece ampersand).foldlM kvRound []

/-- `Urlencode::parse_post_kv`, with checked accesses. -/
def Urlencode.parsePostKv? (body : StringPiece) : Option (List (Bytes × Bytes)) :=
  if body.length = 0 then some [] else (body.splitPiece ampersand).foldlM kvRound []

namespace HttpCookie

/-- One round of the loop of `HttpCookie::split`. -/
def pieceRound (pieceRes : List (Bytes × Bytes)) (ele : StringPiece) :
    Option (List (Bytes × Bytes)) :=
  if ele.length = 0 then some pieceRes
  else
    let kv := ele.splitPiece equals
    kv[0]?.bind fun key =>
      if key.length = 0 ∨ (OrdMap.get? key.view pieceRes).isSome then some pieceRes
      else if kv.length = 1 then some (OrdMap.insert key.trim.view [] pieceRes)
      else kv[1]?.map fun val =>
        if val.length = 0 then OrdMap.insert key.trim.view [] pieceRes
        else OrdMap.insert key.trim.view val.trim.view pieceRes

/-- `HttpCookie::split`, with checked accesses. -/
def split? (cookiePiece : StringPiece) : Option (List (Bytes × Bytes)) :=
  if cookiePiece.length = 0 then some [] else (cookiePiece.splitPiece comma).foldlM pieceRound []

end HttpCookie

/-- **A round stays in range.** -/
theorem kvRound_eq (res : List (Bytes × Bytes)) (ele : StringPiece) :
    kvRound res ele = some (Urlencode.addElement res ele) := by
  unfold kvRound Urlencode.addElement
  by_cases hlen : ele.length = 0
  · rw [if_pos hlen, if_pos hlen]
  · obtain ⟨key, kv, hkv⟩ := StringPiece.exists_splitPiece hlen equals
    rw [if_neg hlen, if_neg hlen, hkv, List.map_cons]
    simp only [List.getElem?_cons_zero, Option.bind_some, List.headD_cons]
    by_cases hseen : key.view = [] ∨ (OrdMap.get? key.view res).isSome
    · rw [if_pos hseen]
      exact congrArg some (if_pos hseen).symm
    · rw [if_neg hseen]
      refine Eq.trans ?_ (congrArg some (if_neg hseen).symm)
      cases kv with
      | nil => rfl
      | cons val kv =>
        -- there are two pieces at least
        have hval : (if val.view = [] then [] else val.view) = val.view := by
          split_ifs with hnil
          · exact hnil.symm
          · rfl
        simp [hval]

theorem HttpCookie.pieceRound_eq (pieceRes : List (Bytes × Bytes)) (ele : StringPiece) :
    pieceRound pieceRes ele = some (addPiece pieceRes ele) := by
  unfold pieceRound addPiece
  by_cases hlen : ele.length = 0
  · rw [if_pos hlen, if_pos hlen]
  · obtain ⟨key, kv, hkv⟩ := StringPiece.exists_splitPiece hlen equals
    rw [if_neg hlen, if_neg hlen, hkv]
    simp only [List.getElem?_cons_zero, Option.bind_some, List.headD_cons]
    by_cases hseen : key.length = 0 ∨ (OrdMap.get? key.view pieceRes).isSome
    · rw [if_pos hseen]
      exact congrArg some (if_pos hseen).symm
    · rw [if_neg hseen]
      refine Eq.trans ?_ (congrArg some (if_neg hseen).symm)
      cases kv with
      | nil => rfl
      | cons val kv => simp

/-- Rounds that all stay in range make a run that does. -/
theorem foldlM_eq_some {σ α : Type*} {f : σ → α → Option σ} {g : σ → α → σ}
    (h : ∀ s a, f s a = some (g s a)) (s : σ) (as : List α) :
    as.foldlM f s = some (as.foldl g s) := by
  induction as generalizing s with
  | nil => rfl
  | cons a as ih =>
    rw [List.foldlM_cons, h]
    exact ih (g s a)

/-- The three parsers index no piece that is not there. -/
structure InRange (text : StringPiece) : Prop where
  splitQuery : UriUtil.splitQuery? text = some (UriUtil.splitQuery text)
  parsePostKv : Urlencode.parsePostKv? text = some (Urlencode.parsePostKv text)
  split : HttpCookie.split? text = some (HttpCookie.split text)

theorem inRange (text : StringPiece) : InRange text := by
  have hpost : Urlencode.parsePostKv? text = some (Urlencode.parsePostKv text) := by
    unfold Urlencode.parsePostKv? Urlencode.parsePostKv
    split_ifs
    · rfl
    · exact foldlM_eq_some kvRound_eq _ _
  refine ⟨?_, hpost, ?_⟩
  · rw [← Urlencode.parsePostKv_eq]
    exact hpost
  · unfold HttpCookie.split? HttpCookie.split
    split_ifs
    · rfl
    · exact foldlM_eq_some HttpCookie.pieceRound_eq _ _

/-- **Splitting loses nothing**, so the parsers that rely on it stay in range whatever the
client sends. -/
theorem splitting :
    (∀ s : StringPiece, s.InBuffer → s.length ≠ 0 → ∀ sep, s.Lossless sep) ∧
      ∀ text, InRange text :=
  ⟨fun _ h hlen sep => StringPiece.lossless_of_inBuffer h hlen sep, inRange⟩

/-- Leading, adjacent and trailing separators. -/
theorem splitting_separators :
    (StringPiece.ofString (ascii "=a==b=")).Lossless equals ∧
      InRange (StringPiece.ofString (ascii "=a==b=")) :=
  ⟨splitting.1 _ (StringPiece.inBuffer_ofString _) (by decide) equals, splitting.2 _⟩

end Wfrest
