import Wfrest.Base.StrUtil
import Wfrest.Lib.OrdMap

/-!
# `UriUtil`

The query string as a map. The first value of a key stays; what follows a second
`=` in an element is not looked at.
-/

namespace Wfrest

/-- `&` -/
def ampersand : UInt8 := 38

namespace UriUtil

/-- One round of the loop of `split_query`. -/
def addElement (res : List (Bytes × Bytes)) (ele : StringPiece) : List (Bytes × Bytes) :=
  match (ele.splitPiece equals).map StringPiece.view with
  -- only an empty element has no pieces, and the loop skips it
  | [] => res
  | key :: kv =>
    if key = [] ∨ (OrdMap.get? key res).isSome then res
    else OrdMap.insert key (kv.headD []) res

/-- `UriUtil::split_query` -/
def splitQuery (query : StringPiece) : List (Bytes × Bytes) :=
  (query.splitPiece ampersand).foldl addElement []

/-- Key and value of an element: what stands in front of the first `=`, and what stands
between it and the next one. -/
def field (ele : Bytes) : Bytes × Bytes :=
  (ele.takeWhile (· ≠ equals), (ele.dropWhile (· ≠ equals)).tail.takeWhile (· ≠ equals))

/-- The fields of a query, with repeated keys. -/
def fields (query : Bytes) : List (Bytes × Bytes) :=
  ((query.splitOn ampersand).map field).filter (·.1 ≠ [])

/-- The first piece, and the pieces of what follows the first separator. -/
theorem splitOn_eq_cons (l : Bytes) (sep : UInt8) :
    l.splitOn sep = l.takeWhile (· ≠ sep) ::
      if sep ∈ l then (l.dropWhile (· ≠ sep)).tail.splitOn sep else [] := by
  induction l with
  | nil => rfl
  | cons c l ih =>
    rw [List.splitOn_cons_eq_if_modifyHead]
    by_cases hc : c = sep
    · subst hc
      simp
    · rw [if_neg (by simpa using hc), ih]
      have hmem : sep ∈ c :: l ↔ sep ∈ l := by
        rw [List.mem_cons]
        exact or_iff_right fun h => hc h.symm
      simp [hc, hmem]

/-- A text is cut at its first `=`, if it has one. -/
theorem takeWhile_eq_self_iff (v : Bytes) : v.takeWhile (· ≠ equals) = v ↔ equals ∉ v := by
  rw [List.takeWhile_eq_self_iff]
  constructor
  · intro h hmem
    simpa using h equals hmem
  · intro h b hb
    simpa using fun heq : b = equals => h (heq ▸ hb)

/-- The first two pieces of an element. -/
theorem splitOn_equals (ele : Bytes) :
    ∃ kv, ele.splitOn equals = (field ele).1 :: kv ∧ kv.headD [] = (field ele).2 := by
  refine ⟨_, splitOn_eq_cons ele equals, ?_⟩
  unfold field
  by_cases hmem : equals ∈ ele
  · rw [if_pos hmem, splitOn_eq_cons]
    rfl
  · have hall : ele.dropWhile (· ≠ equals) = [] := by
      rw [List.dropWhile_eq_nil_iff]
      intro c hc
      have hne : c ≠ equals := fun h => hmem (h ▸ hc)
      simpa using hne
    rw [if_neg hmem, hall]
    rfl

theorem addElement_eq {ele : StringPiece} (h : ele.InBuffer) (res : List (Bytes × Bytes)) :
    addElement res ele =
      if (field ele.view).1 = [] then res
      else OrdMap.insert (field ele.view).1 (field ele.view).2 res := by
  unfold addElement
  by_cases hne : ele.view = []
  · have hlen : ele.length = 0 := by
      rw [← StringPiece.length_view h, hne]
      rfl
    rw [hne, StringPiece.splitPiece, if_pos hlen]
    rfl
  · obtain ⟨kv, hkv, hval⟩ := splitOn_equals ele.view
    rw [(h.splitPiece hne equals).2, hkv]
    dsimp only
    rw [hval]
    by_cases hkey : (field ele.view).1 = []
    · rw [if_pos (Or.inl hkey), if_pos hkey]
    · rw [if_neg hkey, OrdMap.insert]
      by_cases hin : (OrdMap.get? (field ele.view).1 res).isSome
      · rw [if_pos (Or.inr hin), if_pos hin]
      · rw [if_neg (not_or.mpr ⟨hkey, hin⟩)]

theorem foldl_addElement {arr : List StringPiece} (h : ∀ ele ∈ arr, ele.InBuffer)
    (res : List (Bytes × Bytes)) :
    arr.foldl addElement res =
      (((arr.map StringPiece.view).map field).filter (·.1 ≠ [])).foldl
        (fun m e => OrdMap.insert e.1 e.2 m) res := by
  induction arr generalizing res with
  | nil => rfl
  | cons ele arr ih =>
    have hrest := ih fun e he => h e (List.mem_cons_of_mem _ he)
    rw [List.foldl_cons, addElement_eq (h ele List.mem_cons_self), hrest, List.map_cons,
      List.map_cons]
    by_cases hkey : (field ele.view).1 = []
    · rw [if_pos hkey, List.filter_cons_of_neg (by simpa using hkey)]
    · rw [if_neg hkey, List.filter_cons_of_pos (by simpa using hkey)]
      rfl

/-- `split_query` is the map of the fields of its query. -/
theorem splitQuery_eq {query : StringPiece} (h : query.InBuffer) :
    splitQuery query = OrdMap.ofEntries (fields query.view) := by
  by_cases hne : query.view = []
  · have hlen : query.length = 0 := by
      rw [← StringPiece.length_view h, hne]
      rfl
    rw [hne, splitQuery, StringPiece.splitPiece, if_pos hlen]
    rfl
  · obtain ⟨hin, hviews⟩ := h.splitPiece hne ampersand
    rw [splitQuery, foldl_addElement hin, hviews]
    rfl

end UriUtil

end Wfrest
