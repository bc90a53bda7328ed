import Wfrest.Base.UriUtil

/-!
# `Urlencode`

The body of a form post as a map. `parse_post_kv` is a second copy of the loop of
`split_query`; `parsePostKv_eq` says that the two agree.

A list of pairs with fit names is written as `k1=v1&k2=v2&...` (`Params.serialize`). What
comes back is the list with every value cut at its first `=`, so it is the list that was
written exactly when no value holds one (`parse_serialize_iff`).
-/

namespace Wfrest

namespace Urlencode

/-- One round of the loop of `parse_post_kv`. -/
def addElement (map : List (Bytes × Bytes)) (ele : StringPiece) : List (Bytes × Bytes) :=
  if ele.length = 0 then map
  else
    let kv := (ele.splitPiece equals).map StringPiece.view
    let key := kv.headD []
    if key = [] ∨ (OrdMap.get? key map).isSome then map
    else if kv.length = 1 then OrdMap.insert key [] map
    -- an empty `kv[1]` and a filled one are both put in as they are
    else OrdMap.insert key (kv.getD 1 []) map

/-- `Urlencode::parse_post_kv` -/
def parsePostKv (body : StringPiece) : List (Bytes × Bytes) :=
  if body.length = 0 then [] else (body.splitPiece ampersand).foldl addElement []

theorem addElement_eq (map : List (Bytes × Bytes)) (ele : StringPiece) :
    addElement map ele = UriUtil.addElement map ele := by
  unfold addElement UriUtil.addElement
  by_cases hlen : ele.length = 0
  · rw [if_pos hlen, StringPiece.splitPiece, if_pos hlen]
    rfl
  · rw [if_neg hlen]
    -- the two loops name the cases of `kv` differently
    cases hkv : (ele.splitPiece equals).map StringPiece.view with
    | nil => exact if_pos (Or.inl rfl)
    | cons key kv =>
      dsimp only [List.headD_cons]
      refine if_congr Iff.rfl rfl ?_
      cases kv with
      | nil => rfl
      | cons val kv => exact if_neg (by simp)

/-- The two copies of the loop agree. -/
theorem parsePostKv_eq (body : StringPiece) : parsePostKv body = UriUtil.splitQuery body := by
  have hround : addElement = UriUtil.addElement := funext fun m => funext (addElement_eq m)
  unfold parsePostKv UriUtil.splitQuery
  rw [hround]
  by_cases hlen : body.length = 0
  · rw [if_pos hlen, StringPiece.splitPiece, if_pos hlen]
    rfl
  · rw [if_neg hlen]

/-! ### Writing a list of pairs -/

/-- The pairs of a query or of a form: names that are distinct and not empty, and no
separator where the text would be cut. -/
structure Params where
  pairs : List (Bytes × Bytes)
  nodup : (pairs.map Prod.fst).Nodup
  key_ne_nil : ∀ p ∈ pairs, p.1 ≠ []
  ampersand_notMem : ∀ p ∈ pairs, ampersand ∉ p.1 ∧ ampersand ∉ p.2
  equals_notMem : ∀ p ∈ pairs, equals ∉ p.1

namespace Params

/-- `k=v` -/
def element (p : Bytes × Bytes) : Bytes := p.1 ++ equals :: p.2

/-- `k1=v1&k2=v2&...` -/
def serialize (params : Params) : Bytes := [ampersand].intercalate (params.pairs.map element)

/-- A pair as it is read back. -/
def cut (p : Bytes × Bytes) : Bytes × Bytes := (p.1, p.2.takeWhile (· ≠ equals))

theorem field_element {p : Bytes × Bytes} (h : equals ∉ p.1) :
    UriUtil.field (element p) = cut p := by
  have hall : ∀ b ∈ p.1, (decide (b ≠ equals)) = true := fun b hb => by
    simpa using fun heq : b = equals => h (heq ▸ hb)
  unfold UriUtil.field element cut
  rw [List.takeWhile_append_of_pos hall, List.dropWhile_append_of_pos hall]
  simp

/-- The fields of the text are the pairs, cut. -/
theorem fields_serialize (params : Params) :
    UriUtil.fields params.serialize = params.pairs.map cut := by
  by_cases hnil : params.pairs = []
  · unfold serialize
    rw [hnil]
    rfl
  -- no element holds an `&`, so splitting at them gives the elements back
  · have helem : ∀ l ∈ params.pairs.map element, ampersand ∉ l := by
      intro l hl hmem
      obtain ⟨p, hp, rfl⟩ := List.mem_map.mp hl
      have hamp := params.ampersand_notMem p hp
      rcases List.mem_append.mp hmem with hkey | hval
      · exact hamp.1 hkey
      · rcases List.mem_cons.mp hval with heq | hval
        · exact absurd heq (by decide)
        · exact hamp.2 hval
    have hfield : (params.pairs.map element).map UriUtil.field = params.pairs.map cut := by
      rw [List.map_map]
      exact List.map_congr_left fun p hp => field_element (params.equals_notMem p hp)
    unfold UriUtil.fields serialize
    rw [List.splitOn_intercalate ampersand helem (by simpa using hnil), hfield,
      List.filter_eq_self]
    rintro e he
    obtain ⟨p, hp, rfl⟩ := List.mem_map.mp he
    have hkey : (cut p).1 ≠ [] := params.key_ne_nil p hp
    simpa using hkey

/-- What `split_query` makes of the text. -/
theorem splitQuery_serialize (params : Params) :
    UriUtil.splitQuery (StringPiece.ofString params.serialize) =
      OrdMap.ofEntries (params.pairs.map cut) := by
  rw [UriUtil.splitQuery_eq (StringPiece.inBuffer_ofString _), StringPiece.view_ofString,
    fields_serialize]

/-- The cut map is the map of the pairs when no value has been cut. -/
theorem ofEntries_cut_iff (params : Params) :
    OrdMap.ofEntries (params.pairs.map cut) = OrdMap.ofEntries params.pairs ↔
      ∀ p ∈ params.pairs, equals ∉ p.2 := by
  constructor
  · intro h p hp
    -- the two maps differ under the name of a pair whose value was cut
    have hget := congrArg (OrdMap.get? p.1) h
    rw [OrdMap.get?_ofEntries, OrdMap.get?_ofEntries] at hget
    have hval : OrdMap.get? p.1 params.pairs = some p.2 :=
      OrdMap.get?_eq_some_of_nodup params.nodup hp
    have hcut : OrdMap.get? p.1 (params.pairs.map cut) = some (p.2.takeWhile (· ≠ equals)) := by
      have hmap := OrdMap.get?_map (List.takeWhile (· ≠ equals)) p.1 params.pairs
      rw [hval] at hmap
      exact hmap
    rw [hcut, hval] at hget
    exact (UriUtil.takeWhile_eq_self_iff p.2).mp (Option.some.inj hget)
  · intro h
    have hself : params.pairs.map cut = params.pairs := by
      rw [List.map_congr_left (g := id) fun p hp => ?_, List.map_id]
      have hval := (UriUtil.takeWhile_eq_self_iff p.2).mpr (h p hp)
      exact Prod.ext rfl hval
    rw [hself]

end Params

/-- **Reading back what was written.** Both parsers give the map of the pairs exactly when
no value holds a `=`. On every text they agree, no name is empty, and a name has the value
of its first field. -/
theorem parse_serialize_iff (params : Params) (text : Bytes) :
    (UriUtil.splitQuery (StringPiece.ofString params.serialize) =
          OrdMap.ofEntries params.pairs ∧
        parsePostKv (StringPiece.ofString params.serialize) = OrdMap.ofEntries params.pairs ↔
      ∀ p ∈ params.pairs, equals ∉ p.2) ∧
    parsePostKv (StringPiece.ofString text) = UriUtil.splitQuery (StringPiece.ofString text) ∧
    (UriUtil.splitQuery (StringPiece.ofString text)).Pairwise (fun a b => a.1 < b.1) ∧
    ∀ key, OrdMap.get? key (UriUtil.splitQuery (StringPiece.ofString text)) =
      if key = [] then none
      else OrdMap.get? key ((text.splitOn ampersand).map UriUtil.field) := by
  refine ⟨?_, parsePostKv_eq _, ?_, fun key => ?_⟩
  · rw [parsePostKv_eq, params.splitQuery_serialize, and_self]
    exact params.ofEntries_cut_iff
  · rw [UriUtil.splitQuery_eq (StringPiece.inBuffer_ofString text)]
    exact OrdMap.sorted_ofEntries _
  · rw [UriUtil.splitQuery_eq (StringPiece.inBuffer_ofString text), StringPiece.view_ofString,
      OrdMap.get?_ofEntries, UriUtil.fields]
    -- a field without a name is filtered out before the map is filled
    have hfilter := OrdMap.get?_filter (fun k : Bytes => decide (k ≠ [])) key
      ((text.splitOn ampersand).map UriUtil.field)
    rw [hfilter]
    by_cases hkey : key = []
    · simp [hkey]
    · simp [hkey]

/-- `k=YQ==`, a value padded in base64. -/
def padded : Params where
  pairs := [(ascii "k", ascii "YQ==")]
  nodup := by decide
  key_ne_nil := by decide
  ampersand_notMem := by decide
  equals_notMem := by decide

/-- The padding is lost. -/
theorem parse_padded :
    ¬ ∀ params : Params,
      UriUtil.splitQuery (StringPiece.ofString params.serialize) =
          OrdMap.ofEntries params.pairs ∧
        parsePostKv (StringPiece.ofString params.serialize) = OrdMap.ofEntries params.pairs := by
  intro h
  have hpadded := (h padded).1
  rw [Params.splitQuery_serialize] at hpadded
  exact absurd hpadded (by decide)

end Urlencode

end Wfrest
