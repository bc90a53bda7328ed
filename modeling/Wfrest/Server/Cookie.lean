import Wfrest.Base.UriUtil

/-!
# The `Cookie` header

`HttpCookie::split` cuts the header at its commas, and every element at its `=`. Clients
separate their cookies by `; `, as `HttpCookie::dump` does with the attributes, so all of
their header is one element: its name is the first cookie's, and its value ends at the
second `=` (`allSeen_iff`).
-/

namespace Wfrest

open StringPiece

namespace HttpCookie

/-- One round of the loop of `split`. The views in `piece_res` are kept as the strings that
they are in the result. -/
def addPiece (pieceRes : List (Bytes × Bytes)) (ele : StringPiece) : List (Bytes × Bytes) :=
  if ele.length = 0 then pieceRes
  else
    let kv := ele.splitPiece equals
    let key := kv.headD empty
    if key.length = 0 ∨ (OrdMap.get? key.view pieceRes).isSome then pieceRes
    else if kv.length = 1 then OrdMap.insert key.trim.view [] pieceRes
    else
      let val := kv.getD 1 empty
      if val.length = 0 then OrdMap.insert key.trim.view [] pieceRes
      else OrdMap.insert key.trim.view val.trim.view pieceRes

/-- `HttpCookie::split` -/
def split (cookiePiece : StringPiece) : List (Bytes × Bytes) :=
  if cookiePiece.length = 0 then [] else (cookiePiece.splitPiece comma).foldl addPiece []

/-! ### What clients send -/

/-- A byte of a token. -/
def IsTokenByte (c : UInt8) : Prop :=
  (97 ≤ c ∧ c ≤ 122) ∨ (65 ≤ c ∧ c ≤ 90) ∨ (48 ≤ c ∧ c ≤ 57) ∨
    (ascii "!#$%&'*+-.^_`|~").contains c = true

/-- A byte of a cookie value: neither a control character, white space, a quote, a comma,
a semicolon nor a backslash. -/
def IsCookieOctet (c : UInt8) : Prop :=
  c = 33 ∨ (35 ≤ c ∧ c ≤ 43) ∨ (45 ≤ c ∧ c ≤ 58) ∨ (60 ≤ c ∧ c ≤ 91) ∨ (93 ≤ c ∧ c ≤ 126)

instance : DecidablePred IsTokenByte := fun c => by unfold IsTokenByte; infer_instance

instance : DecidablePred IsCookieOctet := fun c => by unfold IsCookieOctet; infer_instance

/-- The cookies of a request. -/
structure Cookies where
  pairs : List (Bytes × Bytes)
  ne_nil : pairs ≠ []
  nodup : (pairs.map Prod.fst).Nodup
  name_ne_nil : ∀ p ∈ pairs, p.1 ≠ []
  name_ok : ∀ p ∈ pairs, ∀ c ∈ p.1, IsTokenByte c
  value_ok : ∀ p ∈ pairs, ∀ c ∈ p.2, IsCookieOctet c

namespace Cookies

/-- `n=v` -/
def cookieText (p : Bytes × Bytes) : Bytes := p.1 ++ equals :: p.2

/-- `n1=v1; n2=v2; ...` -/
def header (cs : Cookies) : Bytes := (ascii "; ").intercalate (cs.pairs.map cookieText)

/-- All names with their values. -/
def AllSeen (cs : Cookies) : Prop := split (ofString cs.header) = OrdMap.ofEntries cs.pairs

theorem tokenByte_spec {c : UInt8} (h : IsTokenByte c) :
    c ≠ comma ∧ c ≠ equals ∧ isspace c = false := by
  revert c
  apply forall_byte
  decide +kernel

theorem cookieOctet_spec {c : UInt8} (h : IsCookieOctet c) : c ≠ comma ∧ isspace c = false := by
  revert c
  apply forall_byte
  decide +kernel

variable (cs : Cookies)

/-- The header begins with the first name and a `=`. -/
theorem header_eq {p : Bytes × Bytes} {ps : List (Bytes × Bytes)} (h : cs.pairs = p :: ps) :
    ∃ tail, cs.header = p.1 ++ equals :: (p.2 ++ tail) ∧ (ps = [] → tail = []) := by
  unfold header
  rw [h, List.map_cons]
  cases ps with
  | nil => exact ⟨[], by simp [cookieText], fun _ => rfl⟩
  | cons q qs =>
    refine ⟨ascii "; " ++ (ascii "; ").intercalate ((q :: qs).map cookieText), ?_, nofun⟩
    rw [List.map_cons, List.intercalate_cons_cons]
    simp [cookieText]

theorem comma_notMem_header : comma ∉ cs.header := by
  have htext : ∀ l ∈ cs.pairs.map cookieText, comma ∉ l := by
    intro l hl hmem
    obtain ⟨p, hp, rfl⟩ := List.mem_map.mp hl
    rcases List.mem_append.mp hmem with hname | hvalue
    · exact (tokenByte_spec (cs.name_ok p hp _ hname)).1 rfl
    · rcases List.mem_cons.mp hvalue with heq | hvalue
      · exact absurd heq (by decide)
      · exact (cookieOctet_spec (cs.value_ok p hp _ hvalue)).1 rfl
  unfold header
  generalize cs.pairs.map cookieText = texts at htext
  have hsep : comma ∉ ascii "; " := by decide
  induction texts with
  | nil => exact List.not_mem_nil
  | cons l ls ih =>
    have hl := htext l List.mem_cons_self
    cases ls with
    | nil =>
      rw [List.intercalate_singleton]
      exact hl
    | cons l' ls =>
      rw [List.intercalate_cons_cons, List.mem_append, List.mem_append, not_or, not_or]
      exact ⟨⟨hl, hsep⟩, ih fun x hx => htext x (List.mem_cons_of_mem _ hx)⟩

/-- **What `split` makes of the header**: one entry, for the first name. -/
theorem split_header {p : Bytes × Bytes} {ps : List (Bytes × Bytes)} (h : cs.pairs = p :: ps) :
    ∃ v, split (ofString cs.header) = [(p.1, v)] ∧
      (ps = [] → v = p.2.takeWhile (· ≠ equals)) := by
  have hp : p ∈ cs.pairs := by
    rw [h]
    exact List.mem_cons_self
  obtain ⟨tail, htext, htail⟩ := cs.header_eq h
  have hname : equals ∉ p.1 := fun hmem => (tokenByte_spec (cs.name_ok p hp _ hmem)).2.1 rfl
  have hne : cs.header ≠ [] := by
    rw [htext]
    simp
  -- without a comma the header is one element
  have hsplit := (inBuffer_ofString cs.header).splitPiece (by simpa using hne) comma
  rw [view_ofString, List.splitOn_eq_singleton cs.comma_notMem_header] at hsplit
  obtain ⟨hin, hviews⟩ := hsplit
  obtain ⟨ele, hele, hview⟩ := List.map_eq_singleton_iff.mp hviews
  rw [hele] at hin
  have hein := hin ele (List.mem_singleton_self _)
  -- its pieces: the first name, and what stands up to the next `=`
  have hkv := hein.splitPiece (by rw [hview]; exact hne) equals
  rw [hview, htext, List.splitOn_append_cons_self_of_not_mem hname] at hkv
  obtain ⟨hkvin, hkviews⟩ := hkv
  rw [UriUtil.splitOn_eq_cons] at hkviews
  obtain ⟨key, rest, hs, hkey, hrest⟩ := List.map_eq_cons_iff.mp hkviews
  obtain ⟨val, rest, rfl, hval, -⟩ := List.map_eq_cons_iff.mp hrest
  have hkeyin : key.InBuffer := hkvin key (by rw [hs]; simp)
  have hvalin : val.InBuffer := hkvin val (by rw [hs]; simp)
  have hkeylen : key.length ≠ 0 := by
    rw [← length_view hkeyin, hkey]
    exact fun h0 => cs.name_ne_nil p hp (List.length_eq_zero_iff.mp h0)
  have helen : ele.length ≠ 0 := by
    rw [← length_view hein, hview]
    exact fun h0 => hne (List.length_eq_zero_iff.mp h0)
  have hhlen : (ofString cs.header).length ≠ 0 := fun h0 => hne (List.length_eq_zero_iff.mp h0)
  have htrim : key.trim.view = p.1 := by
    rw [hkeyin.trim_of_forall_not, hkey]
    intro c hc
    rw [hkey] at hc
    exact (tokenByte_spec (cs.name_ok p hp c hc)).2.2
  refine ⟨if val.length = 0 then [] else val.trim.view, ?_, fun hnil => ?_⟩
  · rw [split, if_neg hhlen, hele, List.foldl_cons, List.foldl_nil, addPiece, if_neg helen, hs]
    have hnew : ¬ (key.length = 0 ∨ (OrdMap.get? key.view ([] : List (Bytes × Bytes))).isSome) := by
      simp [hkeylen]
    have hlen : ¬ (key :: val :: rest).length = 1 := by simp
    simp only [List.headD_cons, if_neg hnew, if_neg hlen, List.getD_cons_succ,
      List.getD_cons_zero, htrim]
    split <;> rfl
  · -- with one cookie this is its value up to a `=`
    rw [htail hnil, List.append_nil] at hval
    split
    next hlen =>
      rw [← hval, ← List.length_eq_zero_iff.mp ((length_view hvalin).trans hlen)]
    · rw [hvalin.trim_of_forall_not, hval]
      intro c hc
      rw [hval] at hc
      exact (cookieOctet_spec (cs.value_ok p hp c ((List.takeWhile_prefix _).subset hc))).2

/-- **When the cookies are seen.** The map is that of all names and values if and only if
there is one cookie, and no `=` in its value. -/
theorem allSeen_iff : cs.AllSeen ↔ ∃ p, cs.pairs = [p] ∧ equals ∉ p.2 := by
  obtain ⟨p, ps, hps⟩ := List.exists_cons_of_ne_nil cs.ne_nil
  obtain ⟨v, hsplit, hv⟩ := cs.split_header hps
  have hget : ∀ q ∈ cs.pairs, OrdMap.get? q.1 (OrdMap.ofEntries cs.pairs) = some q.2 :=
    fun q hq => by
      rw [OrdMap.get?_ofEntries]
      exact OrdMap.get?_eq_some_of_nodup cs.nodup hq
  constructor
  · intro hseen
    rw [AllSeen, hsplit] at hseen
    have hnil : ps = [] := by
      by_contra hne
      obtain ⟨q, qs, rfl⟩ := List.exists_cons_of_ne_nil hne
      -- the second cookie has no entry
      have hq := hget q (by rw [hps]; simp)
      have hnodup := cs.nodup
      rw [hps] at hnodup
      have hpq : q.1 ≠ p.1 := by
        intro heq
        simp [heq] at hnodup
      rw [← hseen, OrdMap.get?_cons, if_neg hpq] at hq
      cases hq
    refine ⟨p, by rw [hps, hnil], ?_⟩
    have hp := hget p (by rw [hps]; simp)
    rw [← hseen, OrdMap.get?_cons, if_pos rfl, hv hnil] at hp
    exact (UriUtil.takeWhile_eq_self_iff p.2).mp (Option.some.inj hp)
  · rintro ⟨q, hq, hvalue⟩
    rw [hps] at hq
    obtain ⟨rfl, rfl⟩ := List.cons.inj hq
    rw [AllSeen, hsplit, hv rfl, (UriUtil.takeWhile_eq_self_iff p.2).mpr hvalue, hps]
    rfl

/-- `a=1; b=2` -/
def two : Cookies where
  pairs := [(ascii "a", ascii "1"), (ascii "b", ascii "2")]
  ne_nil := by decide
  nodup := by decide
  name_ne_nil := by decide
  name_ok := by
    simp only [List.forall_mem_cons]
    exact ⟨forall_mem_of_all (by decide), forall_mem_of_all (by decide), nofun⟩
  value_ok := by
    simp only [List.forall_mem_cons]
    exact ⟨forall_mem_of_all (by decide), forall_mem_of_all (by decide), nofun⟩

/-- The value of `a` is `1; b`, and there is no `b`. -/
theorem not_allSeen_two : ¬ ∀ cs : Cookies, cs.AllSeen := by
  intro hall
  have hsplit : split (ofString two.header) = [(ascii "a", ascii "1; b")] := by decide +kernel
  have htwo := hall two
  rw [AllSeen, hsplit] at htwo
  exact absurd htwo (by decide)

end Cookies

end HttpCookie

end Wfrest
