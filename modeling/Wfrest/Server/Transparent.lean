import Wfrest.Form.QuoteStrip
import Wfrest.Route.Selected
import Wfrest.Server.HttpServer

/-!
# `process` and the request path

`process` hands `url_encode(path)` to the router, while routes are stored as they
are written. `Transparent` says what would make this invisible: the handler of the
pattern runs, and its parameters and its match path are raw text of the request.

`process_transparent_iff` says when it is so. Encoding works segment by segment
(`reqSegs_urlEncode`), so a literal segment is found only if it is its own code, and
a parameter or a wildcard delivers codes. One byte that `url_encode` does not copy
therefore shows in any position. The rest of the condition is about the lookup of
the raw path: of the registered routes it has to select the pattern's
(`Routes.Finds`), and no branch that it gives up may leave another text behind under
a parameter's name (`Routes.Leftover`). And before all that `fill_content_type` must
not throw.
-/

namespace Wfrest

variable {H : Type}

open CodeUtil RouteTableNode

/-! ### Encoding a path -/

theorem urlEncode_slash : urlEncode [slash] = [slash] := by decide

theorem urlEncode_eq_nil_iff {p : Bytes} : urlEncode p = [] ↔ p = [] := by
  refine ⟨fun h => ?_, fun h => h ▸ urlEncode_nil⟩
  have hlen := length_le_length_urlEncode p
  rw [h] at hlen
  exact List.length_eq_zero_iff.mp (Nat.le_zero.mp hlen)

private theorem head_encodeChar_ne {c : UInt8} (hc : c ≠ slash) (s : Bytes) :
    ∃ d ds, encodeChar c ++ s = d :: ds ∧ d ≠ slash := by
  obtain ⟨d, ds, hd⟩ := List.exists_cons_of_ne_nil (encodeChar_ne_nil c)
  refine ⟨d, ds ++ s, by rw [hd]; rfl, ?_⟩
  rintro rfl
  exact slash_notMem_encodeChar hc (hd ▸ List.mem_cons_self)

theorem dropSlash_urlEncode (p : Bytes) : dropSlash (urlEncode p) = urlEncode (dropSlash p) := by
  cases p with
  | nil => rfl
  | cons c cs =>
    by_cases hc : c = slash
    · subst hc
      rw [urlEncode_cons, encodeChar_slash, List.singleton_append, dropSlash_slash_cons,
        dropSlash_slash_cons]
    · obtain ⟨d, ds, hd, hne⟩ := head_encodeChar_ne hc (urlEncode cs)
      rw [dropSlash_cons_of_ne hc, urlEncode_cons, hd, dropSlash_cons_of_ne hne]

/-- The segments of an encoded path. -/
theorem reqSegs_urlEncode (p : Bytes) : reqSegs (urlEncode p) = (reqSegs p).map urlEncode := by
  unfold reqSegs
  by_cases hp : p = []
  · rw [if_pos hp, if_pos (urlEncode_eq_nil_iff.mpr hp)]
    rfl
  · rw [if_neg hp, if_neg (mt urlEncode_eq_nil_iff.mp hp), dropSlash_urlEncode, splitOn_urlEncode]

private theorem takeWhile_urlEncode (p : Bytes) :
    (urlEncode p).takeWhile (· ≠ slash) = urlEncode (p.takeWhile (· ≠ slash)) ∧
      (urlEncode p).dropWhile (· ≠ slash) = urlEncode (p.dropWhile (· ≠ slash)) := by
  induction p with
  | nil => exact ⟨rfl, rfl⟩
  | cons c cs ih =>
    by_cases hc : c = slash
    · subst hc
      rw [urlEncode_cons, encodeChar_slash, List.singleton_append,
        List.takeWhile_cons_of_neg (by simp), List.takeWhile_cons_of_neg (by simp),
        List.dropWhile_cons_of_neg (by simp), List.dropWhile_cons_of_neg (by simp),
        urlEncode_cons, encodeChar_slash]
      exact ⟨rfl, rfl⟩
    -- the code of another byte has no slash in it
    · have hall : ∀ b ∈ encodeChar c, decide (b ≠ slash) = true := by
        intro b hb
        refine decide_eq_true ?_
        rintro rfl
        exact slash_notMem_encodeChar hc hb
      rw [urlEncode_cons, List.takeWhile_append_of_pos hall, List.dropWhile_append_of_pos hall,
        ih.1, ih.2, List.takeWhile_cons_of_pos (by simpa using hc),
        List.dropWhile_cons_of_pos (by simpa using hc), urlEncode_cons]
      exact ⟨rfl, rfl⟩

theorem tailSegs_urlEncode (p : Bytes) : tailSegs (urlEncode p) = urlEncode (tailSegs p) := by
  rw [tailSegs, dropSlash_urlEncode, (takeWhile_urlEncode _).2, tailSegs]

theorem getLast?_urlEncode_slash (p : Bytes) :
    (urlEncode p).getLast? = some slash ↔ p.getLast? = some slash := by
  induction p using List.reverseRecOn with
  | nil => simp
  | append_singleton p c =>
    rw [urlEncode_append, List.getLast?_concat]
    by_cases hc : c = slash
    · subst hc
      rw [urlEncode_slash, List.getLast?_concat]
    · have hone : urlEncode [c] = encodeChar c := by
        rw [urlEncode_cons, urlEncode_nil, List.append_nil]
      rw [List.getLast?_append_of_ne_nil _ (by rw [hone]; exact encodeChar_ne_nil c), hone]
      refine iff_of_false (fun h => ?_) (by simpa using hc)
      exact slash_notMem_encodeChar hc (List.mem_of_getLast? h)

/-- The slash that `call` cuts off is the one of the raw path. -/
theorem Router.callPath_urlEncode (p : Bytes) :
    Router.callPath (urlEncode p) = urlEncode (Router.callPath p) := by
  by_cases hlast : p.getLast? = some slash
  · obtain ⟨q, rfl⟩ : ∃ q, p = q ++ [slash] :=
      ⟨p.dropLast, (List.dropLast_append_getLast? _ hlast).symm⟩
    rw [urlEncode_append, urlEncode_slash]
    by_cases hq : q = []
    · subst hq
      rfl
    · rw [Router.callPath_concat_slash hq,
        Router.callPath_concat_slash (mt urlEncode_eq_nil_iff.mp hq)]
  · rw [Router.callPath_of_ne hlast,
      Router.callPath_of_ne (mt (getLast?_urlEncode_slash p).mp hlast)]

/-- The bytes of a path are slashes and the bytes of its segments. -/
theorem mem_path_iff {p : Bytes} {b : UInt8} (hb : b ≠ slash) :
    b ∈ p ↔ ∃ s ∈ reqSegs p, b ∈ s := by
  refine ⟨fun h => ?_, fun ⟨s, hs, h⟩ => mem_of_mem_reqSegs hs h⟩
  -- splitting at slashes loses the slashes only
  have hsplit : ∀ l : Bytes, b ∈ l → ∃ s ∈ l.splitOn slash, b ∈ s := by
    intro l
    induction l with
    | nil => simp
    | cons c l ih =>
      intro h
      obtain ⟨x, xs, hx⟩ := List.exists_cons_of_ne_nil (List.splitOn_ne_nil slash l)
      rw [List.splitOn_cons_eq_if_modifyHead, hx]
      rcases List.mem_cons.mp h with rfl | h
      · exact ⟨b :: x, by simp [hb], List.mem_cons_self⟩
      · obtain ⟨s, hs, hbs⟩ := ih h
        rw [hx] at hs
        by_cases hc : c = slash
        · exact ⟨s, by
            simp only [hc, if_true, beq_self_eq_true]; exact List.mem_cons_of_mem _ hs, hbs⟩
        · rcases List.mem_cons.mp hs with rfl | hs
          · exact ⟨c :: s, by simp [hc], List.mem_cons_of_mem c hbs⟩
          · exact ⟨s, by simp [hc, hs], hbs⟩
  cases p with
  | nil => simp at h
  | cons c cs =>
    rw [reqSegs, if_neg (List.cons_ne_nil c cs)]
    refine hsplit _ ?_
    by_cases hc : c = slash
    · subst hc
      rw [dropSlash_slash_cons]
      exact (List.mem_cons.mp h).resolve_left hb
    · rwa [dropSlash_cons_of_ne hc]

/-- Every byte is one that `url_encode` copies. -/
def Kept (s : Bytes) : Prop := ∀ b ∈ s, keeps b = true

instance (s : Bytes) : Decidable (Kept s) := inferInstanceAs (Decidable (∀ b ∈ s, keeps b = true))

/-- A path is kept iff its segments are, with or without a slash at its end. -/
theorem kept_iff_segs (p : Bytes) : Kept p ↔ ∀ s ∈ reqSegs (Router.callPath p), Kept s := by
  obtain ⟨t, hp, ht⟩ := Router.exists_eq_callPath_append p
  constructor
  · intro h s hs b hb
    refine h b ?_
    rw [hp]
    exact List.mem_append_left t (mem_of_mem_reqSegs hs hb)
  · intro h b hb
    by_cases hslash : b = slash
    · rw [hslash]
      decide
    · rw [hp, List.mem_append] at hb
      rcases hb with hb | hb
      · obtain ⟨s, hs, hbs⟩ := (mem_path_iff hslash).mp hb
        exact h s hs b hbs
      · rcases ht with rfl | rfl
        · simp at hb
        · exact absurd (List.mem_singleton.mp hb) hslash

/-- An encoded text is a parameter or wildcard key of no route. -/
theorem Kept.not_key {k : Bytes} (h : ∀ b ∈ k, keeps b = true ∨ b = percent) :
    isParam k = false ∧ isWildcard k = false := by
  have hno : ∀ b, keeps b = false → b ≠ percent → b ∉ k := fun b hb hp hmem =>
    (h b hmem).elim (fun hk => absurd hk (by simp [hb])) hp
  constructor
  · by_contra hp
    rw [Bool.not_eq_false] at hp
    unfold isParam at hp
    simp only [Bool.and_eq_true, decide_eq_true_eq] at hp
    exact hno lbrace (by decide) (by decide) (List.mem_of_head? hp.1.2)
  · by_contra hw
    rw [Bool.not_eq_false] at hw
    exact hno star (by decide) (by decide) (List.mem_of_getLast? (of_decide_eq_true hw))

namespace RouteTableNode

/-! ### The bindings under a name -/

/-- The value that a map gets under a name is that of the last binding. -/
theorem get?_bindAll_nil {ms : List Mark} {name seg : Bytes} :
    OrdMap.get? name (bindAll [] (bindingsOf ms)) = some seg ↔
      (name, seg) ∈ lastBindings (fun _ => true) ms := by
  rw [get?_bindAll]
  simp

theorem lastBindings_unique {ms : List Mark} {b b' : Bytes × Bytes}
    (hb : b ∈ lastBindings (fun _ => true) ms) (hb' : b' ∈ lastBindings (fun _ => true) ms)
    (hname : b.1 = b'.1) : b = b' := by
  have h := get?_bindAll_nil.mpr hb
  have h' := get?_bindAll_nil.mpr hb'
  rw [← hname, h, Option.some.injEq] at h'
  exact Prod.ext hname h'

/-- **The own parameters are delivered** iff no binding of an abandoned branch and
no other key of the route gives one of their names another text. -/
theorem ownParams_delivered_iff {segs keys : List Bytes} {ms : List Mark}
    (hown : ownParams keys segs = (ownSteps ms).map fun e => (e.1, e.2.2))
    (hspell : ∀ k, Mark.exact k ∈ ms → isParam k = false) :
    (∀ o ∈ ownParams keys segs, o ∈ lastBindings (fun _ => true) ms) ↔
      (∀ b ∈ survivors ms, ∀ o ∈ ownParams keys segs, o.1 = b.1 → o = b) ∧
        ∀ o ∈ ownParams keys segs, ∀ o' ∈ ownParams keys segs, o.1 = o'.1 → o = o' := by
  have hmark : ∀ o, o ∈ ownParams keys segs ↔ ∃ k, Mark.param k o.2 ∈ ms ∧ o.1 = paramName k := by
    intro o
    rw [hown, List.mem_map, ← mem_ownSteps_false]
    constructor
    · rintro ⟨⟨name, spelled, seg⟩, he, rfl⟩
      cases spelled with
      | true =>
        obtain ⟨k, hk, hp, -, -⟩ := mem_ownSteps_true.mp he
        rw [hspell k hk] at hp
        exact absurd hp (by decide)
      | false => exact he
    · exact fun he => ⟨_, he, rfl⟩
  constructor
  · intro hall
    refine ⟨fun b hb o ho hname => ?_, fun o ho o' ho' hname => ?_⟩
    · exact lastBindings_unique (hall o ho) (mem_lastBindings_true.mpr (Or.inl hb)) hname
    · exact lastBindings_unique (hall o ho) (hall o' ho') hname
  · rintro ⟨hsurv, hsame⟩ o ho
    obtain ⟨k, hk, hname⟩ := (hmark o).mp ho
    -- the name is bound, and the last binding can only be this one
    have hbind : o.1 ∈ (bindingsOf ms).map Prod.fst :=
      List.mem_map.mpr ⟨(paramName k, o.2), List.mem_filterMap.mpr ⟨_, hk, rfl⟩, hname.symm⟩
    obtain ⟨seg, hseg⟩ := exists_mem_lastBindings hbind
    have heq : o = (o.1, seg) := by
      rcases mem_lastBindings_true.mp hseg with h | h
      · exact hsurv _ h o ho rfl
      · obtain ⟨k', s, hk', hb⟩ := exists_param_of_mem h
        obtain ⟨hn, rfl⟩ := Prod.mk.inj hb
        exact hsame o ho _ ((hmark (o.1, seg)).mpr ⟨k', hk', hn⟩) rfl
    rwa [heq]

/-! ### Lookups of encoded paths -/

/-- A segment of an encoded path is a literal step. -/
theorem not_key_of_mem_encoded {v k : Bytes} (h : k ∈ reqSegs (urlEncode v)) :
    isParam k = false ∧ isWildcard k = false := by
  rw [reqSegs_urlEncode, List.mem_map] at h
  obtain ⟨s, -, rfl⟩ := h
  exact Kept.not_key fun b hb => keeps_or_percent_of_mem hb

/-- A step through the child named as the segment takes that segment. -/
theorem Follows.exact_mem {segs : List Bytes} {ms : List Mark} (h : Follows segs ms) {k : Bytes}
    (hk : Mark.exact k ∈ ms) : k ∈ segs := by
  induction h with
  | nil => simp at hk
  | dropped hmem hfol ih => exact ih (by simpa using hk)
  | exact hfol ih =>
    rcases List.mem_cons.mp hk with heq | hk
    · cases heq
      exact List.mem_cons_self
    · exact List.mem_cons_of_mem _ (ih hk)
  | param hp hfol ih => exact List.mem_cons_of_mem _ (ih (by simpa using hk))
  | wildcard hw hpre => simp at hk
  | bare => simp at hk

/-- The bindings of a trail are segments. -/
theorem Follows.seg_mem {segs : List Bytes} {ms : List Mark} (h : Follows segs ms)
    {b : Bytes × Bytes} (hb : b ∈ bindingsOf ms) : b.2 ∈ segs := by
  induction h with
  | nil => simp at hb
  | @dropped segs ms name seg hmem hfol ih =>
    rw [bindingsOf_cons] at hb
    rcases List.mem_append.mp hb with hb | hb
    · rw [show b = (name, seg) by simpa [Mark.binding?, eq_comm] using hb]
      exact hmem
    · exact ih hb
  | exact hfol ih => exact List.mem_cons_of_mem _ (ih hb)
  | param hp hfol ih =>
    rcases List.mem_cons.mp hb with rfl | hb
    · exact List.mem_cons_self
    · exact List.mem_cons_of_mem _ (ih hb)
  | wildcard hw hpre => simp at hb
  | bare => simp at hb

theorem mem_bindingsOf_of_mem_lastBindings {p : Mark → Bool} {ms : List Mark} {b : Bytes × Bytes}
    (h : b ∈ lastBindings p ms) : b ∈ bindingsOf ms := by
  induction ms with
  | nil => simp [lastBindings] at h
  | cons m ms ih =>
    rw [bindingsOf_cons, List.mem_append]
    rcases mem_lastBindings_cons.mp h with ⟨hb, -, -⟩ | h
    · exact Or.inl (by simp [hb])
    · exact Or.inr (ih h)

theorem exists_of_mem_ownParams {keys segs : List Bytes} {o : Bytes × Bytes}
    (h : o ∈ ownParams keys segs) : ∃ k ∈ keys, isParam k = true ∧ o.1 = paramName k := by
  obtain ⟨⟨k, s⟩, he, ho⟩ := List.mem_filterMap.mp h
  dsimp only at ho
  split at ho
  · next hp =>
    cases ho
    exact ⟨k, (List.of_mem_zip he).1, hp, rfl⟩
  · cases ho

/-- The name of an own parameter is bound by a trail over encoded segments. -/
private theorem name_mem_bindingsOf {v : Bytes} {segs : List Bytes} {ms : List Mark}
    (h : Follows segs ms) (hsegs : reqSegs (urlEncode v) = segs) {o : Bytes × Bytes}
    {segs' : List Bytes} (ho : o ∈ ownParams (keysOf ms) segs') :
    o.1 ∈ (bindingsOf ms).map Prod.fst := by
  obtain ⟨k, hk, hp, hname⟩ := exists_of_mem_ownParams ho
  have hmem : paramName k ∈ paramNames (keysOf ms) :=
    List.mem_map.mpr ⟨k, List.mem_filter.mpr ⟨hk, hp⟩, rfl⟩
  rw [(ownSteps_spec h).2, List.mem_map] at hmem
  obtain ⟨⟨name, spelled, seg⟩, he, heq⟩ := hmem
  rw [hname, ← heq]
  cases spelled with
  | true =>
    obtain ⟨k', hk', hp', -, -⟩ := mem_ownSteps_true.mp he
    rw [(not_key_of_mem_encoded (hsegs ▸ h.exact_mem hk')).1] at hp'
    exact absurd hp' (by decide)
  | false =>
    obtain ⟨k', hk', rfl⟩ := mem_ownSteps_false.mp he
    exact List.mem_map.mpr ⟨(paramName k', seg), List.mem_filterMap.mpr ⟨_, hk', rfl⟩, rfl⟩

/-- **Only kept segments come through.** If the lookup of an encoded path ends at a
pattern that the raw path matches, with the raw texts as parameters and match path,
then `url_encode` has changed no segment. The segments are taken from the last one
to the first: a parameter holds the code of its own segment or of a later one. -/
theorem kept_of_follows {segs : List Bytes} {ms : List Mark} (h : Follows segs ms)
    {v t : Bytes} {e : List Bytes} (hsegs : reqSegs (urlEncode v) = segs)
    (ht : t = [] ∨ t = [slash]) (hmatch : SegMatch true (reqSegs v ++ e) (keysOf ms))
    (hparams : ∀ o ∈ ownParams (keysOf ms) (reqSegs v), o ∈ lastBindings (fun _ => true) ms)
    (hcap : capturedText ms (urlEncode (v ++ t)) = matchText (keysOf ms) (v ++ t)) :
    ∀ s ∈ reqSegs v, Kept s := by
  -- the raw segments behind an encoded one, and what is left of both paths
  have hnext : ∀ {s : Bytes} {segs : List Bytes} {v : Bytes}, reqSegs (urlEncode v) = s :: segs →
      reqSegs v = headSeg v :: reqSegs (tailSegs v) ∧ urlEncode (headSeg v) = s ∧
        reqSegs (urlEncode (tailSegs v)) = segs ∧
        tailSegs (urlEncode (v ++ t)) = urlEncode (tailSegs v ++ t) ∧
        tailSegs (v ++ t) = tailSegs v ++ t := by
    intro s segs v hsegs
    have hv : v ≠ [] := by
      rintro rfl
      cases hsegs
    have hcons := reqSegs_eq_cons hv
    rw [reqSegs_urlEncode, hcons, List.map_cons, List.cons.injEq] at hsegs
    have htail := tailSegs_append hv ht
    refine ⟨hcons, hsegs.1, ?_, ?_, htail⟩
    · rw [reqSegs_urlEncode]
      exact hsegs.2
    · rw [tailSegs_urlEncode, htail]
  induction h generalizing v with
  | nil segs =>
    intro s hs
    cases hv : reqSegs v ++ e with
    | nil =>
      rw [(List.append_eq_nil_iff.mp hv).1] at hs
      simp at hs
    | cons s' rest =>
      rw [hv] at hmatch
      exact absurd hmatch not_segMatch_cons_nil
  | @dropped segs ms name seg hmem hfol ih =>
    refine ih hsegs hmatch (fun o ho => ?_) hcap
    rcases mem_lastBindings_cons.mp (hparams o ho) with ⟨hb, -, hno⟩ | hlast
    -- a binding of an abandoned branch has no say: the own step binds the name later
    · exact absurd (name_mem_bindingsOf hfol hsegs ho) hno
    · exact hlast
  | @exact segs ms k hfol ih =>
    obtain ⟨hcons, hhead, hrest, htail, htail'⟩ := hnext hsegs
    obtain ⟨hparam, hwild⟩ := not_key_of_mem_encoded (v := v) (k := k) (by rw [hsegs]; simp)
    rw [hcons, keysOf_exact, List.cons_append] at hmatch
    obtain ⟨hkey, hmatch'⟩ := hmatch.of_cons_cons hwild
    rw [hparam] at hkey
    have hown : ownParams (k :: keysOf ms) (headSeg v :: reqSegs (tailSegs v))
        = ownParams (keysOf ms) (reqSegs (tailSegs v)) :=
      List.filterMap_cons_none (by simp [hparam])
    rw [keysOf_exact, hcons, hown] at hparams
    rw [capturedText, htail, keysOf_exact, matchText, hwild, htail'] at hcap
    -- a literal key is equal to both texts of its segment
    have hlater := ih hrest hmatch' hparams hcap
    intro s hs
    rw [hcons] at hs
    rcases List.mem_cons.mp hs with rfl | hs
    · refine urlEncode_eq_self_iff.mp ?_
      rw [hhead]
      exact (hkey.resolve_right (by decide)).symm
    · exact hlater s hs
  | @param segs ms k s' hp hfol ih =>
    obtain ⟨hcons, hhead, hrest, htail, htail'⟩ := hnext hsegs
    rw [hcons, keysOf_param, List.cons_append] at hmatch
    obtain ⟨-, hmatch'⟩ := hmatch.of_cons_cons (isWildcard_of_isParam hp)
    have hown : ownParams (k :: keysOf ms) (headSeg v :: reqSegs (tailSegs v))
        = (paramName k, headSeg v) :: ownParams (keysOf ms) (reqSegs (tailSegs v)) :=
      List.filterMap_cons_some (by simp [hp])
    rw [keysOf_param, hcons, hown] at hparams
    rw [capturedText, htail, keysOf_param, matchText, isWildcard_of_isParam hp, htail'] at hcap
    have hlater := ih hrest hmatch' (fun o ho => by
      rcases mem_lastBindings_cons.mp (hparams o (List.mem_cons_of_mem _ ho)) with ⟨hb, -, hno⟩ | hl
      · exact absurd (name_mem_bindingsOf hfol hrest ho) hno
      · exact hl) hcap
    intro s hs
    rw [hcons] at hs
    rcases List.mem_cons.mp hs with rfl | hs
    · rcases mem_lastBindings_cons.mp (hparams _ List.mem_cons_self) with ⟨hb, -, -⟩ | hl
      · -- the parameter's own step has the last word
        have hself : s' = headSeg v := (Prod.mk.inj (Option.some.inj hb)).2
        refine urlEncode_eq_self_iff.mp ?_
        rw [hhead, hself]
      · -- a later step has bound the name, to the code of a segment that is kept
        have hseg := hfol.seg_mem (mem_bindingsOf_of_mem_lastBindings hl)
        rw [← hrest, reqSegs_urlEncode, List.mem_map] at hseg
        obtain ⟨s'', hs'', hcode⟩ := hseg
        have hself : s'' = headSeg v := by
          rw [← urlEncode_eq_self_iff.mpr (hlater s'' hs'')]
          exact hcode
        rw [← hself]
        exact hlater s'' hs''
    · exact hlater s hs
  | @wildcard segs k s' hw hpre =>
    have hcode : urlEncode (dropSlash (v ++ t)) = dropSlash (v ++ t) := by
      rw [keysOf_wildcard, matchText, if_pos hw, capturedText,
        cStr_eq_self (by rw [tailSegs_urlEncode]; exact zero_notMem_urlEncode _),
        headSeg_append_tailSegs, dropSlash_urlEncode] at hcap
      exact hcap
    have hkept := urlEncode_eq_self_iff.mp hcode
    have hv : v ≠ [] := by
      rintro rfl
      cases hsegs
    intro s hs b hb
    by_cases hslash : b = slash
    · rw [hslash]
      decide
    · refine hkept b ?_
      rw [dropSlash_append hv]
      have hdrop : reqSegs v = (dropSlash v).splitOn slash := if_neg hv
      rw [hdrop] at hs
      exact List.mem_append_left t ((Lines.infix_of_mem_splitOn hs).subset hb)
  | bare =>
    intro s hs
    rw [reqSegs_urlEncode, List.map_eq_nil_iff] at hsegs
    rw [hsegs] at hs
    simp at hs

end RouteTableNode

/-! ### The server behind `ROUTE` calls -/

namespace HttpServer

/-- What the calls of `ROUTE` do to the router. -/
def routes (calls : List (HandleCall H)) : List (RouterOp (Handler H)) :=
  (calls.map (HandleCall.map Handler.user)).map HandleCall.op

/-- The handlers do not count for the registered routes. -/
theorem ofOps_routes (calls : List (HandleCall H)) :
    Routes.ofOps (routes calls) = Routes.ofCalls calls := by
  rw [routes, Routes.ofOps_calls]
  ext q
  · exact or_congr_right (by simp [HandleCall.map, HandleCall.keys, HandleCall.op, RouterOp.keys,
      RouterOp.route])
  · show (∃ c ∈ calls.map (HandleCall.map Handler.user), c.keys = q) ↔ ∃ c ∈ calls, c.keys = q
    simp [HandleCall.map, HandleCall.keys, HandleCall.op, RouterOp.keys, RouterOp.route]

/-- The server after a sequence of `ROUTE` calls. -/
def serving (calls : List (HandleCall H)) : HttpServer H := build (calls.map ServerOp.ROUTE)

theorem routesMap_serving (calls : List (HandleCall H)) :
    (serving calls).bluePrint.router.routesMap = (Router.ofOps (routes calls)).routesMap := by
  induction calls using List.reverseRecOn with
  | nil => rfl
  | append_singleton calls c ih =>
    have hstep := BluePrint.routesMap_ofOps_concat ih (c.map Handler.user).op
    have hroutes : routes (calls ++ [c]) = routes calls ++ [(c.map Handler.user).op] := by
      simp [routes]
    rw [hroutes, ← hstep]
    unfold serving build
    rw [List.map_append, List.foldl_append]
    rfl

theorem call_serving (calls : List (HandleCall H)) (verb : Verb) (path : Bytes) :
    (serving calls).bluePrint.router.call verb path =
      (Router.ofOps (routes calls)).call verb path := by
  unfold Router.call
  rw [routesMap_serving]

/-- The handler of a verb at a node is that of the first call that reaches it. -/
theorem get?_valAt_routes (calls : List (HandleCall H)) (q : NodePtr) (v : Verb) :
    OrdMap.get? v (Trie.valAt q (Router.tree (routes calls))).verbHandlerMap =
      ((HandleCall.callsAt q calls).find? fun c => c.verb = v).map fun c => .user c.handler := by
  have hat : HandleCall.callsAt q (calls.map (HandleCall.map Handler.user))
      = (HandleCall.callsAt q calls).map (HandleCall.map Handler.user) := by
    unfold HandleCall.callsAt
    rw [List.filter_map]
    split
    · rw [← List.map_take]
      rfl
    · rfl
  rw [routes, HandleCall.get?_valAt_tree, hat, List.find?_map, Option.map_map]
  rfl

/-- The call whose handler a verb gets at a pattern: the first one of the verb,
else the first one of `ANY`. -/
def chosen (calls : List (HandleCall H)) (keys : NodePtr) (verb : Verb) : Option (HandleCall H) :=
  (calls.find? fun d => decide (d.verb = verb ∧ d.keys = keys)).or
    (calls.find? fun d => decide (d.verb = Verb.ANY ∧ d.keys = keys))

/-- The handler at a node is the chosen one, if the node is that of `/` and has
been reached by its call. -/
theorem handler_valAt_iff {calls : List (HandleCall H)} {c : HandleCall (Nat × H)} {verb : Verb}
    (hsel : chosen (HandleCall.numbered calls) c.keys verb = some c) {q : NodePtr} :
    (OrdMap.get? verb
        (Trie.valAt q (Router.tree (routes (HandleCall.numbered calls)))).verbHandlerMap).or
      (OrdMap.get? Verb.ANY
        (Trie.valAt q (Router.tree (routes (HandleCall.numbered calls)))).verbHandlerMap)
        = some (.user c.handler) ↔
      q = c.keys ∧ (c.keys = [[slash]] →
        (HandleCall.numbered calls).find? (fun d => decide (d.keys = c.keys)) = some c) := by
  have hmem : c ∈ HandleCall.numbered calls := by
    rcases Option.or_eq_some_iff.mp hsel with h | ⟨-, h⟩ <;> exact List.mem_of_find?_eq_some h
  have hverb : c.verb = verb ∨ c.verb = Verb.ANY := by
    rcases Option.or_eq_some_iff.mp hsel with h | ⟨-, h⟩
    · have := List.find?_some h
      simp only [decide_eq_true_eq] at this
      exact Or.inl this.1
    · have := List.find?_some h
      simp only [decide_eq_true_eq] at this
      exact Or.inr this.1
  obtain ⟨d, ds, hfind, -, hat⟩ := HandleCall.callsAt_eq_cons ⟨c, hmem, rfl⟩
  rw [get?_valAt_routes, get?_valAt_routes, ← Option.map_or, Option.map_eq_some_iff]
  constructor
  · rintro ⟨a, ha, heq⟩
    have hat' : a ∈ HandleCall.callsAt q (HandleCall.numbered calls) := by
      rcases Option.or_eq_some_iff.mp ha with h | ⟨-, h⟩ <;> exact List.mem_of_find?_eq_some h
    obtain ⟨hamem, hakeys⟩ := HandleCall.mem_callsAt hat'
    obtain rfl := HandleCall.eq_of_handler_eq hamem hmem (Handler.user.inj heq)
    refine ⟨hakeys.symm, fun hroot => ?_⟩
    -- only one call reaches the node of `/`
    rw [← hakeys, hat, if_pos hroot, List.mem_singleton] at hat'
    rw [hfind, hat']
  · rintro ⟨rfl, hroot⟩
    refine ⟨c, ?_, rfl⟩
    by_cases hslash : c.keys = [[slash]]
    · have hdc : d = c := Option.some.inj (hfind.symm.trans (hroot hslash))
      rw [hat, if_pos hslash, hdc]
      rcases hverb with h | h
      · rw [List.find?_cons_of_pos (by simpa using h), Option.some_or]
      · have hany : [c].find? (fun e => decide (e.verb = Verb.ANY)) = some c :=
          List.find?_cons_of_pos (by simpa using h)
        rw [hany]
        by_cases hv : c.verb = verb <;> simp [hv]
    · rw [HandleCall.find?_callsAt hslash, HandleCall.find?_callsAt hslash]
      exact hsel

/-- **A handled request** in terms of the call of the router. -/
theorem process_eq_handled_iff {parse : Bytes → Option ParsedURI} {s : HttpServer H} {req : Request}
    {uri : ParsedURI} (hhost : req.host ≠ []) (hparse : parse (uriText req) = some uri)
    {handler : Handler H} {P : Bytes → List (Bytes × Bytes) → Bytes → Prop} :
    (∃ queryParams fullPath routeParams matchPath,
      s.process parse req = .ok (.handled queryParams handler fullPath routeParams matchPath) ∧
        P fullPath routeParams matchPath) ↔
      (fillContentType [] req.contentType).isOk ∧ ∃ fullPath routeParams matchPath,
        s.bluePrint.router.call (strToVerb req.method) (urlEncode uri.route)
          = .ok (.run handler fullPath routeParams matchPath) ∧
        P fullPath routeParams matchPath := by
  constructor
  · rintro ⟨queryParams, fullPath, routeParams, matchPath, hproc, hp⟩
    obtain ⟨uri', hparse', hcall⟩ := process_eq_handled hproc
    rw [hparse, Option.some.injEq] at hparse'
    refine ⟨?_, fullPath, routeParams, matchPath, hparse' ▸ hcall, hp⟩
    unfold process at hproc
    cases htype : fillContentType [] req.contentType with
    | error e => simp [htype, bind, Except.bind] at hproc
    | ok form => rfl
  · rintro ⟨hok, fullPath, routeParams, matchPath, hcall, hp⟩
    obtain ⟨queryParams, hproc⟩ : ∃ queryParams, s.process parse req
        = .ok (.handled queryParams handler fullPath routeParams matchPath) := by
      cases htype : fillContentType [] req.contentType with
      | error e => rw [htype] at hok; cases hok
      | ok form =>
        simp only [process, htype, if_neg hhost, hparse, hcall, bind, Except.bind, pure,
          Except.pure]
        exact ⟨_, rfl⟩
    exact ⟨queryParams, fullPath, routeParams, matchPath, hproc, hp⟩

/-- `process` runs the handler of the call, and its parameters and its match path are
raw text of the path. -/
def Transparent (parse : Bytes → Option ParsedURI) (calls : List (HandleCall H))
    (c : HandleCall H) (req : Request) (path : Bytes) : Prop :=
  ∃ queryParams fullPath routeParams matchPath,
    (serving calls).process parse req
        = .ok (.handled queryParams (.user c.handler) fullPath routeParams matchPath) ∧
      (∀ o ∈ ownParams c.keys (reqSegs (Router.callPath path)),
        OrdMap.get? o.1 routeParams = some o.2) ∧
      matchPath = matchText c.keys path

/-- No other registered pattern matches the path. -/
def Alone (calls : List (HandleCall H)) (c : HandleCall H) (path : Bytes) : Prop :=
  ∀ d ∈ calls, d.keys ≠ c.keys →
    ¬ (RouteMatches true d.op.route path ∨ RouteMatches true d.op.route (Router.callPath path))

/-- What makes `process` transparent for a call and a request with the path: the content type
can be read, no byte is encoded, of the registered routes the raw path selects the call's, and
nothing else is bound under the names of its parameters. -/
structure Clear (calls : List (HandleCall H)) (c : HandleCall H) (req : Request) (path : Bytes) :
    Prop where
  contentType : ¬ LoneBoundary req.contentType
  kept : Kept path
  finds : (Routes.ofCalls calls).Finds (Router.callPath path) c.keys
  firstRoot : c.keys = [[slash]] → calls.find? (fun d => decide (d.keys = c.keys)) = some c
  leftovers : ∀ b, (Routes.ofCalls calls).Leftover (reqSegs (Router.callPath path)) c.keys b →
    ∀ o ∈ ownParams c.keys (reqSegs (Router.callPath path)), o.1 = b.1 → o = b
  sameName : ∀ o ∈ ownParams c.keys (reqSegs (Router.callPath path)),
    ∀ o' ∈ ownParams c.keys (reqSegs (Router.callPath path)), o.1 = o'.1 → o = o'

/-- **The answer of the router** to a path, for the chosen call: its node is found,
and the context is that of the trail. -/
theorem call_chosen_iff {calls : List (HandleCall H)} {c : HandleCall (Nat × H)} {verb : Verb}
    (hsel : chosen (HandleCall.numbered calls) c.keys verb = some c) (path : Bytes)
    {P : List (Bytes × Bytes) → Bytes → Prop} :
    (∃ fullPath routeParams matchPath,
      (Router.ofOps (routes (HandleCall.numbered calls))).call verb path
        = .ok (.run (.user c.handler) fullPath routeParams matchPath) ∧ P routeParams matchPath) ↔
      Router.findPtr (routes (HandleCall.numbered calls)) (Router.callPath path)
          = .ok (some c.keys) ∧
        (c.keys = [[slash]] →
          (HandleCall.numbered calls).find? (fun d => decide (d.keys = c.keys)) = some c) ∧
        P (Router.context (routes (HandleCall.numbered calls)) path).routeParams
          (Router.context (routes (HandleCall.numbered calls)) path).routeMatchPath := by
  rw [Router.call_spec]
  constructor
  · rintro ⟨fullPath, routeParams, matchPath, hcall, hp⟩
    cases hfind : Router.findPtr (routes (HandleCall.numbered calls)) (Router.callPath path) with
    | error e => rw [hfind] at hcall; cases hcall
    | ok o =>
      rw [hfind] at hcall
      have hans := Except.ok.inj hcall
      cases o with
      | none => cases hans
      | some q =>
        dsimp only at hans
        obtain ⟨hq, hroot⟩ := (handler_valAt_iff hsel).mp
          (Router.answer_eq_run_iff.mp ⟨_, _, _, hans⟩)
        obtain ⟨-, rfl, rfl⟩ := Router.answer_eq_run hans
        exact ⟨by rw [hq], hroot, hp⟩
  · rintro ⟨hfind, hroot, hp⟩
    obtain ⟨fullPath, routeParams, matchPath, hans⟩ : ∃ fullPath routeParams matchPath,
        Router.answer verb
          (Trie.valAt c.keys (Router.tree (routes (HandleCall.numbered calls))))
          (Router.context (routes (HandleCall.numbered calls)) path)
            = .run (.user c.handler) fullPath routeParams matchPath :=
      Router.answer_eq_run_iff.mpr ((handler_valAt_iff hsel).mpr ⟨rfl, hroot⟩)
    obtain ⟨-, rfl, rfl⟩ := Router.answer_eq_run hans
    exact ⟨fullPath, _, _, by rw [hfind]; exact congrArg Except.ok hans, hp⟩

/-- A path that the route `/` matches is looked up as `/`. -/
theorem callPath_of_root {path : Bytes} (h : path = [slash] ∨ Router.callPath path = [slash]) :
    Router.callPath path = [slash] := by
  rcases h with rfl | h
  · decide
  · exact h

/-- The segments of a path are those that are looked up, and an empty one if the
path ends in a slash. -/
theorem exists_reqSegs_eq (path : Bytes) :
    ∃ e, reqSegs path = reqSegs (Router.callPath path) ++ e := by
  obtain ⟨t, hpath, rfl | rfl⟩ := Router.exists_eq_callPath_append path
  · exact ⟨[], by rw [List.append_nil] at hpath ⊢; rw [← hpath]⟩
  · refine ⟨[].splitOn slash, ?_⟩
    conv_lhs => rw [hpath]
    exact reqSegs_append_slash _ []

/-- What is left of a path is its end. -/
theorem afterSegs_suffix (i : Nat) (p : Bytes) : afterSegs i p <:+ p := by
  have hdrop : ∀ r : Bytes, dropSlash r <:+ r := by
    intro r
    cases r with
    | nil => exact List.suffix_refl _
    | cons c cs =>
      rw [dropSlash]
      split
      · exact List.suffix_cons c cs
      · exact List.suffix_refl _
  induction i generalizing p with
  | zero => exact List.suffix_refl p
  | succ i ih => exact (ih (tailSegs p)).trans ((List.dropWhile_suffix _).trans (hdrop p))

/-- **The context of a kept path** is raw text iff no name is bound to another one. -/
theorem context_kept_iff {ops : List (RouterOp H)} {path : Bytes} {keys : NodePtr}
    (hkept : Kept path) (hfind : Router.findPtr ops (Router.callPath path) = .ok (some keys)) :
    ((∀ o ∈ ownParams keys (reqSegs (Router.callPath path)),
        OrdMap.get? o.1 (Router.context ops path).routeParams = some o.2) ∧
      (Router.context ops path).routeMatchPath = matchText keys path) ↔
      (∀ b, (Routes.ofOps ops).Leftover (reqSegs (Router.callPath path)) keys b →
        ∀ o ∈ ownParams keys (reqSegs (Router.callPath path)), o.1 = b.1 → o = b) ∧
      ∀ o ∈ ownParams keys (reqSegs (Router.callPath path)),
        ∀ o' ∈ ownParams keys (reqSegs (Router.callPath path)), o.1 = o'.1 → o = o' := by
  -- the route `/` has no parameters
  have hsurvivors : (∀ b ∈ survivors (Router.trail ops (Router.callPath path)),
        ∀ o ∈ ownParams keys (reqSegs (Router.callPath path)), o.1 = b.1 → o = b) ↔
      ∀ b, (Routes.ofOps ops).Leftover (reqSegs (Router.callPath path)) keys b →
        ∀ o ∈ ownParams keys (reqSegs (Router.callPath path)), o.1 = b.1 → o = b := by
    refine forall_congr' fun b => ?_
    rw [Router.mem_survivors_iff hfind]
    by_cases hroot : keys = [[slash]]
    · have hnil : ownParams keys (reqSegs (Router.callPath path)) = [] := by
        rw [hroot]
        cases reqSegs (Router.callPath path) with
        | nil => rfl
        | cons s segs => simp [ownParams, isParam]
      simp [hnil]
    · rw [and_iff_right hroot]
  rw [← hsurvivors]
  obtain rfl := Router.keysOf_trail hfind
  -- no step goes through a child that is a key
  have hexact : ∀ k, Mark.exact k ∈ Router.trail ops (Router.callPath path) →
      isParam k = false ∧ isWildcard k = false := by
    intro k hk
    rcases Router.follows_trail ops (Router.callPath path) with hroot | hfol
    · rw [hroot, List.mem_singleton, Mark.exact.injEq] at hk
      rw [hk]
      decide
    · exact Kept.not_key fun b hb => Or.inl
        ((kept_iff_segs path).mp hkept k (hfol.exact_mem hk) b hb)
  have hmatch : (Router.context ops path).routeMatchPath
      -- a kept path has no NUL, so the capture reaches to its end
      = matchText (keysOf (Router.trail ops (Router.callPath path))) path :=
    (Router.routeMatchPath_eq_iff ops path).mpr ⟨fun k hk => (hexact k hk).2, fun _ h0 =>
      absurd (hkept 0 ((afterSegs_suffix _ path).subset h0)) (by decide)⟩
  have hdeliver := ownParams_delivered_iff (Router.ownSteps_trail ops (Router.callPath path)).1
    fun k hk => (hexact k hk).1
  rw [and_iff_left hmatch, ← hdeliver]
  exact forall₂_congr fun o _ => get?_bindAll_nil

/-- **A path that comes through as it is** has no byte that is encoded. -/
theorem kept_of_context {ops : List (RouterOp H)} {path route : Bytes}
    (hfind : Router.findPtr ops (Router.callPath (urlEncode path)) = .ok (some (routeKeys route)))
    (hmatch : RouteMatches true route path ∨ RouteMatches true route (Router.callPath path))
    (hparams : ∀ o ∈ ownParams (routeKeys route) (reqSegs (Router.callPath path)),
      OrdMap.get? o.1 (Router.context ops (urlEncode path)).routeParams = some o.2)
    (hcap : (Router.context ops (urlEncode path)).routeMatchPath
      = matchText (routeKeys route) path) : Kept path := by
  obtain ⟨t, hpath, ht⟩ := Router.exists_eq_callPath_append path
  rw [kept_iff_segs]
  by_cases hroot : route = [slash]
  · unfold RouteMatches at hmatch
    rw [if_pos hroot, if_pos hroot] at hmatch
    rw [callPath_of_root hmatch]
    decide +kernel
  · obtain ⟨e, he⟩ :
        ∃ e, SegMatch true (reqSegs (Router.callPath path) ++ e) (routeKeys route) := by
      unfold RouteMatches at hmatch
      rw [if_neg hroot, if_neg hroot] at hmatch
      rcases hmatch with h | h
      · obtain ⟨e, he⟩ := exists_reqSegs_eq path
        exact ⟨e, he ▸ h⟩
      · exact ⟨[], by rwa [List.append_nil]⟩
    have hkeys := Router.keysOf_trail hfind
    -- the trail of the encoded path spells the pattern's keys
    rw [hkeys] at he hparams hcap
    have hfol : Follows (reqSegs (Router.callPath (urlEncode path)))
        (Router.trail ops (Router.callPath (urlEncode path))) := by
      rcases Router.follows_trail ops (Router.callPath (urlEncode path)) with h | h
      · rw [h] at hkeys
        exact absurd (routeKeys_eq_root_iff.mp hkeys) hroot
      · exact h
    rw [Router.routeMatchPath_eq] at hcap
    refine kept_of_follows hfol (by rw [Router.callPath_urlEncode]) ht he
      (fun o ho => get?_bindAll_nil.mp (hparams o ho)) ?_
    rwa [← hpath]

/-- **`process` is transparent** to a path that one pattern alone matches iff the content type
can be read, nothing in the path is encoded, and the raw path is found and bound without a
disturbance. -/
theorem process_transparent_iff (parse : Bytes → Option ParsedURI) (calls : List (HandleCall H))
    (c : HandleCall (Nat × H)) (req : Request) (uri : ParsedURI) (hhost : req.host ≠ [])
    (hparse : parse (uriText req) = some uri) (hfits : req.contentType.length < 2 ^ 63)
    (hsel : chosen (HandleCall.numbered calls) c.keys (strToVerb req.method) = some c)
    (hmatch : RouteMatches true c.op.route uri.route ∨
      RouteMatches true c.op.route (Router.callPath uri.route)) :
    (Alone (HandleCall.numbered calls) c uri.route →
        Transparent parse (HandleCall.numbered calls) c req uri.route) ↔
      (Alone (HandleCall.numbered calls) c uri.route →
        Clear (HandleCall.numbered calls) c req uri.route) := by
  refine imp_congr_right fun _ => ?_
  -- what is left to compare is the answer of the router to the encoded path
  have hcall := call_chosen_iff hsel (urlEncode uri.route)
    (P := fun routeParams matchPath =>
      (∀ o ∈ ownParams c.keys (reqSegs (Router.callPath uri.route)),
        OrdMap.get? o.1 routeParams = some o.2) ∧ matchPath = matchText c.keys uri.route)
  unfold Transparent
  rw [process_eq_handled_iff hhost hparse, isOk_fillContentType_iff [] hfits]
  simp only [call_serving]
  rw [hcall]
  constructor
  · rintro ⟨htype, hfind, hfirst, hparams, hcap⟩
    have hkept := kept_of_context hfind hmatch hparams hcap
    rw [urlEncode_eq_self_iff.mpr hkept] at hfind hparams hcap
    obtain ⟨hleft, hsame⟩ := (context_kept_iff hkept hfind).mp ⟨hparams, hcap⟩
    rw [ofOps_routes] at hleft
    refine ⟨htype, hkept, ?_, hfirst, hleft, hsame⟩
    rw [← ofOps_routes]
    exact Router.findPtr_iff_finds.mp hfind
  · rintro ⟨htype, hkept, hfinds, hfirst, hleft, hsame⟩
    rw [urlEncode_eq_self_iff.mpr hkept]
    rw [← ofOps_routes] at hfinds hleft
    have hfind := Router.findPtr_iff_finds.mpr hfinds
    exact ⟨htype, hfind, hfirst, (context_kept_iff hkept hfind).mpr ⟨hleft, hsame⟩⟩

private theorem matches_user {path s : Bytes} (h : reqSegs path = [ascii "user", s]) :
    RouteMatches true (ascii "/user/\x7bname\x7d") path := by
  have hkeys : routeKeys (ascii "/user/\x7bname\x7d") = [ascii "user", ascii "\x7bname\x7d"] := by
    decide +kernel
  rw [RouteMatches, if_neg (by decide), h, hkeys]
  exact .literal (by decide) (by decide) (.param (by decide) .nil)

/-- The routes `/user/{name}` and `/user/{name}/posts`. -/
def userCalls : List (HandleCall Unit) :=
  [⟨ascii "/user/\x7bname\x7d", 0, (), .GET⟩, ⟨ascii "/user/\x7bname\x7d/posts", 0, (), .GET⟩]

/-- `GET` of a path, with a form in the body. -/
def formRequest (path : String) : Request where
  method := ascii "GET"
  fields := [(ascii "host", ascii "localhost"),
    (ascii "Content-Type", ascii "multipart/form-data; boundary=\"--x\"")]
  requestUri := ascii path

/-- `/user/{name}` and a path of letters. -/
theorem process_transparent_letters :
    Transparent (fun _ => some ⟨some (ascii "/user/ann"), none⟩) (HandleCall.numbered userCalls)
      ⟨ascii "/user/\x7bname\x7d", 0, (0, ()), .GET⟩ (formRequest "/user/ann")
      (ascii "/user/ann") := by
  have hmatch : RouteMatches true (ascii "/user/\x7bname\x7d") (ascii "/user/ann") :=
    matches_user (s := ascii "ann") (by decide +kernel)
  have hkeys : (HandleCall.numbered userCalls).map HandleCall.keys =
      [[ascii "user", ascii "\x7bname\x7d"],
        [ascii "user", ascii "\x7bname\x7d"] ++ [ascii "posts"]] := by
    decide +kernel
  refine (process_transparent_iff (fun _ => some ⟨some (ascii "/user/ann"), none⟩) userCalls
    ⟨ascii "/user/\x7bname\x7d", 0, (0, ()), .GET⟩ (formRequest "/user/ann")
    ⟨some (ascii "/user/ann"), none⟩ (by decide +kernel) rfl (by decide +kernel)
    (by rfl) (Or.inl hmatch)).mpr (fun _ => ?_) ?_
  · refine ⟨?_, by decide +kernel, ?_, fun _ => by rfl, ?_, by decide +kernel⟩
    · rw [← isOk_fillContentType_iff [] (by decide +kernel)]
      decide +kernel
    · rw [← Routes.ofOps_calls]
      exact Router.findPtr_iff_finds.mp (by decide +kernel)
    · -- the only parameter stands on the way to the node
      rintro b ⟨u, k, -, hlast, hoff⟩
      have hown : (⟨ascii "/user/\x7bname\x7d", 0, (0, ()), .GET⟩ : HandleCall (Nat × Unit)).keys
          = [ascii "user", ascii "\x7bname\x7d"] := by decide +kernel
      rw [hown] at hoff
      rcases hlast.binds.first.node with hnil | ⟨d, hd, hpre⟩
      · simp at hnil
      have hd' := List.mem_map_of_mem (f := HandleCall.keys) hd
      rw [hkeys, List.mem_cons, List.mem_singleton] at hd'
      rcases hd' with hd' | hd'
      · exact absurd (hd' ▸ hpre) hoff
      · rw [hd'] at hpre
        rcases List.prefix_concat_iff.mp hpre with heq | hpre
        · have hp := hlast.binds.param
          obtain ⟨-, hk⟩ := List.append_inj' heq rfl
          rw [List.singleton_inj.mp hk] at hp
          exact absurd hp (by decide)
        · exact absurd hpre hoff
  · -- the other route has a segment more
    intro d hd hne
    obtain rfl | rfl : d = _ ∨ d = _ := by simpa [HandleCall.numbered, userCalls] using hd
    · exact absurd rfl hne
    · have hroute : routeKeys (ascii "/user/\x7bname\x7d/posts") =
          [ascii "user", ascii "\x7bname\x7d", ascii "posts"] := by decide +kernel
      have hno : ¬ RouteMatches true (ascii "/user/\x7bname\x7d/posts") (ascii "/user/ann") := by
        rw [RouteMatches, if_neg (by decide), hroute,
          show reqSegs (ascii "/user/ann") = [ascii "user", ascii "ann"] by decide +kernel]
        intro hmatch
        have hrest := (hmatch.of_cons_cons (by decide)).2.of_cons_cons (by decide)
        cases hrest.2
      exact fun hor => hno (hor.elim id id)

/-- The same pattern and the path `/user/a@b`: the handler sees `a%40b`. -/
theorem not_transparent_at_sign :
    RouteMatches true (ascii "/user/\x7bname\x7d") (ascii "/user/a@b") ∧
    Alone (HandleCall.numbered [⟨ascii "/user/\x7bname\x7d", 0, (), .GET⟩])
      ⟨ascii "/user/\x7bname\x7d", 0, (0, ()), .GET⟩ (ascii "/user/a@b") ∧
    ¬ Transparent (fun _ => some ⟨some (ascii "/user/a@b"), none⟩)
      (HandleCall.numbered [⟨ascii "/user/\x7bname\x7d", 0, (), .GET⟩])
      ⟨ascii "/user/\x7bname\x7d", 0, (0, ()), .GET⟩
      ⟨ascii "GET", [(ascii "Host", ascii "localhost")], ascii "/user/a@b"⟩
      (ascii "/user/a@b") := by
  refine ⟨matches_user (s := ascii "a@b") (by decide +kernel), ?_, ?_⟩
  · intro d hd hne
    rw [List.mem_singleton.mp hd] at hne
    exact absurd rfl hne
  rintro ⟨queryParams, fullPath, routeParams, matchPath, hproc, hparams, -⟩
  have hsees : (serving (HandleCall.numbered
      [⟨ascii "/user/\x7bname\x7d", 0, (), .GET⟩])).process
        (fun _ => some ⟨some (ascii "/user/a@b"), none⟩)
        ⟨ascii "GET", [(ascii "Host", ascii "localhost")], ascii "/user/a@b"⟩
      = .ok (.handled [] (.user (0, ())) (ascii "/user/\x7bname\x7d")
        [(ascii "name", ascii "a%40b")] []) := by
    decide +kernel
  rw [hsees] at hproc
  cases hproc
  exact absurd (hparams (ascii "name", ascii "a@b") (by decide +kernel)) (by decide +kernel)

end HttpServer

end Wfrest
