import Wfrest.Route.Dispatch

/-!
# The match path

What a lookup leaves in `route_match_path` when it ends at a node named `*`. The
wildcard branch takes the segment that it stands at and reads on to the end of
the C string, so a slash that `Router::call` has cut off is part of the match; the
branch for the bare `/*` leaves the string empty.

`Tracks` is what one round of the search preserves, `tracks_search` the whole
search. `matchPath_call`: cut at its slashes again, the match path is what is left
of the request path behind the segments that lead to the node.
-/

namespace Wfrest

variable {H : Type}

namespace RouteTableNode

/-! ### The search -/

/-- The `OUT` string after a search over the cuts that ends at the address `q`,
whose last key is `*`. -/
def Captures (cs : List Cut) (q : NodePtr) (old new : Bytes) : Prop :=
  (q.length = cs.length + 1 ∧ new = old) ∨
    ∃ c rest, cs.drop (q.length - 1) = c :: rest ∧ new = c.seg ++ c.tail

theorem Captures.cons {cs : List Cut} {q : NodePtr} {old new : Bytes} (h : Captures cs q old new)
    (hq : q ≠ []) (c : Cut) (k : Bytes) : Captures (c :: cs) (k :: q) old new := by
  have hlen : (k :: q).length - 1 = (q.length - 1) + 1 := by
    have := List.length_pos_iff.mpr hq
    rw [List.length_cons]
    omega
  rcases h with ⟨hbare, hnew⟩ | ⟨d, rest, hdrop, hnew⟩
  · exact Or.inl ⟨congrArg (· + 1) hbare, hnew⟩
  · exact Or.inr ⟨d, rest, by rw [hlen, List.drop_succ_cons, hdrop], hnew⟩

/-- What a search from the node at `this` leaves behind: nothing when it fails. -/
def Tracks (cs : List Cut) (this : NodePtr) (old : Bytes) (r : Iterator H × RouteCtx) : Prop :=
  (r.1.ptr = none → r.2.routeMatchPath = old) ∧
    ∀ p, r.1.ptr = some p → ∃ q, p = this ++ q ∧
      (q.getLast? = some [star] → Captures cs q old r.2.routeMatchPath)

/-- A step through a key other than `*`. -/
theorem Tracks.descend {cs : List Cut} {this : NodePtr} {k old : Bytes}
    {r : Iterator H × RouteCtx} (h : Tracks cs (this ++ [k]) old r) (hk : k ≠ [star]) (c : Cut) :
    Tracks (c :: cs) this old r := by
  refine ⟨h.1, fun p hp => ?_⟩
  obtain ⟨q, rfl, hq⟩ := h.2 p hp
  refine ⟨k :: q, by simp, fun hlast => ?_⟩
  cases q with
  | nil =>
    rw [List.getLast?_singleton, Option.some.injEq] at hlast
    exact absurd hlast hk
  | cons k' q =>
    rw [List.getLast?_cons_cons] at hlast
    exact (hq hlast).cons (List.cons_ne_nil k' q) c k

/-- A search that stops where it stands. -/
theorem tracks_here (cs : List Cut) (this : NodePtr) (route : StringPiece) (vh : VerbHandler H)
    (ctx : RouteCtx) : Tracks cs this ctx.routeMatchPath (⟨some this, route, vh⟩, ctx) := by
  refine ⟨by simp, fun p hp => ⟨[], ?_, by simp⟩⟩
  rw [List.append_nil]
  exact (Option.some.inj hp).symm

theorem ne_star_of_isParam {k : Bytes} (h : isParam k = true) : k ≠ [star] := by
  rintro rfl
  exact absurd h (by decide)

private theorem tracks_searchParam {route : StringPiece} {c : Cut} {cs : List Cut}
    {children : List (Bytes × RouteTableNode H)} {this : NodePtr}
    {go : RouteTableNode H → NodePtr → RouteCtx → Except StdException (Iterator H × RouteCtx)}
    (hgo : ∀ child this ctx r, go child this ctx = .ok r → Tracks cs this ctx.routeMatchPath r)
    {ctx : RouteCtx} {r : Iterator H × RouteCtx}
    (h : searchParam route c children this go ctx = .ok r) :
    Tracks (c :: cs) this ctx.routeMatchPath r := by
  unfold searchParam at h
  cases hfind : children.find? (candidate c.seg) with
  | none =>
    rw [hfind] at h
    cases h
    exact ⟨fun _ => rfl, fun p hp => by simp [Iterator.fin] at hp⟩
  | some e =>
    obtain ⟨k, child⟩ := e
    rw [hfind] at h
    dsimp only at h
    split at h
    · -- a wildcard: the segment it stands at, and the rest of the string
      cases h
      refine ⟨by simp, fun p hp => ⟨[k], (Option.some.inj hp).symm, fun _ => ?_⟩⟩
      exact Or.inr ⟨c, cs, rfl, rfl⟩
    · next hwild =>
      have hcand := List.find?_some hfind
      have hparam : isParam k = true := by
        rcases candidate_iff.mp hcand with ⟨hw, -⟩ | hp
        · exact absurd hw hwild
        · exact hp
      cases hname : (paramPiece k).asString with
      | error e => rw [hname] at h; simp [bind, Except.bind] at h
      | ok name =>
        rw [hname] at h
        exact (hgo child _ _ r h).descend (ne_star_of_isParam hparam) c

/-- **The whole search.** No segment of the path is the text `*`. -/
theorem tracks_search {route : StringPiece} {cs : List Cut} (hstar : ∀ c ∈ cs, c.seg ≠ [star])
    (n : RouteTableNode H) (this : NodePtr) (ctx : RouteCtx) (r : Iterator H × RouteCtx)
    (h : search route cs n this ctx = .ok r) : Tracks cs this ctx.routeMatchPath r := by
  induction cs generalizing n this ctx r with
  | nil =>
    rw [search] at h
    split at h
    · cases h
      exact tracks_here [] this route n.val ctx
    · cases hget : OrdMap.get? [star] n.children with
      | none =>
        rw [hget] at h
        cases h
        exact ⟨fun _ => rfl, by simp⟩
      | some child =>
        rw [hget] at h
        cases h
        refine ⟨by simp, fun p hp => ⟨[[star]], (Option.some.inj hp).symm, fun _ => ?_⟩⟩
        exact Or.inl ⟨rfl, rfl⟩
  | cons c cs ih =>
    have ih := ih fun d hd => hstar d (List.mem_cons_of_mem c hd)
    rw [search] at h
    split at h
    · cases h
      exact tracks_here (c :: cs) this route n.val ctx
    · unfold searchChildren at h
      cases hget : OrdMap.get? c.seg n.children with
      | none =>
        rw [hget] at h
        exact tracks_searchParam ih h
      | some child =>
        rw [hget] at h
        cases hchild : search route cs child (this ++ [c.seg]) ctx with
        | error e => simp [hchild, bind, Except.bind] at h
        | ok r' =>
          have htracks := (ih child _ ctx r' hchild).descend (hstar c List.mem_cons_self) c
          simp only [hchild, bind, Except.bind] at h
          split at h
          · cases h
            exact htracks
          · next hptr =>
            -- the exact child has failed and has left the string alone
            have hnone : r'.1.ptr = none := by simpa using hptr
            have hsame := htracks.1 hnone
            rw [← hsame]
            exact tracks_searchParam ih h

/-! ### The text of a capture -/

theorem tailSegs_append {r t : Bytes} (hr : r ≠ []) (ht : t = [] ∨ t = [slash]) :
    tailSegs (r ++ t) = tailSegs r ++ t := by
  have hdrop : t.dropWhile (· ≠ slash) = t := by rcases ht with rfl | rfl <;> rfl
  rw [tailSegs, tailSegs, dropSlash_append hr, List.dropWhile_append]
  split
  · next hnil =>
    rw [List.isEmpty_iff.mp hnil, hdrop]
    rfl
  · rfl

/-- **A segment and what follows it**, cut at the slashes, are the segments from
there on. The memory behind the view holds at most a slash. -/
theorem splitOn_cut {route : StringPiece} (h : route.Valid) (hnul : 0 ∉ route.ptr) {t : Bytes}
    (hptr : route.ptr = route.view ++ t) (ht : t = [] ∨ t = [slash]) (c i : Nat) {cut : Cut}
    {rest : List Cut} (hcut : (cuts route c).drop i = cut :: rest) :
    (cut.seg ++ cut.tail).splitOn slash = (reqSegs (route.ptr.drop c)).drop i := by
  -- on the cuts; `i` counts those that are dropped
  fun_induction cuts route c generalizing i with
  | case2 c hc => simp at hcut
  | case1 c hc ih =>
    have hdrop : ∀ j ≤ route.length, route.ptr.drop j = route.view.drop j ++ t := by
      intro j hj
      rw [hptr, List.drop_append_of_le_length (by rw [h.length_view]; exact hj)]
    have hne : route.view.drop c ≠ [] := by
      rw [Ne, h.drop_view_eq_nil_iff]
      omega
    have hnext := hdrop _ (h.next_le hc)
    rw [h.drop_next hc] at hnext
    have hne' : route.view.drop c ++ t ≠ [] := by simp [hne]
    rw [hdrop c (by omega)]
    cases i with
    | zero =>
      obtain ⟨rfl, -⟩ := List.cons.inj hcut
      have hcstr : cStr (route.ptr.drop (route.next c)) = route.ptr.drop (route.next c) :=
        cStr_eq_self fun hmem => hnul (List.mem_of_mem_drop hmem)
      have hsplit : dropSlash (route.view.drop c)
          = headSeg (route.view.drop c) ++ tailSegs (route.view.drop c) :=
        (List.takeWhile_append_dropWhile).symm
      rw [List.drop_zero, reqSegs, if_neg hne', dropSlash_append hne, hsplit, hcstr, hnext,
        h.view_mid hc, List.append_assoc]
    | succ i =>
      rw [List.drop_succ_cons] at hcut
      rw [reqSegs_eq_cons hne', List.drop_succ_cons, tailSegs_append hne ht, ← hnext]
      exact ih i hcut

end RouteTableNode

/-! ### The call -/

namespace Router

open RouteTableNode

/-- **A call that runs a handler** has found a node, and the context is that of
the lookup. -/
theorem find_of_call {r : Router H} {verb : Verb} {path : Bytes} {handler : H}
    {fullPath matchPath : Bytes} {routeParams : List (Bytes × Bytes)}
    (h : r.call verb path = .ok (.run handler fullPath routeParams matchPath)) :
    ∃ it ctx q, r.routesMap.find (callPiece path) RouteCtx.init = .ok (it, ctx) ∧
      it.ptr = some q ∧ ctx.routeMatchPath = matchPath ∧
      ∃ v, (v, handler) ∈ it.second.verbHandlerMap := by
  unfold call at h
  cases hfind : r.routesMap.find (callPiece path) RouteCtx.init with
  | error e => simp [hfind, bind, Except.bind] at h
  | ok res =>
    obtain ⟨it, ctx⟩ := res
    simp only [hfind, bind, Except.bind] at h
    cases hptr : it.ptr with
    | none => simp [hptr, pure, Except.pure] at h
    | some q =>
      -- the handler of the verb, or else the one of `ANY`
      refine ⟨it, ctx, q, rfl, hptr, ?_⟩
      simp only [hptr] at h
      cases hverb : OrdMap.get? verb it.second.verbHandlerMap with
      | some handler' =>
        simp only [hverb, pure, Except.pure, Except.ok.injEq, CallResult.run.injEq] at h
        obtain ⟨rfl, -, -, hmatch⟩ := h
        exact ⟨hmatch, verb, OrdMap.mem_of_get? hverb⟩
      | none =>
        cases hany : OrdMap.get? Verb.ANY it.second.verbHandlerMap with
        | none => simp [hverb, hany, pure, Except.pure] at h
        | some handler' =>
          simp only [hverb, hany, pure, Except.pure, Except.ok.injEq, CallResult.run.injEq] at h
          obtain ⟨rfl, -, -, hmatch⟩ := h
          exact ⟨hmatch, Verb.ANY, OrdMap.mem_of_get? hany⟩

/-- **The match path** at a node named `*`: the segments of the request path behind
those that lead to the node. Without any it is empty, which is the same after a
slash. -/
theorem matchPath_find {ops : List (RouterOp H)} {path : Bytes} {it : Iterator H} {ctx : RouteCtx}
    {p : NodePtr} (hnul : 0 ∉ path) (hstar : star ∉ path)
    (hfind : (ofOps ops).routesMap.find (callPiece path) RouteCtx.init = .ok (it, ctx))
    (hptr : it.ptr = some (p ++ [[star]])) :
    ctx.routeMatchPath.splitOn slash = (reqSegs path).drop p.length ∨
      (ctx.routeMatchPath = [] ∧ (reqSegs path).drop p.length = []) := by
  have hvalid := valid_callPiece path
  obtain ⟨t, hpath, ht⟩ := exists_eq_callPath_append path
  change find (tree ops) [] (callPiece path) 0 RouteCtx.init = .ok (it, ctx) at hfind
  by_cases hroot : (callPiece path).view = [slash] ∧
      ∃ n, OrdMap.get? [slash] (tree ops).children = some n
  · -- the node of `/` is not named `*`
    obtain ⟨hview, n, hn⟩ := hroot
    rw [find_root hvalid hview hn (leaf_of_root_child (by rw [Trie.sub?_singleton, hn]))] at hfind
    cases hfind
    have hlast := congrArg (Option.map List.getLast?) hptr
    simp [star, slash] at hlast
  · have hnone : (0 : Nat) = 0 → (callPiece path).view = [slash] →
        OrdMap.get? [slash] (tree ops).children = none := by
      intro _ hview
      rw [← Option.not_isSome_iff_eq_none, Option.isSome_iff_exists]
      exact fun hn => hroot ⟨hview, hn⟩
    rw [find_eq_search hvalid (tree ops) [] 0 (Nat.zero_le _) hnone] at hfind
    have hsegs : (cuts (callPiece path) 0).map Cut.seg = reqSegs (callPath path) := by
      rw [map_seg_cuts hvalid, List.drop_zero, view_callPiece]
    have hseg : ∀ c ∈ cuts (callPiece path) 0, c.seg ≠ [star] := by
      intro c hc hc'
      have hmem : [star] ∈ reqSegs (callPath path) := by
        rw [← hsegs, ← hc']
        exact List.mem_map_of_mem hc
      exact hstar ((callPath_isPrefix path).subset
        (mem_of_mem_reqSegs hmem (List.mem_singleton_self star)))
    obtain ⟨q, hq, hcaptures⟩ := (tracks_search hseg _ _ _ _ hfind).2 _ hptr
    rw [List.nil_append] at hq
    subst hq
    rcases hcaptures (by simp) with ⟨hlen, hmatch⟩ | ⟨c, rest, hdrop, hmatch⟩
    · -- the bare `/*`: the path ends in front of the star
      have hp : p.length = (reqSegs (callPath path)).length := by
        rw [← hsegs, List.length_map]
        simpa using hlen
      rw [show ctx.routeMatchPath = [] from hmatch, hp]
      rcases ht with rfl | rfl
      · right
        rw [List.append_nil] at hpath
        rw [← hpath]
        exact ⟨rfl, List.drop_length⟩
      · left
        have hsegs' := reqSegs_append_slash (callPath path) []
        rw [← hpath] at hsegs'
        rw [hsegs', List.drop_left]
    · left
      have hcut := splitOn_cut hvalid (by rw [callPiece_eq]; exact hnul) (t := t)
        (by rw [view_callPiece, callPiece_eq]; exact hpath) ht 0 p.length (by simpa using hdrop)
      rw [show ctx.routeMatchPath = c.seg ++ c.tail from hmatch, hcut, callPiece_eq]
      rfl

end Router

end Wfrest
