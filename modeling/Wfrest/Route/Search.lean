import Wfrest.Route.RouteTable
import Wfrest.Route.Segments

/-!
# The route table over segments

`findOrCreate` and `find` restated with the path cut into segments in advance,
so that later arguments never see a cursor.

* `findOrCreate_eq`: registering a route is `Trie.update` at its `routeKeys`,
  except that a second registration of `/` leaves the tree as it was.
* `find_eq_search`: a lookup is `search` over the `cuts` of the request path.
  A cut is a segment together with the memory after it, which the wildcard
  branch reads. The request `/` is looked up under the key `/` first
  (`find_root`).

`search` recurses on the list of segments; `search_cons` is the one equation
that invariants of the lookup are derived from.
-/

namespace Wfrest

variable {H : Type}

namespace RouteTableNode

/-! ### Registration -/

private theorem view_ne_slash_drop {route : StringPiece} (h : route.Valid) {c : Nat}
    (hc : c < route.length) (hlast : ¬ (c = route.length - 1 ∧ route.get c = slash)) :
    route.view.drop c ≠ [slash] := by
  intro heq
  obtain ⟨cs, hcs⟩ := h.get_eq hc
  have hlen := congrArg List.length heq
  rw [List.length_drop, h.length_view] at hlen
  have hget : route.get c = slash := by
    rw [hcs] at heq
    exact (List.cons.inj heq).1
  exact hlast ⟨by simp at hlen; omega, hget⟩

/-- Away from the root route, registration is an update along the segments. -/
theorem findOrCreate_eq_update {route : StringPiece} (h : route.Valid)
    (f : VerbHandler H → VerbHandler H) (node : RouteTableNode H) (c : Nat)
    (hroot : ¬ (c = 0 ∧ route.view = [slash])) :
    findOrCreate node route c f
      = Trie.update f (reqSegs (stripSlash (route.view.drop c))) node := by
  fun_induction findOrCreate node route c f with
  | case1 node c hc hslash _ => exact absurd hslash hroot
  | case2 node c hc _ hlast =>
    -- a slash is the last byte: `find_or_create` returns the node it is at
    obtain ⟨cs, hcs⟩ := h.get_eq hc
    have hlen := congrArg List.length hcs
    rw [List.length_drop, h.length_view, List.length_cons] at hlen
    have hnil : cs = [] := List.length_eq_zero_iff.mp (by omega)
    rw [hcs, hnil, hlast.2]
    rfl
  -- the next segment has a child, which is updated
  | case3 node c hc _ hlast anchor cursor' mid child hget ih =>
    have hne : route.view.drop c ≠ [] := by
      rw [Ne, h.drop_view_eq_nil_iff]; omega
    have hmid : mid = headSeg (route.view.drop c) := h.view_mid hc
    have hnext : route.view.drop cursor' = tailSegs (route.view.drop c) := h.drop_next hc
    have hpos : ¬ (cursor' = 0 ∧ route.view = [slash]) := fun h0 => by
      have := route.lt_next hc
      change c < cursor' at this
      omega
    rw [reqSegs_stripSlash_eq_cons hne (view_ne_slash_drop h hc hlast), ← hmid,
      Trie.update, hget, ih hpos, hnext]
  -- it has none: a fresh node is updated, as `Trie.update` does
  | case4 node c hc _ hlast anchor cursor' mid hget ih =>
    have hne : route.view.drop c ≠ [] := by
      rw [Ne, h.drop_view_eq_nil_iff]; omega
    have hmid : mid = headSeg (route.view.drop c) := h.view_mid hc
    have hnext : route.view.drop cursor' = tailSegs (route.view.drop c) := h.drop_next hc
    have hpos : ¬ (cursor' = 0 ∧ route.view = [slash]) := fun h0 => by
      have := route.lt_next hc
      change c < cursor' at this
      omega
    rw [reqSegs_stripSlash_eq_cons hne (view_ne_slash_drop h hc hlast), ← hmid,
      Trie.update, hget, ih hpos, hnext]
  | case5 node c hc =>
    rw [h.drop_view_eq_nil_iff.mpr (by omega)]
    rfl

/-- **Registration.** The route's node is updated, and created when missing; a
second registration of `/` has no effect on the tree. -/
theorem findOrCreate_eq {route : StringPiece} (h : route.Valid)
    (f : VerbHandler H → VerbHandler H) (node : RouteTableNode H) :
    findOrCreate node route 0 f =
      if route.view = [slash] ∧ Trie.Has [[slash]] node then node
      else Trie.update f (routeKeys route.view) node := by
  by_cases hroot : route.view = [slash]
  · have hlen : route.length = 1 := by
      rw [← h.length_view, hroot]; rfl
    have hchild : findOrCreate Trie.empty route 1 f = Trie.update f [] Trie.empty := by
      rw [findOrCreate_eq_update h f _ 1 (by simp), hroot]
      rfl
    have hhas : Trie.Has [[slash]] node ↔ (OrdMap.get? [slash] node.children).isSome := by
      rw [← Trie.sub?_singleton, Trie.Has]
    rw [findOrCreate, if_pos (by omega), if_pos ⟨rfl, hroot⟩, hchild, hroot, OrdMap.insert]
    cases hget : OrdMap.get? [slash] node.children with
    | some c => simp [hhas, hget, Trie.node_val_children]
    | none => simp [hhas, routeKeys, Trie.update, hget]
  · rw [findOrCreate_eq_update h f node 0 (by simp [hroot]), if_neg (by simp [hroot]), routeKeys,
      if_neg hroot, List.drop_zero]

/-! ### Lookup -/

/-- A segment of the request path, and the C string that starts after it. -/
structure Cut where
  seg : Bytes
  tail : Bytes

/-- The segments after the cursor. -/
def cuts (route : StringPiece) (cursor : Nat) : List Cut :=
  if cursor < route.length then
    ⟨(route.mid cursor).view, cStr (route.ptr.drop (route.next cursor))⟩
      :: cuts route (route.next cursor)
  else []
termination_by route.length - cursor
decreasing_by
  have := route.lt_next (by assumption)
  omega

theorem cuts_of_lt {route : StringPiece} {c : Nat} (hc : c < route.length) :
    cuts route c = ⟨(route.mid c).view, cStr (route.ptr.drop (route.next c))⟩
      :: cuts route (route.next c) := by
  rw [cuts, if_pos hc]

theorem cuts_of_le {route : StringPiece} {c : Nat} (hc : route.length ≤ c) :
    cuts route c = [] := by
  rw [cuts, if_neg (by omega)]

/-- The segments of the cuts are the segments of the path. -/
theorem map_seg_cuts {route : StringPiece} (h : route.Valid) (c : Nat) :
    (cuts route c).map Cut.seg = reqSegs (route.view.drop c) := by
  fun_induction cuts route c with
  | case1 c hc ih =>
    have hne : route.view.drop c ≠ [] := by
      rw [Ne, h.drop_view_eq_nil_iff]; omega
    rw [List.map_cons, ih, h.drop_next hc, reqSegs_eq_cons hne, h.view_mid hc]
  | case2 c hc => rw [h.drop_view_eq_nil_iff.mpr (by omega)]; rfl

/-- The child that the loop over the children stops at. -/
def candidate (mid : Bytes) (e : Bytes × RouteTableNode H) : Bool :=
  (isWildcard e.1 && (wildcardPrefix e.1).isPrefixOf mid) || isParam e.1

/-- The loop over the children, with `go` for the recursive call. -/
def searchParam (route : StringPiece) (s : Cut) (children : List (Bytes × RouteTableNode H))
    (this : NodePtr)
    (go : RouteTableNode H → NodePtr → RouteCtx → Except StdException (Iterator H × RouteCtx))
    (ctx : RouteCtx) : Except StdException (Iterator H × RouteCtx) :=
  match children.find? (candidate s.seg) with
  | none => pure (Iterator.fin, ctx)
  | some (k, child) =>
    if isWildcard k then
      pure (⟨some (this ++ [k]), route, child.val⟩, { ctx with routeMatchPath := s.seg ++ s.tail })
    else do
      let name ← (paramPiece k).asString
      go child (this ++ [k]) { ctx with routeParams := OrdMap.set name s.seg ctx.routeParams }

/-- The exact child first, then the loop. -/
def searchChildren (route : StringPiece) (s : Cut) (children : List (Bytes × RouteTableNode H))
    (this : NodePtr)
    (go : RouteTableNode H → NodePtr → RouteCtx → Except StdException (Iterator H × RouteCtx))
    (ctx : RouteCtx) : Except StdException (Iterator H × RouteCtx) :=
  match OrdMap.get? s.seg children with
  | some child => do
    let r ← go child (this ++ [s.seg]) ctx
    if r.1.ptr.isSome then pure r else searchParam route s children this go r.2
  | none => searchParam route s children this go ctx

/-- `find` over segments that are already cut out. -/
def search (route : StringPiece) : List Cut → RouteTableNode H → NodePtr → RouteCtx →
    Except StdException (Iterator H × RouteCtx)
  | [], n, this, ctx =>
    if n.val.verbHandlerMap ≠ [] ∨ n.children.isEmpty then pure (⟨some this, route, n.val⟩, ctx)
    else
      match OrdMap.get? [star] n.children with
      | some child => pure (⟨some (this ++ [[star]]), route, child.val⟩, ctx)
      | none => pure (⟨none, route, n.val⟩, ctx)
  | s :: rest, n, this, ctx =>
    if n.children.isEmpty then pure (⟨some this, route, n.val⟩, ctx)
    else searchChildren route s n.children this (search route rest) ctx

private theorem searchChildren_congr {route : StringPiece} {s : Cut}
    {children : List (Bytes × RouteTableNode H)} {this : NodePtr}
    {go go' : RouteTableNode H → NodePtr → RouteCtx →
      Except StdException (Iterator H × RouteCtx)}
    (h : ∀ k child, (k, child) ∈ children → go child = go' child) (ctx : RouteCtx) :
    searchChildren route s children this go ctx = searchChildren route s children this go' ctx := by
  have hparam : ∀ ctx, searchParam route s children this go ctx
      = searchParam route s children this go' ctx := by
    intro ctx
    unfold searchParam
    cases hf : children.find? (candidate s.seg) with
    | none => rfl
    | some e =>
      have hgo := h e.1 e.2 (List.mem_of_find?_eq_some hf)
      simp only [hgo]
  unfold searchChildren
  cases hg : OrdMap.get? s.seg children with
  | none => exact hparam ctx
  | some child =>
    have hgo := h s.seg child (OrdMap.mem_of_get? hg)
    simp only [hgo, hparam]

private theorem findChild_eq (children : List (Bytes × RouteTableNode H)) (key : Bytes)
    (this : NodePtr) (route : StringPiece) (c : Nat) (ctx : RouteCtx) :
    findChild children key this route c ctx =
      (match OrdMap.get? key children with
      | none => pure none
      | some child => do
        let r ← find child (this ++ [key]) route c ctx
        pure (some r)) := by
  induction children with
  | nil => rfl
  | cons e cs ih =>
    obtain ⟨k, child⟩ := e
    rw [findChild, OrdMap.get?_cons]
    split
    · next hk => subst hk; rfl
    · exact ih

private theorem startsWith_ofString {m : StringPiece} (h : m.Valid) (p : Bytes) :
    m.startsWith (StringPiece.ofString p) = p.isPrefixOf m.view := by
  unfold StringPiece.startsWith
  rw [StringPiece.view_ofString, StringPiece.length_ofString]
  by_cases hp : p <+: m.view
  · have hle := hp.length_le
    rw [h.length_view] at hle
    simp [hle]
  · simp [hp]

private theorem findParam_eq (children : List (Bytes × RouteTableNode H)) {m : StringPiece}
    (h : m.Valid) (this : NodePtr) (route : StringPiece) (c : Nat) (ctx : RouteCtx) :
    findParam children m this route c ctx =
      searchParam route ⟨m.view, cStr (route.ptr.drop c)⟩ children this
        (fun child this ctx => find child this route c ctx) ctx := by
  unfold searchParam
  induction children with
  | nil => rfl
  | cons e cs ih =>
    obtain ⟨k, child⟩ := e
    rw [findParam, startsWith_ofString h, List.find?_cons]
    -- the loop stops at the first key that is a candidate
    by_cases hw : isWildcard k ∧ (wildcardPrefix k).isPrefixOf m.view
    · have hcand : candidate m.view (k, child) = true := by simp [candidate, hw]
      rw [if_pos hw, hcand]
      simp [hw.1, StringPiece.view_ofCStr]
    · rw [if_neg hw]
      by_cases hp : isParam k
      · have hcand : candidate m.view (k, child) = true := by simp [candidate, hp]
        have hwild : isWildcard k = false := by
          unfold isParam at hp
          simp only [Bool.and_eq_true, decide_eq_true_eq] at hp
          simp [isWildcard, hp.2, rbrace, star]
        rw [if_pos hp, hcand]
        simp [hwild]
      · have hcand : candidate m.view (k, child) = false := by
          simp only [candidate, Bool.or_eq_false_iff]
          refine ⟨?_, by simpa using hp⟩
          rw [← Bool.not_eq_true, Bool.and_eq_true]
          exact hw
        rw [if_neg hp, hcand]
        exact ih

/-- The part of `find` that goes on to the children. -/
private theorem descend_eq {children : List (Bytes × RouteTableNode H)} {route : StringPiece}
    (h : route.Valid) (this : NodePtr) {c : Nat} (hc : c < route.length) (ctx : RouteCtx) :
    (do
      match ← findChild children (route.mid c).view this route (route.next c) ctx with
      | some (it2, ctx) =>
        if it2.ptr.isSome then pure (it2, ctx)
        else findParam children (route.mid c) this route (route.next c) ctx
      | none => findParam children (route.mid c) this route (route.next c) ctx) =
    searchChildren route ⟨(route.mid c).view, cStr (route.ptr.drop (route.next c))⟩ children this
      (fun child this ctx => find child this route (route.next c) ctx) ctx := by
  rw [findChild_eq, searchChildren]
  simp only [findParam_eq children (h.mid hc)]
  cases OrdMap.get? (route.mid c).view children with
  | none => rfl
  | some child =>
    cases hf : find child (this ++ [(route.mid c).view]) route (route.next c) ctx with
    | error e => simp [hf, bind, Except.bind]
    | ok r => simp [hf, bind, Except.bind, pure, Except.pure]

/-- **A lookup is a search over segments**, unless it starts at the root with
the request `/` and there is a child of that name. -/
theorem find_eq_search {route : StringPiece} (h : route.Valid) (n : RouteTableNode H)
    (this : NodePtr) (c : Nat) (hc : c ≤ route.length)
    (hroot : c = 0 → route.view = [slash] → OrdMap.get? [slash] n.children = none)
    (ctx : RouteCtx) :
    find n this route c ctx = search route (cuts route c) n this ctx := by
  induction n using Trie.ind generalizing this c ctx with
  | h vh cs ih =>
    rw [find]
    by_cases hempty : cs.isEmpty
    · -- a node without children ends the lookup wherever the cursor stands
      rw [if_pos (Or.inr hempty)]
      cases hcuts : cuts route c <;> simp [search, hempty]
    -- at the end of the path: this node if it has handlers, or its child `*`
    · by_cases hend : c = route.length
      · rw [cuts_of_le (by omega), search]
        by_cases hmap : vh.verbHandlerMap = []
        · rw [if_neg (by simp [hmap, hempty]), if_pos hend, if_neg (by simp [hmap, hempty])]
          rfl
        · rw [if_pos (Or.inl ⟨hend, hmap⟩), if_pos (Or.inl (by simpa using hmap))]
          rfl
      · have hlt : c < route.length := by omega
        have hnext : route.next c = 0 → False := fun h0 => by
          have := route.lt_next hlt
          omega
        have hdescend := (descend_eq h this hlt ctx).trans
          (searchChildren_congr (fun k child hmem => by
            funext this' ctx'
            exact ih k child hmem this' _ (h.next_le hlt) (fun h0 => absurd h0 hnext) ctx') ctx)
        have hsearch : search route (cuts route c) (.node vh cs) this ctx
            = searchChildren route ⟨(route.mid c).view, cStr (route.ptr.drop (route.next c))⟩ cs
              this (search route (cuts route (route.next c))) ctx := by
          rw [cuts_of_lt hlt, search, if_neg (by simpa using hempty)]
          rfl
        rw [if_neg (by simp [hend, hempty]), if_neg hend, hsearch]
        split
        · next hslash =>
          -- the special case for `/` finds no child of that name and falls through
          have hget := hroot hslash.1 hslash.2
          rw [Trie.children_node, ← hslash.2] at hget
          rw [findChild_eq, hget]
          exact hdescend
        · exact hdescend

/-- The request `/` ends at the child `/` of the root, if that is a leaf. -/
theorem find_root {route : StringPiece} (h : route.Valid) (hview : route.view = [slash])
    {n child : RouteTableNode H} (hget : OrdMap.get? [slash] n.children = some child)
    (hleaf : child.children = []) (this : NodePtr) (ctx : RouteCtx) :
    find n this route 0 ctx = pure (⟨some (this ++ [[slash]]), route, child.val⟩, ctx) := by
  cases n with
  | node vh cs =>
    rw [Trie.children_node] at hget
    have hlen : route.length = 1 := by
      rw [← h.length_view, hview]; rfl
    have hcs : cs.isEmpty = false := by
      cases cs with
      | nil => simp at hget
      | cons e cs => rfl
    have hchild : find child (this ++ [[slash]]) route 1 ctx
        = pure (⟨some (this ++ [[slash]]), route, child.val⟩, ctx) := by
      cases child with
      | node v cs' =>
        rw [Trie.children_node] at hleaf
        rw [find, if_pos (Or.inr (by simp [hleaf]))]
        rfl
    rw [find, if_neg (by simp [hlen, hcs]), if_neg (by omega), if_pos ⟨rfl, hview⟩, hview,
      findChild_eq, hget]
    simp only [hchild]
    rfl

end RouteTableNode

end Wfrest
