import Wfrest.Route.Lookup

/-!
# Patterns, and soundness of the lookup

A route is a pattern for request paths (`RouteMatches`). `find_sound_iff` says
when the node that a lookup returns belongs to a route that matches the path: at
least one route has to be registered, and the search must not stop at a leaf
while segments of the request are left over (`StopsShort`). The test
`children_.empty()` of `find` ends the search there without a look at the cursor.
-/

namespace Wfrest

variable {H : Type}

open RouteTableNode

/-! ### Patterns -/

/-- The segments of a request match the keys of a route. `bare` says whether a
final `*` may consume no segment at all. -/
inductive SegMatch (bare : Bool) : List Bytes → List Bytes → Prop
  | nil : SegMatch bare [] []
  | literal {k : Bytes} {segs keys : List Bytes} :
      isParam k = false → isWildcard k = false → SegMatch bare segs keys →
      SegMatch bare (k :: segs) (k :: keys)
  | param {k s : Bytes} {segs keys : List Bytes} :
      isParam k = true → SegMatch bare segs keys → SegMatch bare (s :: segs) (k :: keys)
  | wildcard {k s : Bytes} {segs : List Bytes} :
      isWildcard k = true → wildcardPrefix k <+: s → SegMatch bare (s :: segs) [k]
  | star : bare = true → SegMatch bare [] [[star]]

/-- The route matches the request path. -/
def RouteMatches (bare : Bool) (route path : Bytes) : Prop :=
  if route = [slash] then path = [slash] else SegMatch bare (reqSegs path) (routeKeys route)

/-- A segment that ends in `*` is the last one. -/
def WildcardFinal (keys : List Bytes) : Prop := ∀ k ∈ keys.dropLast, isWildcard k = false

instance (keys : List Bytes) : Decidable (WildcardFinal keys) :=
  inferInstanceAs (Decidable (∀ k ∈ keys.dropLast, isWildcard k = false))

theorem isWildcard_of_isParam {k : Bytes} (h : isParam k = true) : isWildcard k = false := by
  unfold isParam at h
  simp only [Bool.and_eq_true, decide_eq_true_eq] at h
  simp [isWildcard, h.2, rbrace, star]

theorem isWildcard_star : isWildcard [star] = true := by decide

/-- A segment matches itself taken as a key. -/
theorem wildcardPrefix_isPrefix (k : Bytes) : wildcardPrefix k <+: k := List.dropLast_prefix k

/-- A key that is not a wildcard consumes one segment, its own text or any. -/
theorem SegMatch.of_cons_cons {bare : Bool} {s k : Bytes} {segs keys : List Bytes}
    (hk : isWildcard k = false) (h : SegMatch bare (s :: segs) (k :: keys)) :
    (s = k ∨ isParam k = true) ∧ SegMatch bare segs keys := by
  cases h with
  | literal _ _ h => exact ⟨Or.inl rfl, h⟩
  | param hp h => exact ⟨Or.inr hp, h⟩
  | wildcard hw _ => simp [hk] at hw

theorem not_segMatch_cons_nil {bare : Bool} {s : Bytes} {segs : List Bytes} :
    ¬ SegMatch bare (s :: segs) [] := nofun

/-- No segment of a request is the key of `/`. -/
theorem not_segMatch_root {bare : Bool} (path : Bytes) :
    ¬ SegMatch bare (reqSegs path) [[slash]] := by
  intro h
  generalize hsegs : reqSegs path = segs at h
  have hno : [slash] ∉ segs := fun hmem =>
    slash_notMem_of_mem_reqSegs (hsegs ▸ hmem) (List.mem_singleton_self slash)
  cases h with
  | literal => exact hno List.mem_cons_self
  | param hp => simp [isParam] at hp
  | wildcard hw => simp [isWildcard, slash, star] at hw

/-- What the loop over the children stops at. -/
theorem candidate_iff {s : Bytes} {e : Bytes × RouteTableNode H} :
    candidate s e = true ↔
      (isWildcard e.1 = true ∧ wildcardPrefix e.1 <+: s) ∨ isParam e.1 = true := by
  simp [candidate]

/-! ### Stopping short -/

namespace RouteTableNode

/-- The search arrives at a leaf while segments are left. A segment that is the
text of a wildcard key is not counted: the wildcard consumes what is left. -/
def StopsShort : List Bytes → RouteTableNode H → Prop
  | [], _ => False
  | s :: rest, n =>
    n.children = [] ∨
    (∃ child ∈ OrdMap.get? s n.children, isWildcard s = false ∧ StopsShort rest child) ∨
    ((∀ child ∈ OrdMap.get? s n.children, GivesUp rest child) ∧
      ∃ e ∈ n.children.find? (candidate s),
        isWildcard e.1 = false ∧ (paramPiece e.1).asString.isOk ∧ StopsShort rest e.2)

instance StopsShort.decidable :
    ∀ (segs : List Bytes) (n : RouteTableNode H), Decidable (StopsShort segs n)
  | [], _ => inferInstanceAs (Decidable False)
  | s :: rest, n =>
    have : ∀ child, Decidable (StopsShort rest child) := StopsShort.decidable rest
    decidable_of_iff (n.children.isEmpty ∨
      (∃ child ∈ OrdMap.get? s n.children, isWildcard s = false ∧ StopsShort rest child) ∨
      ((∀ child ∈ OrdMap.get? s n.children, GivesUp rest child) ∧
        ∃ e ∈ n.children.find? (candidate s),
          isWildcard e.1 = false ∧ (paramPiece e.1).asString.isOk ∧ StopsShort rest e.2))
      (by simp [StopsShort])

/-- Wildcard keys lead to leaves. -/
def WildcardLeaf (n : RouteTableNode H) : Prop :=
  ∀ q k m, isWildcard k = true → Trie.sub? (q ++ [k]) n = some m → m.children = []

theorem WildcardLeaf.child {n child : RouteTableNode H} {k : Bytes} (h : WildcardLeaf n)
    (hget : OrdMap.get? k n.children = some child) : WildcardLeaf child := by
  intro q k' m hk' hsub
  refine h (k :: q) k' m hk' ?_
  rw [List.cons_append, Trie.sub?_cons, hget]
  exact hsub

theorem WildcardLeaf.leaf {n child : RouteTableNode H} {k : Bytes} (h : WildcardLeaf n)
    (hk : isWildcard k = true) (hget : OrdMap.get? k n.children = some child) :
    child.children = [] := by
  refine h [] k child hk ?_
  rw [List.nil_append, Trie.sub?_singleton, hget]

/-- A leaf ends every search. -/
theorem reach_leaf {n : RouteTableNode H} (h : n.children = []) (segs : List Bytes) :
    reach segs n = .ok (some ([], n)) := by
  cases segs <;> simp [reach, h, pure, Except.pure]

/-- The node that a search ends at holds a handler or is a leaf. -/
theorem endpoint_of_reach {segs : List Bytes} {n : RouteTableNode H} {r : Hit H}
    (hwf : Trie.WF n) (hleaf : WildcardLeaf n) (h : reach segs n = .ok (some r)) :
    r.2.val.verbHandlerMap ≠ [] ∨ r.2.children = [] := by
  induction segs generalizing n r with
  | nil =>
    rw [reach] at h
    split at h
    · next hend =>
      simp only [pure, Except.pure, Except.ok.injEq, Option.some.injEq] at h
      rw [← h]
      simpa using hend
    · cases hget : OrdMap.get? [star] n.children with
      | none => simp [hget, pure, Except.pure] at h
      | some child =>
        simp only [hget, pure, Except.pure, Option.map_some, Except.ok.injEq,
          Option.some.injEq] at h
        rw [← h]
        exact Or.inr (hleaf.leaf isWildcard_star hget)
  | cons s rest ih =>
    have hunder : ∀ {k child r'}, OrdMap.get? k n.children = some child →
        reach rest child = .ok (some r') →
        -- where the search ends does not depend on the key of the step
        (Hit.under k r').2.val.verbHandlerMap ≠ [] ∨ (Hit.under k r').2.children = [] :=
      fun {k child r'} hget hr' =>
        ih (r := r') (hwf.child (hwf.sorted.get?_eq_some_iff.mp hget)) (hleaf.child hget) hr'
    rcases reach_cons_eq_some_iff.mp h with ⟨hnil, rfl⟩ | ⟨child, r', hget, hr', rfl⟩ |
      ⟨-, k, child, hfind, hcase⟩
    · exact Or.inr hnil
    · exact hunder hget hr'
    · have hget : OrdMap.get? k n.children = some child :=
        hwf.sorted.get?_eq_some_iff.mpr (List.mem_of_find?_eq_some hfind)
      rcases hcase with ⟨hw, rfl⟩ | ⟨-, -, r', hr', rfl⟩
      · exact Or.inr (hleaf.leaf hw hget)
      · exact hunder hget hr'

/-- A search that does not stop short ends at keys that match the segments. -/
theorem segMatch_of_reach {segs : List Bytes} {n : RouteTableNode H} {r : Hit H}
    (hwf : Trie.WF n) (hleaf : WildcardLeaf n) (h : reach segs n = .ok (some r))
    (hshort : ¬ StopsShort segs n) : SegMatch true segs r.1 := by
  induction segs generalizing n r with
  | nil =>
    rw [reach] at h
    split at h
    · simp only [pure, Except.pure, Except.ok.injEq, Option.some.injEq] at h
      rw [← h]
      exact .nil
    · cases hget : OrdMap.get? [star] n.children with
      | none => simp [hget, pure, Except.pure] at h
      | some child =>
        simp only [hget, pure, Except.pure, Option.map_some, Except.ok.injEq,
          Option.some.injEq] at h
        rw [← h]
        exact .star rfl
  | cons s rest ih =>
    rw [StopsShort, not_or, not_or] at hshort
    obtain ⟨hne, hexact, hparam⟩ := hshort
    rcases reach_cons_eq_some_iff.mp h with ⟨hnil, -⟩ | ⟨child, r', hget, hr', rfl⟩ |
      ⟨hdead, k, child, hfind, hcase⟩
    · exact absurd hnil hne
    · by_cases hw : isWildcard s = true
      · -- the segment is spelled like a wildcard key, whose node is a leaf
        rw [reach_leaf (hleaf.leaf hw hget)] at hr'
        cases hr'
        exact .wildcard hw (wildcardPrefix_isPrefix s)
      · rw [Bool.not_eq_true] at hw
        have hrest : SegMatch true rest r'.1 :=
          ih (hwf.child (hwf.sorted.get?_eq_some_iff.mp hget)) (hleaf.child hget) hr'
            fun hs => hexact ⟨child, hget, hw, hs⟩
        by_cases hp : isParam s = true
        · exact .param hp hrest
        · exact .literal (by simpa using hp) hw hrest
    · have hcand := candidate_iff.mp (List.find?_some hfind)
      rcases hcase with ⟨hw, rfl⟩ | ⟨hw, hok, r', hr', rfl⟩
      -- the first candidate is a wildcard that takes the rest, or a parameter
      · rcases hcand with ⟨-, hpre⟩ | hp
        · exact .wildcard hw hpre
        · simp [isWildcard_of_isParam hp] at hw
      · have hmem := List.mem_of_find?_eq_some hfind
        have hp : isParam k = true := by
          rcases hcand with ⟨hw', -⟩ | hp
          · simp [hw] at hw'
          · exact hp
        refine .param hp (ih (hwf.child hmem)
          (hleaf.child (hwf.sorted.get?_eq_some_iff.mpr hmem)) hr' fun hs => hparam ⟨?_, ?_⟩)
        · exact fun c hc => (reach_eq_none_iff rest c).mp (hdead c hc)
        · exact ⟨(k, child), hfind, hw, hok, hs⟩

/-- A search that stops short ends at a node, and its keys do not match. -/
theorem exists_reach_of_stopsShort {segs : List Bytes} {n : RouteTableNode H}
    (h : StopsShort segs n) :
    ∃ r, reach segs n = .ok (some r) ∧ ∀ bare, ¬ SegMatch bare segs r.1 := by
  induction segs generalizing n with
  | nil => exact absurd h id
  | cons s rest ih =>
    rcases h with hnil | ⟨child, hget, hw, hs⟩ | ⟨hdead, ⟨k, child⟩, hfind, hw, hok, hs⟩
    · exact ⟨([], n), reach_leaf hnil _, fun _ => not_segMatch_cons_nil⟩
    · obtain ⟨r, hr, hno⟩ := ih hs
      refine ⟨r.under s, reach_cons_eq_some_iff.mpr (Or.inr (Or.inl ⟨child, r, hget, hr, rfl⟩)), ?_⟩
      exact fun bare hm => hno bare (SegMatch.of_cons_cons hw hm).2
    · obtain ⟨r, hr, hno⟩ := ih hs
      refine ⟨r.under k, reach_cons_eq_some_iff.mpr (Or.inr (Or.inr ⟨?_, k, child, hfind,
        Or.inr ⟨hw, hok, r, hr, rfl⟩⟩)), ?_⟩
      · exact fun c hc => (reach_eq_none_iff rest c).mpr (hdead c hc)
      · exact fun bare hm => hno bare (SegMatch.of_cons_cons hw hm).2

end RouteTableNode

/-! ### Soundness -/

namespace Router

/-- Whatever node a lookup of `p` returns is that of a registered route which
matches the path. -/
def Sound (ops : List (RouterOp H)) (p : StringPiece) : Prop :=
  ∀ ctx it ctx' q, (ofOps ops).routesMap.find p ctx = .ok (it, ctx') → it.ptr = some q →
    ∃ op ∈ ops, op.keys = q ∧ RouteMatches true op.route p.view

/-- The lookup of a path stops at a leaf while segments of it are left. -/
def StopsShort (ops : List (RouterOp H)) (path : Bytes) : Prop :=
  ¬ (path = [slash] ∧ ∃ op ∈ ops, op.route = [slash]) ∧
    RouteTableNode.StopsShort (reqSegs path) (tree ops)

instance (ops : List (RouterOp H)) (path : Bytes) : Decidable (StopsShort ops path) :=
  inferInstanceAs (Decidable (_ ∧ _))

theorem wildcardLeaf_tree {ops : List (RouterOp H)} (hops : ∀ op ∈ ops, WildcardFinal op.keys) :
    WildcardLeaf (tree ops) := by
  intro q k m hk hsub
  rw [Trie.children_eq_nil_iff hsub]
  intro j hhas
  rcases (has_tree ops _).mp hhas with h | ⟨op, hop, t, ht⟩
  · simp at h
  · -- a further key after a wildcard one
    have hmem : k ∈ op.keys.dropLast := by
      rw [← ht, List.append_assoc, List.append_assoc, List.dropLast_append_of_ne_nil (by simp)]
      refine List.mem_append_right _ ?_
      rw [List.singleton_append, List.dropLast_cons_of_ne_nil (by simp)]
      exact List.mem_cons_self
    simp [hops op hop k hmem] at hk

theorem has_root_iff_route (ops : List (RouterOp H)) :
    Trie.Has [[slash]] (tree ops) ↔ ∃ op ∈ ops, op.route = [slash] := by
  rw [has_root_iff]
  simp only [keys_eq_root_iff]

/-- A lookup with an address, in terms of `findPtr`. -/
theorem findPtr_of_find {ops : List (RouterOp H)} {p : StringPiece} (hp : p.Valid)
    {ctx ctx' : RouteCtx} {it : Iterator H}
    (h : (ofOps ops).routesMap.find p ctx = .ok (it, ctx')) :
    findPtr ops p.view = .ok it.ptr := by
  rw [← ptr_find ops hp ctx, h]
  rfl

/-- An address that the lookup finds comes from some iterator. -/
theorem exists_find_of_findPtr {ops : List (RouterOp H)} {p : StringPiece} (hp : p.Valid)
    (ctx : RouteCtx) {o : Option NodePtr} (h : findPtr ops p.view = .ok o) :
    ∃ it ctx', (ofOps ops).routesMap.find p ctx = .ok (it, ctx') ∧ it.ptr = o := by
  rw [← ptr_find ops hp ctx] at h
  cases hf : (ofOps ops).routesMap.find p ctx with
  | error e => simp [hf, Except.map] at h
  | ok r =>
    rw [hf] at h
    exact ⟨r.1, r.2, rfl, by simpa [Except.map] using h⟩

/-- **Soundness, and where it fails.** -/
theorem find_sound_iff (ops : List (RouterOp H)) (p : StringPiece) (hp : p.Valid)
    (hops : ∀ op ∈ ops, WildcardFinal op.keys) :
    Sound ops p ↔ ops ≠ [] ∧ ¬ StopsShort ops p.view := by
  have hwf := wf_tree ops
  have hleaf := wildcardLeaf_tree hops
  constructor
  · intro hsound
    have hfound : ∀ {r : Hit H}, ¬ (p.view = [slash] ∧ Trie.Has [[slash]] (tree ops)) →
        reach (reqSegs p.view) (tree ops) = .ok (some r) →
        ∃ op ∈ ops, op.keys = r.1 ∧ RouteMatches true op.route p.view := by
      intro r hroot hr
      have hptr : findPtr ops p.view = .ok (some r.1) := by
        rw [findPtr, if_neg hroot, hr]; rfl
      obtain ⟨it, ctx', hfind, hit⟩ := exists_find_of_findPtr hp RouteCtx.init hptr
      exact hsound _ it ctx' r.1 hfind hit
    refine ⟨?_, fun hshort => ?_⟩
    · rintro rfl
      obtain ⟨op, hop, -⟩ := hfound (r := ([], Trie.empty))
        (fun h => by simp [Trie.Has, Trie.sub?_cons, Trie.empty] at h)
        (reach_leaf rfl _)
      simp at hop
    · obtain ⟨hroot, hshort⟩ := hshort
      -- stopping short ends at a node whose keys no route matches the path with
      rw [← has_root_iff_route] at hroot
      obtain ⟨r, hr, hno⟩ := exists_reach_of_stopsShort hshort
      obtain ⟨op, hop, hkeys, hmatch⟩ := hfound hroot hr
      unfold RouteMatches at hmatch
      split at hmatch
      · next hroute =>
        exact hroot ⟨hmatch, (has_root_iff_route ops).mpr ⟨op, hop, hroute⟩⟩
      · refine hno true ?_
        rw [← hkeys]
        exact hmatch
  · rintro ⟨hne, hshort⟩ ctx it ctx' q hfind hq
    have hptr := findPtr_of_find hp hfind
    rw [hq, findPtr] at hptr
    split at hptr
    · next hroot =>
      -- the node of `/`, found by the special case for the path `/`
      obtain ⟨op, hop, hroute⟩ := (has_root_iff_route ops).mp hroot.2
      simp only [Except.ok.injEq, Option.some.injEq] at hptr
      refine ⟨op, hop, ?_, ?_⟩
      · rw [← hptr]
        exact (keys_eq_root_iff op).mpr hroute
      · rw [RouteMatches, if_pos hroute]
        exact hroot.1
    · next hroot =>
      have hroot' : ¬ (p.view = [slash] ∧ ∃ op ∈ ops, op.route = [slash]) := by
        rwa [← has_root_iff_route]
      cases hr : reach (reqSegs p.view) (tree ops) with
      | error e => simp [hr, Except.map] at hptr
      | ok o =>
        cases o with
        | none => simp [hr, Except.map] at hptr
        | some r =>
          simp only [hr, Except.map, Option.map_some, Except.ok.injEq, Option.some.injEq] at hptr
          have hmatch : SegMatch true (reqSegs p.view) r.1 :=
            segMatch_of_reach hwf hleaf hr fun hs => hshort ⟨hroot', hs⟩
          have hsub := sub?_of_reach hwf hr
          -- the node was registered: it has a handler, or it is a leaf of a tree with routes
          have hop : ∃ op ∈ ops, op.keys = q := by
            rcases endpoint_of_reach hwf hleaf hr with hmap | hnil
            · refine exists_op_of_valAt (q := q) ?_
              rwa [← hptr, Trie.valAt_of_sub? hsub]
            · exact exists_op_of_leaf (hptr ▸ hsub) hnil hne
          obtain ⟨op, hop, hkeys⟩ := hop
          refine ⟨op, hop, hkeys, ?_⟩
          unfold RouteMatches
          split
          · next hroute =>
            have hq' : r.1 = [[slash]] := by
              rw [hptr, ← hkeys]
              exact (keys_eq_root_iff op).mpr hroute
            rw [hq'] at hmatch
            exact absurd hmatch (not_segMatch_root p.view)
          · rw [show routeKeys op.route = op.keys from rfl, hkeys, ← hptr]
            exact hmatch

/-- A parameter route and a request with one segment for it. -/
theorem find_sound_param :
    Sound [RouterOp.handle (ascii "/api/\x7bid\x7d") 0 () .GET]
      (StringPiece.ofString (ascii "/api/7")) :=
  (find_sound_iff _ _ (StringPiece.valid_ofString _) (by decide +kernel)).mpr
    ⟨by simp, by decide +kernel⟩

/-- The route `/a` is returned for the request `/a/b`. -/
theorem not_sound_leaf :
    ¬ Sound [RouterOp.handle (ascii "/a") 0 () .GET] (StringPiece.ofString (ascii "/a/b")) := by
  intro h
  have hptr : findPtr [RouterOp.handle (ascii "/a") 0 () .GET]
      (StringPiece.ofString (ascii "/a/b")).view = .ok (some [ascii "a"]) := by
    decide +kernel
  obtain ⟨it, ctx', hfind, hit⟩ :=
    exists_find_of_findPtr (StringPiece.valid_ofString _) RouteCtx.init hptr
  obtain ⟨op, hop, hkeys, hmatch⟩ := h _ it ctx' _ hfind hit
  have hroute : op.route = ascii "/a" := by
    rw [List.mem_singleton.mp hop]; decide
  rw [RouteMatches, if_neg (by rw [hroute]; decide),
    show routeKeys op.route = [ascii "a"] from hkeys, StringPiece.view_ofString,
    show reqSegs (ascii "/a/b") = [ascii "a", ascii "b"] by decide +kernel] at hmatch
  exact not_segMatch_cons_nil (SegMatch.of_cons_cons (by decide) hmatch).2

end Router

end Wfrest
