import Wfrest.Route.Dispatch

/-!
# The order of registration

Two sequences of `handle` calls that are permutations of each other fill two
trees with the same nodes and, node by node, the same handlers: the calls that
reach a node differ in their verbs, and a map from verbs to handlers does not
remember in which order it was filled. What does depend on the order is
the route string and the queue that a node keeps from its last registration.
`unpathed` takes these away, and then the trees are equal (`map_unpathed_tree`).

A lookup never reads what `unpathed` takes away (`find_map`), so a call answers
the same up to the `full_path` of the request (`call_perm`).
-/

namespace Wfrest

variable {H : Type}

/-- The answer of a call without `full_path`: the status, the handler, the
`route_params` and the `match_path`. -/
def CallResult.unpathed : CallResult H → CallResult H
  | run handler _ routeParams matchPath => run handler [] routeParams matchPath
  | StatusRouteVerbNotImplment => StatusRouteVerbNotImplment
  | StatusRouteNotFound => StatusRouteNotFound

/-- The handlers of a node alone. -/
def VerbHandler.unpathed (vh : VerbHandler H) : VerbHandler H := ⟨vh.verbHandlerMap, [], 0⟩

namespace RouteTableNode

/-! ### Lookups in a tree with other values -/

/-- The same position with `f` applied to the value that comes with it. -/
def Iterator.map (f : VerbHandler H → VerbHandler H) (it : Iterator H) : Iterator H :=
  ⟨it.ptr, it.first, f it.second⟩

/-- The result of a lookup with `f` applied to the value. -/
def mapResult (f : VerbHandler H → VerbHandler H) (r : Iterator H × RouteCtx) :
    Iterator H × RouteCtx :=
  (r.1.map f, r.2)

section Map

variable {f : VerbHandler H → VerbHandler H}

private theorem find?_map_children (s : Bytes) (children : List (Bytes × RouteTableNode H)) :
    (children.map fun e => (e.1, Trie.map f e.2)).find? (candidate s) =
      (children.find? (candidate s)).map fun e => (e.1, Trie.map f e.2) := by
  rw [List.find?_map]
  rfl

private theorem searchParam_map (hdef : f default = default) (route : StringPiece) (s : Cut)
    (children : List (Bytes × RouteTableNode H)) (this : NodePtr)
    {go : RouteTableNode H → NodePtr → RouteCtx → Except StdException (Iterator H × RouteCtx)}
    (hgo : ∀ n this ctx, go (Trie.map f n) this ctx = (go n this ctx).map (mapResult f))
    (ctx : RouteCtx) :
    searchParam route s (children.map fun e => (e.1, Trie.map f e.2)) this go ctx =
      (searchParam route s children this go ctx).map (mapResult f) := by
  unfold searchParam
  rw [find?_map_children]
  cases children.find? (candidate s.seg) with
  | none =>
    change Except.ok _ = Except.ok _
    rw [mapResult, Iterator.map, Iterator.fin, hdef]
  | some e =>
    obtain ⟨k, child⟩ := e
    simp only [Option.map_some]
    split
    · simp [pure, Except.pure, Except.map, mapResult, Iterator.map]
    · cases (paramPiece k).asString with
      | error e => rfl
      | ok name => exact hgo child _ _

/-- **One search.** It looks at the keys of the tree and at which nodes have
handlers, so `f` may change the rest of the values. -/
theorem search_map (hmap : ∀ vh, (f vh).verbHandlerMap = vh.verbHandlerMap)
    (hdef : f default = default) (route : StringPiece) (cs : List Cut) (n : RouteTableNode H)
    (this : NodePtr) (ctx : RouteCtx) :
    search route cs (Trie.map f n) this ctx = (search route cs n this ctx).map (mapResult f) := by
  induction cs generalizing n this ctx with
  | nil =>
    have hempty : (Trie.map f n).children.isEmpty = n.children.isEmpty := by
      rw [Trie.children_map, List.isEmpty_map]
    rw [search, search, Trie.val_map, hmap, hempty]
    split
    · rfl
    · rw [Trie.children_map, OrdMap.get?_map]
      cases OrdMap.get? [star] n.children with
      | none => rfl
      | some child => simp [pure, Except.pure, Except.map, mapResult, Iterator.map]
  | cons c cs ih =>
    have hempty : (Trie.map f n).children.isEmpty = n.children.isEmpty := by
      rw [Trie.children_map, List.isEmpty_map]
    have hloop := fun ctx => searchParam_map hdef route c n.children this ih ctx
    rw [search, search, hempty, Trie.val_map]
    split
    · rfl
    · rw [Trie.children_map]
      unfold searchChildren
      rw [OrdMap.get?_map]
      cases OrdMap.get? c.seg n.children with
      | none => exact hloop ctx
      | some child =>
        simp only [Option.map_some]
        -- the loop follows only when the child gives up, and `f` does not change that
        rw [ih]
        cases search route cs child (this ++ [c.seg]) ctx with
        | error e => rfl
        | ok r =>
          change (if r.1.ptr.isSome then _ else _) = Except.map _ (if r.1.ptr.isSome then _ else _)
          split
          · rfl
          · exact hloop r.2

/-- **A lookup** from the root of a table. -/
theorem find_map (hmap : ∀ vh, (f vh).verbHandlerMap = vh.verbHandlerMap)
    (hdef : f default = default) {route : StringPiece} (h : route.Valid) {n : RouteTableNode H}
    (hleaf : ∀ c, OrdMap.get? [slash] n.children = some c → c.children = []) (ctx : RouteCtx) :
    find (Trie.map f n) [] route 0 ctx = (find n [] route 0 ctx).map (mapResult f) := by
  have hget : OrdMap.get? [slash] (Trie.map f n).children =
      (OrdMap.get? [slash] n.children).map (Trie.map f) := by
    rw [Trie.children_map, OrdMap.get?_map]
  by_cases hroot : route.view = [slash] ∧ ∃ c, OrdMap.get? [slash] n.children = some c
  · -- the request `/` ends at the node of `/` in both trees
    obtain ⟨hview, c, hc⟩ := hroot
    rw [hc] at hget
    rw [find_root h hview hc (hleaf c hc), find_root h hview hget (by simp [hleaf c hc])]
    simp [pure, Except.pure, Except.map, mapResult, Iterator.map]
  · have hnone : (0 : Nat) = 0 → route.view = [slash] →
        OrdMap.get? [slash] n.children = none := by
      intro _ hview
      rw [← Option.not_isSome_iff_eq_none, Option.isSome_iff_exists]
      exact fun hc => hroot ⟨hview, hc⟩
    rw [find_eq_search h n [] 0 (Nat.zero_le _) hnone,
      find_eq_search h (Trie.map f n) [] 0 (Nat.zero_le _) (fun h0 hview => by
        rw [hget, hnone h0 hview]
        rfl),
      search_map hmap hdef]

end Map

end RouteTableNode

/-! ### What a call reads -/

namespace Router

open RouteTableNode

/-- The call, in terms of the lookup. -/
theorem call_eq (r : Router H) (verb : Verb) (path : Bytes) :
    r.call verb path = (find r.routesMap.root [] (callPiece path) 0 RouteCtx.init).map fun res =>
      if res.1.ptr.isSome then answer verb res.1.second res.2 else .StatusRouteNotFound := by
  unfold call
  change (find r.routesMap.root [] (callPiece path) 0 RouteCtx.init >>= _) = _
  cases find r.routesMap.root [] (callPiece path) 0 RouteCtx.init with
  | error e => rfl
  | ok res =>
    obtain ⟨it, ctx⟩ := res
    simp only [bind, Except.bind, Except.map]
    cases it.ptr with
    | none => rfl
    | some q =>
      unfold answer
      cases OrdMap.get? verb it.second.verbHandlerMap <;>
        cases OrdMap.get? Verb.ANY it.second.verbHandlerMap <;> rfl

theorem unpathed_answer (verb : Verb) (vh : VerbHandler H) (ctx : RouteCtx) :
    (answer verb vh ctx).unpathed = (answer verb vh.unpathed ctx).unpathed := by
  have hmap : vh.unpathed.verbHandlerMap = vh.verbHandlerMap := rfl
  unfold answer
  rw [hmap]
  cases OrdMap.get? verb vh.verbHandlerMap <;>
    cases OrdMap.get? Verb.ANY vh.verbHandlerMap <;> rfl

/-- **A call reads the handlers of the tree only**, apart from the `full_path`. -/
theorem unpathed_call {ops ops' : List (RouterOp H)}
    (h : Trie.map VerbHandler.unpathed (tree ops) = Trie.map VerbHandler.unpathed (tree ops'))
    (verb : Verb) (path : Bytes) :
    ((ofOps ops).call verb path).map CallResult.unpathed =
      ((ofOps ops').call verb path).map CallResult.unpathed := by
  have hread : ∀ ops : List (RouterOp H), ((ofOps ops).call verb path).map CallResult.unpathed =
      (find (Trie.map VerbHandler.unpathed (tree ops)) [] (callPiece path) 0 RouteCtx.init).map
        fun res => (if res.1.ptr.isSome then answer verb res.1.second res.2
          else .StatusRouteNotFound).unpathed := by
    intro ops
    -- the node of `/` is a leaf in every tree of routes, as `find_map` asks
    have hleaf : ∀ c, OrdMap.get? [slash] (tree ops).children = some c → c.children = [] :=
      fun c hc => leaf_of_root_child (by rw [Trie.sub?_singleton, hc])
    rw [call_eq,
      find_map (f := VerbHandler.unpathed) (fun _ => rfl) rfl (valid_callPiece path) hleaf]
    change ((find (tree ops) [] (callPiece path) 0 RouteCtx.init).map _).map _ = _
    cases find (tree ops) [] (callPiece path) 0 RouteCtx.init with
    | error e => rfl
    | ok res =>
      change Except.ok _ = Except.ok _
      cases hptr : res.1.ptr with
      | none => simp [mapResult, Iterator.map, hptr]
      | some q =>
        simp only [mapResult, Iterator.map, hptr, Option.isSome_some, if_true]
        rw [unpathed_answer]
  rw [hread, hread, h]

end Router

/-! ### Permuted registrations -/

namespace HandleCall

/-- The handlers of a node are kept in the order of their verbs. -/
theorem sorted_valAt_tree (calls : List (HandleCall H)) (q : NodePtr) :
    OrdMap.Sorted (Trie.valAt q (Router.tree (calls.map op))).verbHandlerMap := by
  have hfold : ∀ (l : List (HandleCall H)) (vh : VerbHandler H),
      OrdMap.Sorted vh.verbHandlerMap →
      OrdMap.Sorted ((l.map op).foldl (fun vh op => op.effect vh) vh).verbHandlerMap := by
    intro l
    induction l with
    | nil => exact fun vh h => h
    | cons c l ih =>
      intro vh hvh
      refine ih _ ?_
      change OrdMap.Sorted
        (Router.registerVerb _ c.computeQueueId c.handler c.verb vh).verbHandlerMap
      unfold Router.registerVerb
      split
      · exact hvh
      · exact hvh.insert
  rw [Router.valAt_tree, opsAt_map]
  exact hfold _ _ OrdMap.sorted_nil

/-- No two calls have the same verb and the same segments. -/
def Distinct (calls : List (HandleCall H)) : Prop :=
  calls.Pairwise fun c d => ¬ (c.verb = d.verb ∧ c.keys = d.keys)

/-- `/` is registered under at most one verb. -/
def RootOnce (calls : List (HandleCall H)) : Prop :=
  ∀ c ∈ calls, ∀ d ∈ calls, c.op.route = [slash] → d.op.route = [slash] → c.verb = d.verb

/-- What one element of a list satisfies at most is found in any order. -/
private theorem find?_perm {α : Type} {p : α → Bool} {l l' : List α} (hperm : l.Perm l')
    (huniq : l.Pairwise fun a b => ¬ (p a = true ∧ p b = true)) : l.find? p = l'.find? p := by
  have hlen : (l.filter p).length ≤ 1 := by
    have hpair : (l.filter p).Pairwise fun a b => ¬ (p a = true ∧ p b = true) :=
      huniq.sublist List.filter_sublist
    match hf : l.filter p with
    | [] => exact Nat.zero_le 1
    | [a] => exact le_refl 1
    | a :: b :: rest =>
      rw [hf] at hpair
      have hmem : ∀ x, x ∈ a :: b :: rest → p x = true := fun x hx =>
        (List.mem_filter.mp (hf ▸ hx)).2
      exact absurd ⟨hmem a (by simp), hmem b (by simp)⟩
        ((List.pairwise_cons.mp hpair).1 b List.mem_cons_self)
  have hfilter : l.filter p = l'.filter p := by
    have hp := hperm.filter p
    match hf : l.filter p with
    | [] => rw [hf] at hp; exact (List.nil_perm.mp hp).symm
    | [a] => rw [hf] at hp; exact List.singleton_perm.mp hp
    | a :: b :: rest => rw [hf] at hlen; simp at hlen
  rw [← List.head?_filter, hfilter, List.head?_filter]

/-- The calls that reach a node have different verbs, so each verb's handler can be
looked up in any order. -/
theorem find?_callsAt_perm {calls calls' : List (HandleCall H)} (hperm : calls.Perm calls')
    (hdist : Distinct calls) (hroot : RootOnce calls) (q : NodePtr) (v : Verb) :
    (callsAt q calls).find? (fun c => c.verb = v) =
      (callsAt q calls').find? fun c => c.verb = v := by
  by_cases hq : q = [[slash]]
  · -- at most one call is for `/`, so it is the first one
    have hslash : ∀ c : HandleCall H, c.keys = [[slash]] → c.op.route = [slash] :=
      fun c hc => (Router.keys_eq_root_iff c.op).mp hc
    have huniq : calls.Pairwise fun c d =>
        ¬ (decide (c.keys = q) = true ∧ decide (d.keys = q) = true) := by
      refine List.Pairwise.imp_of_mem (fun {c d} hc hd hcd h => ?_) hdist
      have hcq : c.keys = q := of_decide_eq_true h.1
      have hdq : d.keys = q := of_decide_eq_true h.2
      refine hcd ⟨hroot c hc d hd (hslash c (hcq.trans hq)) (hslash d (hdq.trans hq)), ?_⟩
      rw [hcq, hdq]
    have hhead : (calls.filter fun c => c.keys = q).take 1 =
        (calls'.filter fun c => c.keys = q).take 1 := by
      rw [List.take_one, List.take_one, List.head?_filter, List.head?_filter,
        find?_perm hperm huniq]
    rw [callsAt, if_pos hq, callsAt, if_pos hq, hhead]
  · rw [find?_callsAt hq, find?_callsAt hq]
    -- two calls for one node and verb would be equal, so at most one is found
    refine find?_perm hperm (hdist.imp fun {c d} hcd h => hcd ?_)
    have hc : c.verb = v ∧ c.keys = q := of_decide_eq_true h.1
    have hd : d.verb = v ∧ d.keys = q := of_decide_eq_true h.2
    exact ⟨hc.1.trans hd.1.symm, hc.2.trans hd.2.symm⟩

/-- **The trees agree** in their nodes and handlers. -/
theorem map_unpathed_tree {calls calls' : List (HandleCall H)} (hperm : calls.Perm calls')
    (hdist : Distinct calls) (hroot : RootOnce calls) :
    Trie.map VerbHandler.unpathed (Router.tree (calls.map op)) =
      Trie.map VerbHandler.unpathed (Router.tree (calls'.map op)) := by
  have hops : (calls.map op).Perm (calls'.map op) := hperm.map op
  refine Trie.WF.ext (Router.wf_tree _).map (Router.wf_tree _).map (fun q => ?_) fun q => ?_
  · rw [Trie.has_map, Trie.has_map, Router.has_tree, Router.has_tree]
    simp only [hops.mem_iff]
  · rw [Trie.valAt_map (f := VerbHandler.unpathed) rfl,
      Trie.valAt_map (f := VerbHandler.unpathed) rfl]
    have hmap : (Trie.valAt q (Router.tree (calls.map op))).verbHandlerMap =
        (Trie.valAt q (Router.tree (calls'.map op))).verbHandlerMap := by
      refine OrdMap.Sorted.ext (sorted_valAt_tree calls q) (sorted_valAt_tree calls' q) fun v => ?_
      rw [get?_valAt_tree, get?_valAt_tree, find?_callsAt_perm hperm hdist hroot]
    rw [VerbHandler.unpathed, VerbHandler.unpathed, hmap]

/-- **The order of registration does not matter**: every request is answered with
the same status, handler, `route_params` and `match_path`. -/
theorem call_perm {calls calls' : List (HandleCall H)} (hperm : calls.Perm calls')
    (hdist : Distinct calls) (hroot : RootOnce calls) (verb : Verb) (path : Bytes) :
    ((Router.ofOps (calls.map op)).call verb path).map CallResult.unpathed =
      ((Router.ofOps (calls'.map op)).call verb path).map CallResult.unpathed :=
  Router.unpathed_call (map_unpathed_tree hperm hdist hroot) verb path

/-- A literal, a parameter and a wildcard route, registered forwards and backwards. -/
theorem call_perm_three :
    ((Router.ofOps ([⟨ascii "/a", 0, 1, .GET⟩, ⟨ascii "/\x7bid\x7d", 0, 2, .GET⟩,
      ⟨ascii "/a/*", 0, 3, .POST⟩].map (op (H := Nat)))).call .GET (ascii "/b")).map
        CallResult.unpathed =
      ((Router.ofOps ([⟨ascii "/a/*", 0, 3, .POST⟩, ⟨ascii "/\x7bid\x7d", 0, 2, .GET⟩,
        ⟨ascii "/a", 0, 1, .GET⟩].map (op (H := Nat)))).call .GET (ascii "/b")).map
          CallResult.unpathed :=
  call_perm (List.reverse_perm _).symm
    (by simp only [Distinct, List.pairwise_cons]; decide +kernel)
    (by unfold RootOnce; decide +kernel) .GET (ascii "/b")

end HandleCall

end Wfrest
