import Wfrest.Route.Match

/-!
# Dispatch

`runs_iff` splits `Router::call` into the lookup and the choice of a handler at
the node that was found (`answer`). A path whose own keys carry a handler is
looked up under these keys, whatever parameters and wildcards stand next to them
(`findPtr_exact`).

`literal_call_iff` applies this to a sequence of `handle` calls. The one failure
is a second registration of `/`, whose node no lookup reaches.
-/

namespace Wfrest

variable {H : Type}

open RouteTableNode

/-! ### Exact lookups -/

/-- Keys that lead to a node with a handler are found by their own text. -/
theorem RouteTableNode.reach_exact {q : List Bytes} {n m : RouteTableNode H}
    (hsub : Trie.sub? q n = some m) (hmap : m.val.verbHandlerMap ≠ []) :
    reach q n = .ok (some (q, m)) := by
  induction q generalizing n with
  | nil =>
    cases hsub
    rw [reach, if_pos (Or.inl hmap)]
    rfl
  | cons k q ih =>
    rw [Trie.sub?_cons, Option.bind_eq_some_iff] at hsub
    obtain ⟨child, hget, hchild⟩ := hsub
    exact reach_cons_eq_some_iff.mpr (Or.inr (Or.inl ⟨child, (q, m), hget, ih hchild, rfl⟩))

namespace Router

/-- The choice of a handler: the verb's own, else that of `ANY`. -/
def answer (verb : Verb) (vh : VerbHandler H) (ctx : RouteCtx) : CallResult H :=
  match OrdMap.get? verb vh.verbHandlerMap, OrdMap.get? Verb.ANY vh.verbHandlerMap with
  | some handler, _ => .run handler vh.path ctx.routeParams ctx.routeMatchPath
  | none, some handler => .run handler vh.path ctx.routeParams ctx.routeMatchPath
  | none, none => .StatusRouteVerbNotImplment

/-- The handler that runs, if one does. -/
theorem answer_eq_run_iff {verb : Verb} {vh : VerbHandler H} {ctx : RouteCtx} {handler : H} :
    (∃ fullPath routeParams matchPath,
      answer verb vh ctx = .run handler fullPath routeParams matchPath) ↔
      (OrdMap.get? verb vh.verbHandlerMap).or (OrdMap.get? Verb.ANY vh.verbHandlerMap)
        = some handler := by
  unfold answer
  cases OrdMap.get? verb vh.verbHandlerMap <;>
    cases OrdMap.get? Verb.ANY vh.verbHandlerMap <;> simp

/-- The call runs the handler. -/
def Runs (r : Router H) (verb : Verb) (path : Bytes) (handler : H) : Prop :=
  ∃ fullPath routeParams matchPath,
    r.call verb path = .ok (.run handler fullPath routeParams matchPath)

/-- **A call** runs the handler of the node that its path leads to. -/
theorem runs_iff (ops : List (RouterOp H)) (verb : Verb) (path : Bytes) (handler : H) :
    (ofOps ops).Runs verb path handler ↔
      ∃ q, findPtr ops (callPath path) = .ok (some q) ∧
        (OrdMap.get? verb (Trie.valAt q (tree ops)).verbHandlerMap).or
          (OrdMap.get? Verb.ANY (Trie.valAt q (tree ops)).verbHandlerMap) = some handler := by
  -- what `call` does with an iterator
  have hcall : ∀ {it ctx}, (ofOps ops).routesMap.find (callPiece path) RouteCtx.init
      = .ok (it, ctx) → (ofOps ops).call verb path =
        if it.ptr.isSome then .ok (answer verb it.second ctx) else .ok .StatusRouteNotFound := by
    intro it ctx hfind
    unfold call
    rw [hfind]
    simp only [bind, Except.bind, answer]
    cases it.ptr with
    | none => rfl
    | some q =>
      cases OrdMap.get? verb it.second.verbHandlerMap <;>
        cases OrdMap.get? Verb.ANY it.second.verbHandlerMap <;> rfl
  constructor
  · rintro ⟨fullPath, routeParams, matchPath, hrun⟩
    cases hfind : (ofOps ops).routesMap.find (callPiece path) RouteCtx.init with
    | error e =>
      unfold call at hrun
      rw [hfind] at hrun
      simp [bind, Except.bind] at hrun
    | ok r =>
      rw [hcall hfind] at hrun
      cases hptr : r.1.ptr with
      | none => simp [hptr] at hrun
      | some q =>
        have hq := findPtr_of_find (valid_callPiece path) hfind
        rw [view_callPiece, hptr] at hq
        refine ⟨q, hq, ?_⟩
        rw [← second_find (valid_callPiece path) hfind hptr]
        simp only [hptr, Option.isSome_some, if_true, Except.ok.injEq] at hrun
        exact answer_eq_run_iff.mp ⟨_, _, _, hrun⟩
  · rintro ⟨q, hq, hhandler⟩
    rw [← view_callPiece] at hq
    obtain ⟨it, ctx, hfind, hptr⟩ :=
      exists_find_of_findPtr (valid_callPiece path) RouteCtx.init hq
    rw [← second_find (valid_callPiece path) hfind hptr] at hhandler
    obtain ⟨fullPath, routeParams, matchPath, hrun⟩ : ∃ fullPath routeParams matchPath,
        answer verb it.second ctx = .run handler fullPath routeParams matchPath :=
      answer_eq_run_iff.mpr hhandler
    exact ⟨fullPath, routeParams, matchPath, by rw [hcall hfind, hptr, ← hrun]; rfl⟩

/-- A path whose keys carry a handler is found under them. The path `//` shares
its view with `/`. -/
theorem findPtr_exact {ops : List (RouterOp H)} {path : Bytes}
    (hmap : (Trie.valAt (routeKeys path) (tree ops)).verbHandlerMap ≠ [])
    (hpath : path = [slash, slash] → ¬ Trie.Has [[slash]] (tree ops)) :
    findPtr ops (callPath path) = .ok (some (routeKeys path)) := by
  have hhas : Trie.Has (routeKeys path) (tree ops) := by
    by_contra hno
    exact hmap (by rw [Trie.valAt_of_not_has hno]; rfl)
  by_cases hslash : path = [slash]
  · subst hslash
    exact if_pos ⟨rfl, hhas⟩
  · have hroot : ¬ (callPath path = [slash] ∧ Trie.Has [[slash]] (tree ops)) := by
      -- apart from `/` itself only `//` is cut down to `/`
      rintro ⟨hcall, hroot⟩
      refine hpath ?_ hroot
      unfold callPath stripSlash at hcall
      split at hcall
      · split at hcall
        · next hlast =>
          have := List.dropLast_append_getLast? _ hlast
          rw [hcall] at this
          exact this.symm
        · exact absurd hcall hslash
      · exact absurd hcall hslash
    obtain ⟨m, hm⟩ := Option.isSome_iff_exists.mp hhas
    rw [Trie.valAt_of_sub? hm] at hmap
    rw [findPtr, if_neg hroot, reqSegs_callPath hslash, reach_exact hm hmap]
    rfl

end Router

/-! ### Sequences of `handle` calls -/

namespace HandleCall

/-- The calls with their handlers numbered, so that a handler names its call. -/
def numbered (calls : List (HandleCall H)) : List (HandleCall (Nat × H)) :=
  calls.zipIdx.map fun e => ⟨e.1.route, e.1.computeQueueId, (e.2, e.1.handler), e.1.verb⟩

theorem eq_of_handler_eq {calls : List (HandleCall H)} {c d : HandleCall (Nat × H)}
    (hc : c ∈ numbered calls) (hd : d ∈ numbered calls) (h : c.handler = d.handler) : c = d := by
  unfold numbered at hc hd
  obtain ⟨⟨c, i⟩, hci, rfl⟩ := List.mem_map.mp hc
  obtain ⟨⟨d, j⟩, hdj, rfl⟩ := List.mem_map.mp hd
  obtain ⟨rfl, -⟩ := Prod.mk.inj h
  rw [List.mem_zipIdx_iff_getElem?] at hci hdj
  rw [hci, Option.some.injEq] at hdj
  rw [show c = d from hdj]

/-- `/`, or a route of non-empty segments without `*` and `{`. -/
def Literal (r : Bytes) : Prop :=
  r = [slash] ∨ ∀ s ∈ routeKeys r, s ≠ [] ∧ star ∉ s ∧ lbrace ∉ s

instance (r : Bytes) : Decidable (Literal r) := inferInstanceAs (Decidable (_ ∨ _))

/-- The lookup for the call's verb and route selects the handler of the first
call with this verb and the same segments. -/
def Selects (calls : List (HandleCall H)) (c : HandleCall H) : Prop :=
  ∃ d, calls.find? (fun d => decide (d.verb = c.verb ∧ d.keys = c.keys)) = some d ∧
    (Router.ofOps (calls.map op)).Runs c.verb c.op.route d.handler

/-- The first call for given keys reaches their node. -/
theorem callsAt_eq_cons {calls : List (HandleCall H)} {q : NodePtr}
    (h : ∃ c ∈ calls, c.keys = q) :
    ∃ d ds, calls.find? (fun c => decide (c.keys = q)) = some d ∧
      (calls.filter fun c => c.keys = q) = d :: ds ∧
      callsAt q calls = d :: if q = [[slash]] then [] else ds := by
  obtain ⟨c, hc, hkeys⟩ := h
  have hne : (calls.filter fun c => c.keys = q) ≠ [] :=
    List.ne_nil_of_mem (List.mem_filter.mpr ⟨hc, by simp [hkeys]⟩)
  obtain ⟨d, ds, hds⟩ := List.exists_cons_of_ne_nil hne
  refine ⟨d, ds, ?_, hds, ?_⟩
  · rw [← List.head?_filter, hds]
    rfl
  · unfold callsAt
    rw [hds]
    split <;> rfl

/-- A registered node carries a handler. -/
theorem valAt_ne_nil {calls : List (HandleCall H)} {c : HandleCall H} (hc : c ∈ calls) :
    (Trie.valAt c.keys (Router.tree (calls.map op))).verbHandlerMap ≠ [] := by
  intro hnil
  obtain ⟨d, ds, -, -, hat⟩ := callsAt_eq_cons ⟨c, hc, rfl⟩
  have hget := get?_valAt_tree calls c.keys d.verb
  rw [hnil, hat] at hget
  simp at hget

theorem Literal.ne_slashes {r : Bytes} (h : Literal r) : r ≠ [slash, slash] := by
  rintro rfl
  rcases h with h | h
  · simp at h
  · exact (h [] (by decide +kernel)).1 rfl

/-- The handler of a verb at a node is that of the first call with this verb and
these keys. At the node of `/` this takes the first call of all. -/
theorem get?_valAt_first {calls : List (HandleCall H)} {q : NodePtr} {v : Verb}
    (hq : q = [[slash]] → (calls.find? fun c => c.keys = q).map verb = some v) :
    OrdMap.get? v (Trie.valAt q (Router.tree (calls.map op))).verbHandlerMap =
      (calls.find? fun c => decide (c.verb = v ∧ c.keys = q)).map handler := by
  rw [get?_valAt_tree]
  by_cases hslash : q = [[slash]]
  · obtain ⟨d, hfind, hverb⟩ := Option.map_eq_some_iff.mp (hq hslash)
    have hd := List.find?_some hfind
    obtain ⟨d', ds, hfind', hfilter, hat⟩ :=
      callsAt_eq_cons ⟨d, List.mem_of_find?_eq_some hfind, of_decide_eq_true hd⟩
    rw [hfind, Option.some.injEq] at hfind'
    subst hfind'
    -- the first call for `/` is also the first one with its verb
    have hfirst : calls.find? (fun c => decide (c.verb = v ∧ c.keys = q)) = some d := by
      have hfilter' : (calls.filter fun c => c.keys = q).find? (fun c => c.verb = v)
          = some d := by
        rw [hfilter]
        simp [hverb]
      rw [← hfilter', List.find?_filter]
      congr 1
      funext c
      simp [and_comm]
    rw [hat, hfirst, if_pos hslash]
    simp [hverb]
  · rw [find?_callsAt hslash]

/-- The path of a literal route leads to the node of the route, and the call
runs a handler there. -/
theorem runs_literal_iff {calls : List (HandleCall H)} {c : HandleCall H} (hc : c ∈ calls)
    (hlit : Literal c.op.route) {handler : H} :
    (Router.ofOps (calls.map op)).Runs c.verb c.op.route handler ↔
      (OrdMap.get? c.verb
        (Trie.valAt c.keys (Router.tree (calls.map op))).verbHandlerMap).or
        (OrdMap.get? Verb.ANY
          (Trie.valAt c.keys (Router.tree (calls.map op))).verbHandlerMap) = some handler := by
  have hfind := Router.findPtr_exact (valAt_ne_nil hc) fun h => absurd h hlit.ne_slashes
  rw [Router.runs_iff]
  constructor
  · rintro ⟨q, hq, h⟩
    rw [hfind, Except.ok.injEq, Option.some.injEq] at hq
    rwa [← hq] at h
  · intro h
    exact ⟨_, hfind, h⟩

/-- **Literal routes are dispatched**, except that of the calls for `/` only the
first counts. -/
theorem literal_call_iff (calls : List (HandleCall H)) (c : HandleCall (Nat × H))
    (hc : c ∈ numbered calls) (hlit : Literal c.op.route) :
    Selects (numbered calls) c ↔
      c.op.route ≠ [slash] ∨
        ((numbered calls).find? fun d => d.op.route = [slash]).map verb = some c.verb := by
  have hroute : c.op.route = [slash] ↔ c.keys = [[slash]] := (Router.keys_eq_root_iff c.op).symm
  have hroot : c.keys = [[slash]] → (fun d : HandleCall (Nat × H) => decide (d.op.route = [slash]))
      = fun d => decide (d.keys = c.keys) := by
    intro hslash
    funext e
    rw [hslash]
    exact decide_eq_decide.mpr (Router.keys_eq_root_iff e.op).symm
  constructor
  · rintro ⟨d, hd, hrun⟩
    rw [or_iff_not_imp_left, not_not]
    intro hslash
    rw [hroot (hroute.mp hslash)]
    obtain ⟨d₀, ds, hfind, -, hat⟩ := callsAt_eq_cons ⟨c, hc, rfl⟩
    rw [runs_literal_iff hc hlit, get?_valAt_tree, get?_valAt_tree, hat,
      if_pos (hroute.mp hslash)] at hrun
    rw [hfind, Option.map_some, Option.some.injEq]
    by_contra hv
    -- only the first call for `/` has reached the node, so its handler runs
    have hne : d₀.handler ≠ d.handler := by
      intro h
      have heq := eq_of_handler_eq (List.mem_of_find?_eq_some hfind)
        (List.mem_of_find?_eq_some hd) h
      have hdv := List.find?_some hd
      simp only [decide_eq_true_eq] at hdv
      exact hv (heq ▸ hdv.1)
    rw [List.find?_cons_of_neg (by simpa using hv)] at hrun
    by_cases hany : d₀.verb = Verb.ANY <;> simp [hany, hne] at hrun
  · intro h
    have hget : OrdMap.get? c.verb
        (Trie.valAt c.keys (Router.tree ((numbered calls).map op))).verbHandlerMap =
          ((numbered calls).find?
            fun d => decide (d.verb = c.verb ∧ d.keys = c.keys)).map handler :=
      get?_valAt_first fun hslash => by
        rw [← hroot hslash]
        exact h.resolve_left (not_not_intro (hroute.mpr hslash))
    obtain ⟨d, hd⟩ : ∃ d, (numbered calls).find?
        (fun d => decide (d.verb = c.verb ∧ d.keys = c.keys)) = some d := by
      rw [← Option.isSome_iff_exists, List.find?_isSome]
      exact ⟨c, hc, by simp⟩
    refine ⟨d, hd, (runs_literal_iff hc hlit).mpr ?_⟩
    rw [hget, hd]
    rfl

/-- A route next to a parameter and a wildcard that match it too. -/
theorem literal_call_example :
    Selects (numbered [⟨ascii "/api/*", 0, (), .GET⟩, ⟨ascii "/api/\x7bid\x7d", 0, (), .GET⟩,
      ⟨ascii "/api/v1/", 0, (), .GET⟩, ⟨ascii "/api/v1", 0, (), .GET⟩])
      ⟨ascii "/api/v1", 0, (3, ()), .GET⟩ :=
  (literal_call_iff _ _ (by simp [numbered]) (by decide +kernel)).mpr (Or.inl (by decide))

/-- `GET /` and then `POST /`: there is no handler for `POST /`. -/
theorem not_selects_second_root :
    ¬ Selects (numbered [⟨ascii "/", 0, (), .GET⟩, ⟨ascii "/", 0, (), .POST⟩])
      ⟨ascii "/", 0, (1, ()), .POST⟩ := by
  rintro ⟨d, -, fullPath, routeParams, matchPath, hcall⟩
  have hmissing : (Router.ofOps ((numbered [⟨ascii "/", 0, (), .GET⟩,
      ⟨ascii "/", 0, (), .POST⟩]).map op)).call Verb.POST (ascii "/")
        = .ok .StatusRouteVerbNotImplment := by
    decide +kernel
  rw [show (⟨ascii "/", 0, (1, ()), .POST⟩ : HandleCall (Nat × Unit)).op.route = ascii "/" by
    decide, hmissing] at hcall
  simp at hcall

end HandleCall

end Wfrest
