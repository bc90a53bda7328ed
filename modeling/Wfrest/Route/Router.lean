import Wfrest.Route.Search
import Mathlib.Order.Basic

/-!
# `Router`

Registration (`handle`) and dispatch (`call`). `call` ends in running a handler
or in one of two error codes; the request context it installs on the way is part
of the result.

`RouterOp` lists the calls that fill a table: `Router::handle`, and
`RouteTable::find_or_create` used on its own, whose caller may write anything to
the reference it gets.
-/

namespace Wfrest

variable {H : Type}

/-- A router: the table, and the set of route strings with their verbs. -/
structure Router (H : Type) where
  routesMap : RouteTable H
  /-- `std::set<RouteVerb>`, whose comparator orders the routes downwards. -/
  routes : List (Bytesᵒᵈ × List (Verb × Unit))

/-- What `Router::call` does with a request. -/
inductive CallResult (H : Type) where
  /-- `StatusOK`: the handler runs with this context. -/
  | run (handler : H) (fullPath : Bytes) (routeParams : List (Bytes × Bytes)) (matchPath : Bytes)
  | StatusRouteVerbNotImplment
  | StatusRouteNotFound
  deriving DecidableEq, Repr

namespace Router

def empty : Router H := ⟨RouteTable.empty, []⟩

/-- Both overloads of `Router::add_route`. The returned iterator is the entry of
`route`. -/
def addRoute (routes : List (Bytesᵒᵈ × List (Verb × Unit))) (verbs : List Verb) (route : Bytes) :
    List (Bytesᵒᵈ × List (Verb × Unit)) :=
  let old := (OrdMap.get? (OrderDual.toDual route) routes).getD []
  OrdMap.set (OrderDual.toDual route) (verbs.foldl (fun s v => OrdMap.insert v () s) old) routes

/-- The body of `Router::handle` on the reference it gets: the first handler of
a verb stays. -/
def registerVerb (route : Bytes) (computeQueueId : Int) (handler : H) (verb : Verb)
    (vh : VerbHandler H) : VerbHandler H :=
  match OrdMap.get? verb vh.verbHandlerMap with
  | some _ => vh
  | none => ⟨OrdMap.insert verb handler vh.verbHandlerMap, route, computeQueueId⟩

/-- `Router::handle` -/
def handle (r : Router H) (route : Bytes) (computeQueueId : Int) (handler : H) (verb : Verb) :
    Router H :=
  { routes := addRoute r.routes [verb] route
    routesMap := r.routesMap.findOrCreate route (registerVerb route computeQueueId handler verb) }

/-- The piece that `Router::call` looks up: a view of the path that leaves out
the last `/`, except for the path `/`. -/
def callPiece (route : Bytes) : StringPiece :=
  let route2 := StringPiece.ofString route
  if route2.length > 1 ∧ route2.get (route2.length - 1) = slash then route2.removeSuffix 1
  else route2

/-- `Router::call` -/
def call (r : Router H) (verb : Verb) (route : Bytes) : Except StdException (CallResult H) := do
  let (it, ctx) ← r.routesMap.find (callPiece route) RouteTableNode.RouteCtx.init
  match it.ptr with
  | none => pure .StatusRouteNotFound
  | some _ =>
    match OrdMap.get? verb it.second.verbHandlerMap,
      OrdMap.get? Verb.ANY it.second.verbHandlerMap with
    | some handler, _ => pure (.run handler it.second.path ctx.routeParams ctx.routeMatchPath)
    | none, some handler => pure (.run handler it.second.path ctx.routeParams ctx.routeMatchPath)
    | none, none => pure .StatusRouteVerbNotImplment

end Router

/-! ### Filling a router -/

/-- A call that registers a route. -/
inductive RouterOp (H : Type) where
  /-- `RouteTable::find_or_create(route)`, and what is done with the reference. -/
  | findOrCreate (route : Bytes) (f : VerbHandler H → VerbHandler H)
  /-- `Router::handle(route, compute_queue_id, handler, verb)` -/
  | handle (route : Bytes) (computeQueueId : Int) (handler : H) (verb : Verb)

namespace RouterOp

/-- The route string as the table sees it. -/
def route : RouterOp H → Bytes
  | findOrCreate route _ => cStr route
  | handle route _ _ _ => cStr route

/-- What the call does to the node of its route. -/
def effect : RouterOp H → VerbHandler H → VerbHandler H
  | findOrCreate _ f => f
  | handle route queue handler verb => Router.registerVerb route queue handler verb

/-- The keys of the node of its route. -/
def keys (op : RouterOp H) : NodePtr := routeKeys op.route

def apply (r : Router H) : RouterOp H → Router H
  | findOrCreate route f => { r with routesMap := r.routesMap.findOrCreate route f }
  | handle route queue handler verb => r.handle route queue handler verb

end RouterOp

/-- The router after a sequence of calls. -/
def Router.ofOps (ops : List (RouterOp H)) : Router H :=
  ops.foldl RouterOp.apply Router.empty

/-! ### The pieces that are looked up -/

namespace Router

/-- The text of the piece: one trailing slash is dropped, except from `/`. -/
def callPath (p : Bytes) : Bytes := if p.length > 1 then stripSlash p else p

private theorem get_last {p : Bytes} (h : p.length > 1) :
    (StringPiece.ofString p).get (p.length - 1) = slash ↔ p.getLast? = some slash := by
  have hlt : p.length - 1 < p.length := by omega
  rw [List.getLast?_eq_getElem?, List.getElem?_eq_getElem hlt, Option.some.injEq]
  simp [StringPiece.get, StringPiece.ofString, hlt]

theorem callPiece_eq (p : Bytes) : callPiece p = ⟨p, (callPath p).length⟩ := by
  have hcond : (StringPiece.ofString p).get ((StringPiece.ofString p).length - 1)
      = (StringPiece.ofString p).get (p.length - 1) := rfl
  unfold callPiece callPath
  by_cases hlen : p.length > 1
  · rw [if_pos hlen]
    by_cases hlast : p.getLast? = some slash
    · have hp : (StringPiece.ofString p).length > 1 ∧
          (StringPiece.ofString p).get ((StringPiece.ofString p).length - 1) = slash :=
        ⟨hlen, hcond.trans ((get_last hlen).mpr hlast)⟩
      have hle : 1 ≤ p.length := by omega
      rw [stripSlash, if_pos hlast, List.length_dropLast]
      refine (if_pos hp).trans ?_
      rw [StringPiece.removeSuffix, sizeSub, StringPiece.length_ofString, if_pos hle,
        StringPiece.ptr_ofString]
    · have hp : ¬ ((StringPiece.ofString p).length > 1 ∧
          (StringPiece.ofString p).get ((StringPiece.ofString p).length - 1) = slash) :=
        fun h => hlast ((get_last hlen).mp (hcond.symm.trans h.2))
      rw [stripSlash_of_ne hlast]
      exact if_neg hp
  · have hp : ¬ ((StringPiece.ofString p).length > 1 ∧
        (StringPiece.ofString p).get ((StringPiece.ofString p).length - 1) = slash) :=
      fun h => hlen h.1
    rw [if_neg hlen]
    exact if_neg hp

theorem callPath_isPrefix (p : Bytes) : callPath p <+: p := by
  unfold callPath stripSlash
  split
  · split
    · exact List.dropLast_prefix p
    · exact List.prefix_refl p
  · exact List.prefix_refl p

theorem valid_callPiece (p : Bytes) : (callPiece p).Valid := by
  rw [callPiece_eq]
  exact (callPath_isPrefix p).length_le

@[simp] theorem view_callPiece (p : Bytes) : (callPiece p).view = callPath p := by
  rw [callPiece_eq]
  exact (List.prefix_iff_eq_take.mp (callPath_isPrefix p)).symm

theorem callPath_of_ne {path : Bytes} (h : path.getLast? ≠ some slash) : callPath path = path := by
  unfold callPath
  rw [stripSlash_of_ne h, ite_self]

theorem callPath_concat_slash {path : Bytes} (h : path ≠ []) :
    callPath (path ++ [slash]) = path := by
  have hlen := List.length_pos_iff.mpr h
  rw [callPath, if_pos (by rw [List.length_append, List.length_singleton]; omega),
    stripSlash_concat]

/-- `call` cuts off at most one slash. -/
theorem exists_eq_callPath_append (p : Bytes) :
    ∃ t, p = callPath p ++ t ∧ (t = [] ∨ t = [slash]) := by
  unfold callPath stripSlash
  split
  · split
    · next h => exact ⟨[slash], (List.dropLast_append_getLast? _ h).symm, Or.inr rfl⟩
    · exact ⟨[], (List.append_nil p).symm, Or.inl rfl⟩
  · exact ⟨[], (List.append_nil p).symm, Or.inl rfl⟩

/-- A path is looked up under the keys at which it would be registered. -/
theorem reqSegs_callPath {p : Bytes} (hp : p ≠ [slash]) : reqSegs (callPath p) = routeKeys p := by
  rw [routeKeys, if_neg hp, callPath]
  split
  · rfl
  · next hlen =>
    rcases p with _ | ⟨c, _ | ⟨d, cs⟩⟩
    · rfl
    · have hc : c ≠ slash := fun h => hp (by rw [h])
      rw [stripSlash_of_ne (by simpa using hc)]
    · simp at hlen

end Router

end Wfrest
