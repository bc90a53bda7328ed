import Wfrest.Base.StrUtil
import Wfrest.Lib.Trie
import Mathlib.Order.Basic

/-!
# The route table

`RouteTableNode` is a prefix tree whose keys are the segments between slashes
and whose values are `VerbHandler`s. `findOrCreate` and `find` follow the source
byte by byte: they walk a cursor over the route and cut the segments out of it.

* `find_or_create` returns a reference. Here the caller hands over what it does
  to the referent, a function on `VerbHandler`, and gets the new tree.
* `find` returns an iterator, whose node pointer is rendered as the address of
  the node: the keys from the root to it (`NodePtr`). Its two `OUT` parameters
  are threaded as a `RouteCtx`, which an abandoned branch leaves as it is.
* The `std::string` built from a shrunk view can throw, so `find` runs in
  `Except StdException`.
-/

namespace Wfrest

/-- The request methods, in the order of the source's enumeration. -/
inductive Verb where
  | ANY | GET | POST | PUT | DELETE | HEAD | PATCH
  deriving DecidableEq, Repr

/-- The numeric value of the enumerator, the key order of a `std::map<Verb, _>`. -/
def Verb.toNat : Verb → Nat
  | ANY => 0
  | GET => 1
  | POST => 2
  | PUT => 3
  | DELETE => 4
  | HEAD => 5
  | PATCH => 6

theorem Verb.toNat_injective : Function.Injective Verb.toNat := by
  intro v w h
  cases v <;> cases w <;> first | rfl | exact absurd h (by decide)

instance : LinearOrder Verb := LinearOrder.lift' Verb.toNat Verb.toNat_injective

/-- `str_to_verb` -/
def strToVerb (verb : Bytes) : Verb :=
  if strcaseeq verb (ascii "GET") then .GET
  else if strcaseeq verb (ascii "PUT") then .PUT
  else if strcaseeq verb (ascii "POST") then .POST
  else if strcaseeq verb (ascii "DELETE") then .DELETE
  else if strcaseeq verb (ascii "HEAD") then .HEAD
  else if strcaseeq verb (ascii "PATCH") then .PATCH
  else .ANY

/-- What a route's node stores. `H` is the type of wrapped handlers. -/
structure VerbHandler (H : Type) where
  verbHandlerMap : List (Verb × H)
  /-- The route string of the last accepted registration. -/
  path : Bytes
  computeQueueId : Int

variable {H : Type}

instance : Inhabited (VerbHandler H) := ⟨⟨[], [], 0⟩⟩

/-- A node of the route table. -/
abbrev RouteTableNode (H : Type) := Trie Bytes (VerbHandler H)

/-- The address of a node: the keys from the root to it. -/
abbrev NodePtr := List Bytes

namespace RouteTableNode

/-! ### `find_or_create` -/

/-- `RouteTableNode::find_or_create(route, cursor)`, followed by `f` on the
returned reference. The cursor never passes the end of the route. -/
def findOrCreate (node : RouteTableNode H) (route : StringPiece) (cursor : Nat)
    (f : VerbHandler H → VerbHandler H) : RouteTableNode H :=
  if cursor < route.length then
    -- store GET("/", ...): `insert` keeps an existing child, and the caller
    -- then writes to a node that no parent points to
    if cursor = 0 ∧ route.view = [slash] then
      .node node.val
        (OrdMap.insert route.view (findOrCreate Trie.empty route (cursor + 1) f) node.children)
    -- ignore the last '/'
    else if cursor = route.length - 1 ∧ route.get cursor = slash then
      .node (f node.val) node.children
    else
      let anchor := if route.get cursor = slash then cursor + 1 else cursor
      let cursor' := route.skipSegment anchor
      let mid := (route.sub anchor (cursor' - anchor)).view
      match OrdMap.get? mid node.children with
      | some child =>
        .node node.val (OrdMap.replace mid (findOrCreate child route cursor' f) node.children)
      | none =>
        .node node.val
          (OrdMap.insertNew mid (findOrCreate Trie.empty route cursor' f) node.children)
  else
    .node (f node.val) node.children
termination_by route.length - cursor
decreasing_by
  · omega
  all_goals
    have hlt : cursor < route.length := by assumption
    split
    · have := route.le_skipSegment (cursor + 1)
      omega
    · next hne =>
      have := StringPiece.lt_skipSegment hlt hne
      omega

/-! ### `find` -/

/-- The `OUT` parameters of `find`. -/
structure RouteCtx where
  routeParams : List (Bytes × Bytes)
  routeMatchPath : Bytes
  deriving DecidableEq, Repr

/-- The `OUT` parameters as `Router::call` initialises them. -/
def RouteCtx.init : RouteCtx := ⟨[], []⟩

/-- The result of a lookup. `end()` is the iterator whose `ptr` is null. -/
structure Iterator (H : Type) where
  ptr : Option NodePtr
  first : StringPiece
  second : VerbHandler H

/-- `end()` -/
def Iterator.fin : Iterator H := ⟨none, ⟨[], 0⟩, default⟩

/-- A key that ends in `*`. -/
def isWildcard (param : Bytes) : Bool := param.getLast? = some star

/-- A wildcard key without its `*`: the prefix it asks for. -/
def wildcardPrefix (param : Bytes) : Bytes := param.dropLast

/-- A key of the form `{name}`. -/
def isParam (param : Bytes) : Bool :=
  2 < param.length && param.head? = some lbrace && param.getLast? = some rbrace

/-- The name inside the braces: the two scans for spaces, then `shrink`. -/
def paramPiece (param : Bytes) : StringPiece :=
  let i := 1 + ((param.drop 1).takeWhile (· = space)).length
  let last := param.length - 2
  let j := last - ((param.take (last + 1)).reverse.takeWhile (· = space)).length
  (StringPiece.ofString param).shrink i (sizeSub (sizeSub param.length 1) j)

mutual

/-- `RouteTableNode::find(route, cursor, route_params, route_match_path)` on the
node at address `this`. -/
def find : RouteTableNode H → NodePtr → StringPiece → Nat → RouteCtx →
    Except StdException (Iterator H × RouteCtx)
  | .node verbHandler children, this, route, cursor, ctx =>
    -- the part of the body after the lookup of GET("/", ...)
    let descend (cursor : Nat) (ctx : RouteCtx) := do
      let anchor := if route.get cursor = slash then cursor + 1 else cursor
      let cursor := route.skipSegment anchor
      let mid := route.sub anchor (cursor - anchor)
      -- look for mid in the children
      match ← findChild children mid.view this route cursor ctx with
      | some (it2, ctx) =>
        if it2.ptr.isSome then pure (it2, ctx)
        else findParam children mid this route cursor ctx
      | none => findParam children mid this route cursor ctx
    -- We found the route
    if (cursor = route.length ∧ verbHandler.verbHandlerMap ≠ []) ∨ children.isEmpty then
      pure (⟨some this, route, verbHandler⟩, ctx)
    else if cursor = route.length then
      -- /*
      match OrdMap.get? [star] children with
      | some child => pure (⟨some (this ++ [[star]]), route, child.val⟩, ctx)
      | none => pure (⟨none, route, verbHandler⟩, ctx)
    else if cursor = 0 ∧ route.view = [slash] then do
      -- find GET("/", ...)
      match ← findChild children route.view this route (cursor + 1) ctx with
      | some (it2, ctx) => if it2.ptr.isSome then pure (it2, ctx) else descend (cursor + 1) ctx
      | none => descend cursor ctx
    else
      descend cursor ctx

/-- `children_.find(key)`, and `find` on the child it names. -/
def findChild : List (Bytes × RouteTableNode H) → Bytes → NodePtr → StringPiece → Nat →
    RouteCtx → Except StdException (Option (Iterator H × RouteCtx))
  | [], _, _, _, _, _ => pure none
  | (k, child) :: children, key, this, route, cursor, ctx =>
    if key = k then do
      let r ← find child (this ++ [k]) route cursor ctx
      pure (some r)
    else findChild children key this route cursor ctx

/-- The loop over the children: the first one that is a wildcard for `mid`, or a
parameter, decides the result. -/
def findParam : List (Bytes × RouteTableNode H) → StringPiece → NodePtr → StringPiece → Nat →
    RouteCtx → Except StdException (Iterator H × RouteCtx)
  | [], _, _, _, _, ctx => pure (Iterator.fin, ctx)
  | (param, child) :: children, mid, this, route, cursor, ctx =>
    if isWildcard param ∧ mid.startsWith (StringPiece.ofString (wildcardPrefix param)) then
      let matchPath := StringPiece.ofCStr (route.ptr.drop cursor)
      pure (⟨some (this ++ [param]), route, child.val⟩,
        { ctx with routeMatchPath := mid.view ++ matchPath.view })
    else if isParam param then do
      let name ← (paramPiece param).asString
      find child (this ++ [param]) route cursor
        { ctx with routeParams := OrdMap.set name mid.view ctx.routeParams }
    else findParam children mid this route cursor ctx

end

/-! ### `all_routes` -/

/-- The separator that `all_routes` puts after a prefix. -/
def withSlash (pre : Bytes) : Bytes :=
  if pre ≠ [] ∧ pre.getLast? ≠ some slash then pre ++ [slash] else pre

mutual

/-- `RouteTableNode::all_routes(func, prefix)`: the arguments of the calls of
`func`, in order. Only nodes without children are reported. -/
def allRoutes : RouteTableNode H → Bytes → List (Bytes × VerbHandler H)
  | .node verbHandler children, pre =>
    if children.isEmpty then [(pre, verbHandler)] else allRoutesChildren children (withSlash pre)

/-- The loop over the children. -/
def allRoutesChildren : List (Bytes × RouteTableNode H) → Bytes → List (Bytes × VerbHandler H)
  | [], _ => []
  | (k, child) :: children, pre => allRoutes child (pre ++ k) ++ allRoutesChildren children pre

end

end RouteTableNode

/-! ### `RouteTable` -/

/-- The tree, and the set of route strings it has been asked for. -/
structure RouteTable (H : Type) where
  root : RouteTableNode H
  stringPieces : List (Bytes × Unit)

namespace RouteTable

def empty : RouteTable H := ⟨Trie.empty, []⟩

/-- `RouteTable::find_or_create(const char *route)`, followed by `f` on the
returned reference. Whether the string is new only decides which copy of it the
keys point into. -/
def findOrCreate (t : RouteTable H) (route : Bytes) (f : VerbHandler H → VerbHandler H) :
    RouteTable H :=
  let routePiece := StringPiece.ofCStr route
  match OrdMap.get? routePiece.view t.stringPieces with
  | some _ => { t with root := t.root.findOrCreate routePiece 0 f }
  | none =>
    ⟨t.root.findOrCreate routePiece 0 f, OrdMap.insert routePiece.view () t.stringPieces⟩

/-- `RouteTable::find` -/
def find (t : RouteTable H) (route : StringPiece) (ctx : RouteTableNode.RouteCtx) :
    Except StdException (RouteTableNode.Iterator H × RouteTableNode.RouteCtx) :=
  t.root.find [] route 0 ctx

/-- `RouteTable::all_routes` -/
def allRoutes (t : RouteTable H) : List (Bytes × VerbHandler H) := t.root.allRoutes []

end RouteTable

end Wfrest
