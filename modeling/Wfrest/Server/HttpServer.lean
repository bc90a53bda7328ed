import Wfrest.Base.CodeUtil
import Wfrest.Base.UriUtil
import Wfrest.Form.BoundaryParam
import Wfrest.Route.BluePrint

/-!
# `HttpServer`

What a server is filled by, and how `process` dispatches a request: it fills the
header map, takes the boundary of a form out of `Content-Type`, and hands the path
to the router. The server owns one blueprint. `Static` mounts a blueprint with the
single route `/*`, whose handler is the lambda of `serve_static`; the lambda is kept
as the two values that it captures, so that a dispatched request shows which path is
handed to `HttpResp::File`.

`exists_ops`: the tree of a server is the tree of a sequence of calls, and the
lambdas that a call installs come from a `Static` on that very node.
-/

namespace Wfrest

variable {H : Type}

/-- What `stat` says about a path. -/
structure FileSystem where
  isDir : Bytes → Bool
  isFile : Bytes → Bool
  /-- There is no file with an empty path. -/
  isDir_nil : isDir [] = false

/-- A handler of the server: a user's, or the lambda of `serve_static` with what
it has captured. -/
inductive Handler (H : Type) where
  | user (handler : H)
  | serveStatic (pathStr : Bytes) (isFile : Bool)
  deriving DecidableEq, Repr

/-- The path that the lambda hands to `HttpResp::File`. -/
def servedPath (pathStr : Bytes) (isFile : Bool) (matchPath : Bytes) : Bytes :=
  if isFile ∧ matchPath = [] then pathStr else pathStr ++ [slash] ++ matchPath

/-- `BluePrint::GET` -/
def BluePrint.GET (b : BluePrint H) (route : Bytes) (handler : H) : BluePrint H :=
  b.ROUTE ⟨route, -1, handler, Verb.GET⟩

/-- The server, as far as routing is concerned. -/
structure HttpServer (H : Type) where
  bluePrint : BluePrint (Handler H)

/-- What a server is filled by. -/
inductive ServerOp (H : Type) where
  | ROUTE (c : HandleCall H)
  | registerBlueprint (bp : List (BluePrintOp H)) (urlPrefix : Bytes)
  /-- The file system is the one at the time of the call. -/
  | Static (fs : FileSystem) (relativePath root : Bytes)

/-- `HeaderMap`: the names and the values of each, in the order in which the names came. The
map is searched by `MapStringCaseLess`, and its order does not show. -/
abbrev HeaderMap := List (Bytes × List Bytes)

namespace HeaderMap

/-- `headers_[key].emplace_back(value)` -/
def emplaceBack : HeaderMap → Bytes × Bytes → HeaderMap
  | [], (key, value) => [(key, [value])]
  | (name, values) :: headers, (key, value) =>
    if strcaseeq name key then (name, values ++ [value]) :: headers
    else (name, values) :: emplaceBack headers (key, value)

/-- `HttpReq::fill_header_map`, with the fields that the cursor goes through. -/
def fill (fields : List (Bytes × Bytes)) : HeaderMap := fields.foldl emplaceBack []

/-- `HttpReq::header` -/
def header (headers : HeaderMap) (key : Bytes) : Bytes :=
  match headers.find? fun h => strcaseeq h.1 key with
  | some (_, value :: _) => value
  | _ => []

end HeaderMap

/-- The parts of a request that `process` reads: the method, the header fields in the order in
which they were sent, and the target. -/
structure Request where
  method : Bytes
  fields : List (Bytes × Bytes)
  requestUri : Bytes

namespace Request

/-- A header of the request. -/
def header (req : Request) (key : Bytes) : Bytes := (HeaderMap.fill req.fields).header key

/-- The header `Host`. -/
def host (req : Request) : Bytes := req.header (ascii "Host")

/-- The header `Content-Type`. -/
def contentType (req : Request) : Bytes := req.header (ascii "Content-Type")

end Request

/-- The parts of a parsed URI that `process` reads; `none` is a null pointer. -/
structure ParsedURI where
  path : Option Bytes
  query : Option Bytes

/-- The path that is routed. -/
def ParsedURI.route (uri : ParsedURI) : Bytes :=
  match uri.path with
  | some path => if cStr path = [] then [slash] else cStr path
  | none => [slash]

/-- What `process` does with a request. -/
inductive Outcome (H : Type) where
  /-- The status is set to `HttpStatusBadRequest`. -/
  | badRequest
  /-- `Router::call` has run the handler with this context. -/
  | handled (queryParams : List (Bytes × Bytes)) (handler : Handler H) (fullPath : Bytes)
      (routeParams : List (Bytes × Bytes)) (matchPath : Bytes)
  /-- The arguments of `resp->Error`. -/
  | error (queryParams : List (Bytes × Bytes)) (ret : CallResult (Handler H)) (errmsg : Bytes)
  deriving DecidableEq, Repr

namespace HttpServer

def empty : HttpServer H := ⟨BluePrint.empty⟩

/-- `HttpServer::serve_static`: the blueprint it fills, or `none` for
`StatusNotFound`. -/
def serveStatic (fs : FileSystem) (path : Bytes) (bp : BluePrint (Handler H)) :
    Option (BluePrint (Handler H)) :=
  let pathStr := cStr path
  if fs.isDir pathStr then some (bp.GET (ascii "/*") (.serveStatic pathStr false))
  else if fs.isFile pathStr then some (bp.GET (ascii "/*") (.serveStatic pathStr true))
  else none

/-- `HttpServer::Static` -/
def Static (s : HttpServer H) (fs : FileSystem) (relativePath root : Bytes) : HttpServer H :=
  match serveStatic fs root BluePrint.empty with
  | some bp => ⟨s.bluePrint.addBlueprint bp (cStr relativePath)⟩
  | none => s

/-- The server after a call. -/
def apply (s : HttpServer H) : ServerOp H → HttpServer H
  | .ROUTE c => ⟨s.bluePrint.ROUTE (c.map .user)⟩
  | .registerBlueprint bp urlPrefix =>
    ⟨s.bluePrint.addBlueprint (BluePrint.build (BluePrintOp.mapAll .user bp)) urlPrefix⟩
  | .Static fs relativePath root => s.Static fs relativePath root

/-- The server after a sequence of calls. -/
def build (ops : List (ServerOp H)) : HttpServer H := ops.foldl apply empty

/-- The string that is parsed as a URI. -/
def uriText (req : Request) : Bytes := ascii "http://" ++ req.host ++ req.requestUri

/-- `HttpServer::process`, with `parse` for `URIParser::parse`. -/
def process (parse : Bytes → Option ParsedURI) (s : HttpServer H) (req : Request) :
    Except StdException (Outcome H) := do
  -- the form of a fresh request has no boundary yet
  let _ ← fillContentType [] req.contentType
  if req.host = [] then pure .badRequest
  else
    match parse (uriText req) with
    | none => pure .badRequest
    | some uri => do
      let route := uri.route
      let queryParams :=
        match uri.query with
        | some query => UriUtil.splitQuery (StringPiece.ofCStr query)
        | none => []
      match ← s.bluePrint.router.call (strToVerb req.method) (CodeUtil.urlEncode route) with
      | .run handler fullPath routeParams matchPath =>
        pure (.handled queryParams handler fullPath routeParams matchPath)
      | ret => pure (.error queryParams ret (req.method ++ [space] ++ route))

/-- **A handled request** was parsed, and the call of the router ran the handler. -/
theorem process_eq_handled {parse : Bytes → Option ParsedURI} {s : HttpServer H} {req : Request}
    {queryParams routeParams : List (Bytes × Bytes)} {handler : Handler H}
    {fullPath matchPath : Bytes}
    (h : s.process parse req = .ok (.handled queryParams handler fullPath routeParams matchPath)) :
    ∃ uri, parse (uriText req) = some uri ∧
      s.bluePrint.router.call (strToVerb req.method) (CodeUtil.urlEncode uri.route)
        = .ok (.run handler fullPath routeParams matchPath) := by
  obtain ⟨form, htype⟩ : ∃ form, fillContentType [] req.contentType = .ok form := by
    unfold process at h
    cases htype : fillContentType [] req.contentType with
    | error e => simp [htype, bind, Except.bind] at h
    | ok form => exact ⟨form, rfl⟩
  simp only [process, htype, bind, Except.bind] at h
  split at h
  · simp [pure, Except.pure] at h
  · cases hparse : parse (uriText req) with
    | none => simp [hparse, pure, Except.pure] at h
    | some uri =>
      refine ⟨uri, rfl, ?_⟩
      simp only [hparse] at h
      cases hcall : s.bluePrint.router.call (strToVerb req.method)
          (CodeUtil.urlEncode uri.route) with
      | error e => simp [hcall] at h
      | ok ret =>
        cases ret with
        | run handler' fullPath' routeParams' matchPath' =>
          simp only [hcall, pure, Except.pure, Except.ok.injEq, Outcome.handled.injEq] at h
          obtain ⟨-, rfl, rfl, rfl, rfl⟩ := h
          rfl
        | StatusRouteVerbNotImplment => simp [hcall, pure, Except.pure] at h
        | StatusRouteNotFound => simp [hcall, pure, Except.pure] at h

end HttpServer

/-! ### Where the handlers of a server come from -/

/-- The segments of the prefix that a blueprint is mounted behind. -/
def mountSegs (relativePath : Bytes) : List Bytes := reqSegs (stripSlash (cStr relativePath))

/-- The keys at which `Static` registers its handler. -/
def mountKeys (relativePath : Bytes) : NodePtr := mountSegs relativePath ++ [[star]]

/-- The calls have mounted a file or directory. -/
def Mounts (ops : List (ServerOp H)) (relativePath pathStr : Bytes) (isFile : Bool) : Prop :=
  ∃ fs root, ServerOp.Static fs relativePath root ∈ ops ∧ pathStr = cStr root ∧
    fs.isDir pathStr = !isFile

/-- A directory has a path. -/
theorem Mounts.pathStr_ne_nil {ops : List (ServerOp H)} {relativePath pathStr : Bytes}
    (h : Mounts ops relativePath pathStr false) : pathStr ≠ [] := by
  obtain ⟨fs, root, -, -, hdir⟩ := h
  rintro rfl
  rw [fs.isDir_nil] at hdir
  exact absurd hdir (by decide)

namespace HttpServer

/-- The lambdas that a call installs belong to a mount at the node of the call. -/
def Mounted (ops : List (ServerOp H)) (keys : NodePtr) (h : Handler H) : Prop :=
  ∀ pathStr isFile, h = .serveStatic pathStr isFile →
    ∃ relativePath, Mounts ops relativePath pathStr isFile ∧ keys = mountKeys relativePath

theorem mounted_user (ops : List (ServerOp H)) (keys : NodePtr) {h : Handler H}
    (huser : ∃ x, Handler.user x = h) : Mounted ops keys h := by
  obtain ⟨x, rfl⟩ := huser
  intro pathStr isFile h
  exact absurd h (by simp)

/-- The keys of `<relative_path>/*`. -/
theorem routeKeys_mountPath_star (relativePath : Bytes) :
    routeKeys (cStr (mountPath (cStr relativePath) [star])) = mountKeys relativePath := by
  have hjoined : Joined [star] [[star]] := ⟨[star], by decide, by decide, by decide, Or.inl rfl⟩
  have hnul : (0 : UInt8) ∉ mountPath (cStr relativePath) [star] := by
    rw [mountPath_eq, List.mem_append, List.mem_cons, List.mem_singleton]
    rintro (h | h | h)
    · exact zero_notMem_cStr relativePath (stripSlash_subset _ h)
    · exact absurd h (by decide)
    · exact absurd h (by decide)
  rw [cStr_eq_self hnul, mountPath_eq, routeKeys_append_joined hjoined]
  rfl

/-- The blueprint of `serve_static` has one leaf, with the lambda. -/
theorem leaves_serveStatic {pathStr : Bytes} {isFile : Bool}
    {e : List Bytes × VerbHandler (Handler H)} (he : e ∈ (BluePrint.empty.GET (ascii "/*")
      (Handler.serveStatic pathStr isFile)).router.routesMap.root.leaves) :
    e.1 = [[star]] ∧ ∀ x ∈ e.2.verbHandlerMap, x.2 = Handler.serveStatic pathStr isFile := by
  let c : HandleCall (Handler H) := ⟨ascii "/*", -1, .serveStatic pathStr isFile, Verb.GET⟩
  have hkeys : c.op.keys = [[star]] := by
    change routeKeys (cStr (ascii "/*")) = [[star]]
    decide
  change e ∈ (Router.tree [c.op]).leaves at he
  obtain ⟨n, hsub, hleaf, hval⟩ := (Trie.mem_leaves (Router.wf_tree [c.op])).mp he
  constructor
  · obtain ⟨op, hop, hq⟩ := Router.exists_op_of_leaf hsub hleaf (List.cons_ne_nil _ _)
    rw [← hq, List.mem_singleton.mp hop, hkeys]
  · rw [← hval, ← Trie.valAt_of_sub? hsub]
    refine Router.forall_valAt_tree (P := (· = Handler.serveStatic pathStr isFile)) fun op hop => ?_
    rw [List.mem_singleton.mp (Router.mem_opsAt hop).1]
    exact c.installs_op

/-- **One call.** What a server operation adds to the tree. -/
private theorem exists_ops_apply {ops : List (ServerOp H)} {s : HttpServer H}
    {rops : List (RouterOp (Handler H))}
    (hs : s.bluePrint.router.routesMap = (Router.ofOps rops).routesMap)
    (hrops : ∀ rop ∈ rops, rop.Installs (Mounted ops rop.keys)) (op : ServerOp H)
    (hop : op ∈ ops) :
    ∃ rops', (s.apply op).bluePrint.router.routesMap = (Router.ofOps rops').routesMap ∧
      ∀ rop ∈ rops', rop.Installs (Mounted ops rop.keys) := by
  cases op with
  | ROUTE c =>
    -- a route of the user installs a handler of the user
    refine ⟨_, BluePrint.routesMap_ofOps_concat hs (c.map Handler.user).op, fun rop hrop => ?_⟩
    rcases List.mem_append.mp hrop with hrop | hrop
    · exact hrops rop hrop
    · rw [List.mem_singleton.mp hrop]
      intro vh e he
      exact (HandleCall.installs_op _ vh e he).imp_right fun h =>
        mounted_user ops _ ⟨c.handler, h.symm⟩
  | registerBlueprint bp urlPrefix =>
    obtain ⟨bops, hbp, hbops⟩ := BluePrintOp.exists_ops Handler.user bp
    refine ⟨_, BluePrint.routesMap_addBlueprint hs _ urlPrefix, fun rop hrop => ?_⟩
    rcases List.mem_append.mp hrop with hrop | hrop
    · exact hrops rop hrop
    · obtain ⟨e, he, rfl⟩ := List.mem_map.mp hrop
      refine BluePrint.installs_mountOp fun x hx => mounted_user ops _ ?_
      -- the leaves of the mounted blueprint hold handlers of users
      rw [hbp] at he
      obtain ⟨n, hn, -, hval⟩ := (Trie.mem_leaves (Router.wf_tree bops)).mp he
      rw [← hval, ← Trie.valAt_of_sub? hn] at hx
      exact Router.forall_valAt_tree
        (fun rop hrop => hbops rop (Router.mem_opsAt hrop).1) x hx
  | Static fs relativePath root =>
    -- both lambdas are mounted alike: one wildcard leaf behind the relative path
    have hmount : ∀ isFile, fs.isDir (cStr root) = !isFile →
        ∃ rops', (s.bluePrint.addBlueprint (BluePrint.empty.GET (ascii "/*")
            (Handler.serveStatic (cStr root) isFile)) (cStr relativePath)).router.routesMap
          = (Router.ofOps rops').routesMap ∧
          ∀ rop ∈ rops', rop.Installs (Mounted ops rop.keys) := by
      intro isFile hdir
      refine ⟨_, BluePrint.routesMap_addBlueprint hs _ (cStr relativePath), fun rop hrop => ?_⟩
      rcases List.mem_append.mp hrop with hrop | hrop
      · exact hrops rop hrop
      · obtain ⟨e, he, rfl⟩ := List.mem_map.mp hrop
        obtain ⟨hkey, hhandler⟩ := leaves_serveStatic he
        have hkeys : (BluePrint.mountOp (cStr relativePath) e).keys = mountKeys relativePath := by
          rw [← routeKeys_mountPath_star relativePath, BluePrint.mountOp, hkey, RouterOp.keys,
            RouterOp.route, cStr_cStr]
          rfl
        refine BluePrint.installs_mountOp fun x hx pathStr isFile' hx' => ?_
        rw [hhandler x hx, Handler.serveStatic.injEq] at hx'
        exact ⟨relativePath,
          ⟨fs, root, hop, hx'.1.symm, by rw [← hx'.1, ← hx'.2]; exact hdir⟩, hkeys⟩
    change ∃ rops', (s.Static fs relativePath root).bluePrint.router.routesMap = _ ∧ _
    unfold Static serveStatic
    by_cases hdir : fs.isDir (cStr root) = true
    · simp only [hdir, if_true]
      exact hmount false hdir
    · by_cases hfile : fs.isFile (cStr root) = true
      · simp only [hdir, hfile, if_true]
        exact hmount true (by simpa using hdir)
      · simp only [hdir, hfile]
        exact ⟨rops, hs, hrops⟩

/-- **The tree of a server** is the tree of a sequence of calls, each of which
installs the lambdas of the mounts at its own node. -/
theorem exists_ops (ops : List (ServerOp H)) :
    ∃ rops, (build ops).bluePrint.router.routesMap = (Router.ofOps rops).routesMap ∧
      ∀ rop ∈ rops, rop.Installs (Mounted ops rop.keys) := by
  have hfold : ∀ (l : List (ServerOp H)) (s : HttpServer H) (rops : List (RouterOp (Handler H))),
      l ⊆ ops → s.bluePrint.router.routesMap = (Router.ofOps rops).routesMap →
      (∀ rop ∈ rops, rop.Installs (Mounted ops rop.keys)) →
      ∃ rops', (l.foldl apply s).bluePrint.router.routesMap = (Router.ofOps rops').routesMap ∧
        ∀ rop ∈ rops', rop.Installs (Mounted ops rop.keys) := by
    intro l
    induction l with
    | nil => exact fun s rops _ hs hrops => ⟨rops, hs, hrops⟩
    | cons op l ih =>
      intro s rops hl hs hrops
      obtain ⟨rops', hs', hrops'⟩ := exists_ops_apply hs hrops op (hl List.mem_cons_self)
      exact ih _ rops' (fun x hx => hl (List.mem_cons_of_mem _ hx)) hs' hrops'
  exact hfold ops empty [] (List.Subset.refl ops) rfl (by simp)

end HttpServer

end Wfrest
