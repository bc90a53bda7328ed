import Wfrest.Lib.LexPath
import Wfrest.Route.MatchPath
import Wfrest.Server.Transparent

/-!
# Static files

The handler of a mounted directory hands `root + "/" + match_path` to
`HttpResp::File`. `Inside` says what a root is for: the path leads to something below
it, however many `.` and `..` it contains.

`inside_iff` says when it does. The match path is what is left of the encoded request
path behind the segments of the mount, and `url_encode` keeps dots and slashes, so
every `..` of a request arrives in the path that is opened. What it does there is
decided by the segments alone: cancelled against the names before them they climb some
levels, and the path is inside iff it goes down again by the names that it has climbed
past (`StaysBelow`). Without more `..` than names it always is
(`staysBelow_of_balanced`).
-/

namespace Wfrest

variable {H : Type}

open CodeUtil RouteTableNode

/-! ### What a path leads to -/

/-- The step that a segment of a path is. -/
def pathStep (seg : Bytes) : PathStep Bytes :=
  if seg = [] ∨ seg = ascii "." then .stay
  else if seg = ascii ".." then .up
  else .down seg

/-- The steps of a path. -/
def pathSteps (path : Bytes) : List (PathStep Bytes) := (path.splitOn slash).map pathStep

/-- The directory or file that a path leads to in a process that works in `cwd`; links
are not followed. -/
def resolve (cwd : List Bytes) (path : Bytes) : List Bytes :=
  PathStep.walk (if path.head? = some slash then [] else cwd) (pathSteps path)

/-- **The path is inside the root.** -/
def Inside (cwd : List Bytes) (root path : Bytes) : Prop := resolve cwd root <+: resolve cwd path

instance (cwd : List Bytes) (root path : Bytes) : Decidable (Inside cwd root path) := by
  unfold Inside; infer_instance

/-- A path that continues below a directory. -/
theorem resolve_append (cwd : List Bytes) {root : Bytes} (hne : root ≠ []) (path : Bytes) :
    resolve cwd (root ++ [slash] ++ path) = PathStep.walk (resolve cwd root) (pathSteps path) := by
  obtain ⟨c, cs, rfl⟩ := List.exists_cons_of_ne_nil hne
  have hsteps : pathSteps (c :: cs ++ [slash] ++ path) =
      pathSteps (c :: cs) ++ pathSteps path := by
    unfold pathSteps
    rw [List.append_assoc, List.singleton_append, splitOn_append_slash, List.map_append]
  unfold resolve
  rw [hsteps, PathStep.walk_append]
  rfl

/-- Encoding a segment renames the step: the dots are among the bytes that are kept. -/
theorem pathStep_urlEncode (seg : Bytes) :
    pathStep (urlEncode seg) = (pathStep seg).map urlEncode := by
  -- a text of kept bytes is the code of itself alone
  have hkept : ∀ t, urlEncode t = t → (urlEncode seg = t ↔ seg = t) := fun t ht =>
    ⟨fun h => urlEncode_injective (h.trans ht.symm), fun h => h ▸ ht⟩
  have hdot := hkept (ascii ".") (by decide)
  have hdots := hkept (ascii "..") (by decide)
  unfold pathStep
  simp only [urlEncode_eq_nil_iff, hdot, hdots]
  split
  · rfl
  · split <;> rfl

/-! ### When the path stays below the root -/

/-- Behind the mount the request path climbs `ups` levels above the root, and goes down
again by the names of the levels that it has left. -/
def StaysBelow (cwd : List Bytes) (root : Bytes) (segs : List Bytes) : Prop :=
  let n := PathStep.net (segs.map pathStep)
  (resolve cwd root).rtake n.ups <+: n.downs.map urlEncode

instance (cwd : List Bytes) (root : Bytes) (segs : List Bytes) :
    Decidable (StaysBelow cwd root segs) := by
  unfold StaysBelow; infer_instance

/-- Segments of which no beginning has more `..` than names stay below every root. -/
theorem staysBelow_of_balanced {segs : List Bytes}
    (h : ∀ p, p <+: segs.map pathStep → PathStep.ups p ≤ PathStep.downs p)
    (cwd : List Bytes) (root : Bytes) : StaysBelow cwd root segs := by
  change (resolve cwd root).rtake (PathStep.net (segs.map pathStep)).ups <+: _
  rw [(PathStep.net_ups_eq_zero_iff _).mpr h, List.rtake_zero]
  exact List.nil_prefix

/-- The steps of the encoded segments, from any directory. -/
theorem prefix_walk_urlEncode_iff (cwd : List Bytes) (root : Bytes) (segs : List Bytes) :
    resolve cwd root <+: PathStep.walk (resolve cwd root) ((segs.map urlEncode).map pathStep) ↔
      StaysBelow cwd root segs := by
  have hmap : (segs.map urlEncode).map pathStep =
      (segs.map pathStep).map (PathStep.map urlEncode) := by
    rw [List.map_map, List.map_map]
    exact List.map_congr_left fun seg _ => pathStep_urlEncode seg
  -- climbing and going down do not look at names, so they commute with the renaming
  rw [PathStep.prefix_walk_iff, hmap, PathStep.net_map]
  rfl

/-- The path that is opened for a match path is inside the root iff its steps are. -/
theorem inside_servedPath_iff (cwd : List Bytes) {root : Bytes} (hne : root ≠ [])
    {matchPath : Bytes} {segs : List Bytes}
    (h : matchPath.splitOn slash = segs.map urlEncode ∨ (matchPath = [] ∧ segs = [])) :
    Inside cwd root (servedPath root false matchPath) ↔ StaysBelow cwd root segs := by
  have hserved : servedPath root false matchPath = root ++ [slash] ++ matchPath := by
    simp [servedPath]
  unfold Inside
  rw [hserved, resolve_append cwd hne, pathSteps]
  rcases h with h | ⟨rfl, rfl⟩
  · rw [h]
    exact prefix_walk_urlEncode_iff cwd root segs
  · -- the empty match path is one step that stays
    exact prefix_walk_urlEncode_iff cwd root []

/-! ### The request -/

namespace HttpServer

/-- **A request that the lambda of a mount answers** found the node of the mount, and
the match path is the rest of the encoded request path behind it. -/
theorem mount_of_handled {parse : Bytes → Option ParsedURI} {ops : List (ServerOp H)}
    {req : Request} {queryParams routeParams : List (Bytes × Bytes)} {root : Bytes}
    {isFile : Bool} {fullPath matchPath : Bytes}
    (h : (build ops).process parse req =
      .ok (.handled queryParams (.serveStatic root isFile) fullPath routeParams matchPath)) :
    ∃ uri relativePath, parse (uriText req) = some uri ∧
      Mounts ops relativePath root isFile ∧
      ((build ops).bluePrint.router.routesMap.find (Router.callPiece (urlEncode uri.route))
        RouteCtx.init).map (fun r => r.1.ptr) = .ok (some (mountKeys relativePath)) ∧
      let segs := (reqSegs uri.route).drop (mountSegs relativePath).length
      (matchPath.splitOn slash = segs.map urlEncode ∨ (matchPath = [] ∧ segs = [])) := by
  obtain ⟨uri, hparse, hcall⟩ := process_eq_handled h
  obtain ⟨rops, hmap, hinst⟩ := exists_ops ops
  obtain ⟨it, ctx, q, hfind, hptr, rfl, v, hv⟩ := Router.find_of_call hcall
  have hfind' := hfind
  rw [hmap] at hfind'
  -- the lambda belongs to a mount at this node
  have hmounted : Mounted ops q (.serveStatic root isFile) := by
    rw [Router.second_find (Router.valid_callPiece _) hfind' hptr] at hv
    refine Router.forall_valAt_tree (P := Mounted ops q) (fun rop hrop => ?_) _ hv
    obtain ⟨hmem, hkeys⟩ := Router.mem_opsAt hrop
    exact hkeys ▸ hinst rop hmem
  obtain ⟨relativePath, hmounts, rfl⟩ := hmounted root isFile rfl
  refine ⟨uri, relativePath, hparse, hmounts, by rw [hfind, ← hptr]; rfl, ?_⟩
  -- an encoded path has neither a NUL nor a star
  have hmatch :=
    Router.matchPath_find (zero_notMem_urlEncode _) (star_notMem_urlEncode _) hfind' hptr
  rw [reqSegs_urlEncode, ← List.map_drop] at hmatch
  exact hmatch.imp_right fun hnil => ⟨hnil.1, List.map_eq_nil_iff.mp hnil.2⟩

/-- **When a served path is inside its root.** A request that a mounted directory
answers opens a path inside the directory iff what is left of the request path behind
the mount stays below the root. -/
theorem inside_iff (parse : Bytes → Option ParsedURI) (ops : List (ServerOp H)) (req : Request)
    (cwd : List Bytes) {queryParams routeParams : List (Bytes × Bytes)} {root : Bytes}
    {fullPath matchPath : Bytes}
    (h : (build ops).process parse req =
      .ok (.handled queryParams (.serveStatic root false) fullPath routeParams matchPath)) :
    ∃ uri relativePath, parse (uriText req) = some uri ∧
      Mounts ops relativePath root false ∧
      ((build ops).bluePrint.router.routesMap.find (Router.callPiece (urlEncode uri.route))
        RouteCtx.init).map (fun r => r.1.ptr) = .ok (some (mountKeys relativePath)) ∧
      (Inside cwd root (servedPath root false matchPath) ↔
        StaysBelow cwd root ((reqSegs uri.route).drop (mountSegs relativePath).length)) := by
  obtain ⟨uri, relativePath, hparse, hmounts, hfind, hmatch⟩ := mount_of_handled h
  exact ⟨uri, relativePath, hparse, hmounts, hfind,
    inside_servedPath_iff cwd hmounts.pathStr_ne_nil hmatch⟩

/-- A file system with the directory `/www`. -/
def sampleFs : FileSystem where
  isDir path := path = ascii "/www"
  isFile _ := false
  isDir_nil := by decide

/-- `Static("/static", "/www")` -/
def sampleOps : List (ServerOp Unit) := [.Static sampleFs (ascii "/static") (ascii "/www")]

/-- The parse of a URI without a query on the host `h`. -/
def sampleParse (text : Bytes) : Option ParsedURI :=
  if ascii "http://h" <+: text then some ⟨some (text.drop 8), none⟩ else none

/-- `GET` of a path on the host `h`. -/
def sampleReq (path : String) : Request :=
  ⟨ascii "GET", [(ascii "Host", ascii "h")], ascii path⟩

/-- A `..` below the mount. -/
theorem inside_iff_below :
    ∃ uri relativePath, sampleParse (uriText (sampleReq "/static/a/../b")) = some uri ∧
      Mounts sampleOps relativePath (ascii "/www") false ∧
      ((build sampleOps).bluePrint.router.routesMap.find
        (Router.callPiece (urlEncode uri.route)) RouteCtx.init).map (fun r => r.1.ptr) =
          .ok (some (mountKeys relativePath)) ∧
      (Inside [] (ascii "/www") (servedPath (ascii "/www") false (ascii "a/../b")) ↔
        StaysBelow [] (ascii "/www")
          ((reqSegs uri.route).drop (mountSegs relativePath).length)) := by
  have hrun : (build sampleOps).process sampleParse (sampleReq "/static/a/../b") =
      .ok (.handled [] (.serveStatic (ascii "/www") false) (ascii "/static/*") []
        (ascii "a/../b")) := by
    decide +kernel
  exact inside_iff sampleParse sampleOps (sampleReq "/static/a/../b") [] hrun

/-- A `..` right behind the mount leads out of the root. -/
theorem not_inside_dotdot :
    ¬ ∀ (parse : Bytes → Option ParsedURI) (ops : List (ServerOp Unit)) (req : Request)
        (cwd : List Bytes) (queryParams routeParams : List (Bytes × Bytes))
        (root fullPath matchPath : Bytes),
      (build ops).process parse req =
        .ok (.handled queryParams (.serveStatic root false) fullPath routeParams matchPath) →
      Inside cwd root (servedPath root false matchPath) := by
  intro hall
  have hrun : (build sampleOps).process sampleParse (sampleReq "/static/../secret") =
      .ok (.handled [] (.serveStatic (ascii "/www") false) (ascii "/static/*") []
        (ascii "../secret")) := by
    decide +kernel
  have hinside := hall _ _ _ [] _ _ _ _ _ hrun
  exact absurd hinside (by decide +kernel)

end HttpServer

end Wfrest
