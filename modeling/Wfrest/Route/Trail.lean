import Wfrest.Route.Dispatch

/-!
# What a search leaves in the request context

`find` writes to its two `OUT` parameters while it searches, and a branch that it
gives up does not take back what it wrote. The `trail` of a search is the list of
the steps that it takes, each a `Mark`: a step to the node that is found in the
end (`exact`, `param`, `wildcard`, `bare`), or a binding made in a branch that was
given up (`dropped`). It is computed from the segments and the tree alone.

* `search_spec`: the address of a node that is found spells the keys of the trail,
  `route_params` holds the bindings of the trail written one after the other, and
  `route_match_path` what its wildcard step captures.
* `Follows`: how the marks and the segments of the request lie next to each other,
  one lemma for the whole search (`follows_trail`).
-/

namespace Wfrest

variable {H : Type}

namespace RouteTableNode

/-! ### The trail -/

/-- The name inside the braces of a parameter key. -/
def paramName (k : Bytes) : Bytes := (paramPiece k).view

/-- A step of a search. -/
inductive Mark where
  /-- A binding in a branch that is given up later. -/
  | dropped (name seg : Bytes)
  /-- To the child named as the segment. -/
  | exact (key : Bytes)
  /-- To a parameter child, which binds the segment. -/
  | param (key seg : Bytes)
  /-- To a wildcard child, which takes the segment and all that follows. -/
  | wildcard (key seg : Bytes)
  /-- To the child `*` at the end of the request. -/
  | bare
  deriving DecidableEq, Repr

/-- The key of a step that is kept. -/
def Mark.key? : Mark → Option Bytes
  | dropped _ _ => none
  | exact k => some k
  | param k _ => some k
  | wildcard k _ => some k
  | bare => some [star]

/-- The binding that a step makes. -/
def Mark.binding? : Mark → Option (Bytes × Bytes)
  | dropped name seg => some (name, seg)
  | param k seg => some (paramName k, seg)
  | _ => none

/-- The bindings of a search that gives up, in order. -/
def givenUp : List Bytes → RouteTableNode H → List (Bytes × Bytes)
  | [], _ => []
  | s :: rest, n =>
    (match OrdMap.get? s n.children with
      | some child => givenUp rest child
      | none => []) ++
    (match n.children.find? (candidate s) with
      | some (k, child) => (paramName k, s) :: givenUp rest child
      | none => [])

/-- The loop over the children, with `go` for the rest of the trail. -/
def trailParam (s : Bytes) (children : List (Bytes × RouteTableNode H))
    (go : RouteTableNode H → List Mark) : List Mark :=
  match children.find? (candidate s) with
  | none => []
  | some (k, child) => if isWildcard k then [.wildcard k s] else .param k s :: go child

/-- The steps of a search that finds a node, in order. -/
def trail : List Bytes → RouteTableNode H → List Mark
  | [], n =>
    if n.val.verbHandlerMap ≠ [] ∨ n.children.isEmpty then []
    else if (OrdMap.get? [star] n.children).isSome then [.bare] else []
  | s :: rest, n =>
    if n.children.isEmpty then []
    else
      match OrdMap.get? s n.children with
      | some child =>
        if GivesUp rest child then
          (givenUp rest child).map (fun b => .dropped b.1 b.2) ++
            trailParam s n.children (trail rest)
        else .exact s :: trail rest child
      | none => trailParam s n.children (trail rest)

/-- The address that a trail leads to. -/
def keysOf (ms : List Mark) : NodePtr := ms.filterMap Mark.key?

/-- The bindings of a trail, dropped ones included. -/
def bindingsOf (ms : List Mark) : List (Bytes × Bytes) := ms.filterMap Mark.binding?

/-- The bindings written to `route_params` one after the other. -/
def bindAll (routeParams : List (Bytes × Bytes)) (bs : List (Bytes × Bytes)) :
    List (Bytes × Bytes) :=
  bs.foldl (fun ps b => OrdMap.set b.1 b.2 ps) routeParams

/-- What the wildcard step of a trail writes to `route_match_path`. -/
def captured : List Mark → List Cut → Option Bytes
  | .wildcard _ _ :: _, c :: _ => some (c.seg ++ c.tail)
  | .dropped _ _ :: ms, cs => captured ms cs
  | .exact _ :: ms, _ :: cs => captured ms cs
  | .param _ _ :: ms, _ :: cs => captured ms cs
  | _, _ => none

@[simp] theorem keysOf_nil : keysOf [] = [] := rfl

@[simp] theorem keysOf_exact (k : Bytes) (ms : List Mark) :
    keysOf (.exact k :: ms) = k :: keysOf ms := rfl

@[simp] theorem keysOf_param (k s : Bytes) (ms : List Mark) :
    keysOf (.param k s :: ms) = k :: keysOf ms := rfl

@[simp] theorem keysOf_wildcard (k s : Bytes) (ms : List Mark) :
    keysOf (.wildcard k s :: ms) = k :: keysOf ms := rfl

@[simp] theorem keysOf_bare (ms : List Mark) : keysOf (.bare :: ms) = [star] :: keysOf ms := rfl

@[simp] theorem keysOf_dropped (b : Bytes × Bytes) (ms : List Mark) :
    keysOf (.dropped b.1 b.2 :: ms) = keysOf ms := rfl

@[simp] theorem bindingsOf_nil : bindingsOf [] = [] := rfl

@[simp] theorem bindingsOf_exact (k : Bytes) (ms : List Mark) :
    bindingsOf (.exact k :: ms) = bindingsOf ms := rfl

@[simp] theorem bindingsOf_param (k s : Bytes) (ms : List Mark) :
    bindingsOf (.param k s :: ms) = (paramName k, s) :: bindingsOf ms := rfl

@[simp] theorem bindingsOf_wildcard (k s : Bytes) (ms : List Mark) :
    bindingsOf (.wildcard k s :: ms) = bindingsOf ms := rfl

@[simp] theorem bindingsOf_bare (ms : List Mark) : bindingsOf (.bare :: ms) = bindingsOf ms := rfl

theorem bindAll_append (ps bs bs' : List (Bytes × Bytes)) :
    bindAll ps (bs ++ bs') = bindAll (bindAll ps bs) bs' := List.foldl_append

/-- Dropped steps bind and lead nowhere. -/
theorem of_dropped (bs : List (Bytes × Bytes)) (ms : List Mark) (cs : List Cut) :
    keysOf (bs.map (fun b => Mark.dropped b.1 b.2) ++ ms) = keysOf ms ∧
      bindingsOf (bs.map (fun b => Mark.dropped b.1 b.2) ++ ms) = bs ++ bindingsOf ms ∧
      captured (bs.map (fun b => Mark.dropped b.1 b.2) ++ ms) cs = captured ms cs := by
  induction bs with
  | nil => exact ⟨rfl, rfl, rfl⟩
  | cons b bs ih =>
    obtain ⟨hkeys, hbind, hcap⟩ := ih
    refine ⟨hkeys, ?_, ?_⟩
    · rw [List.map_cons, List.cons_append, List.cons_append, ← hbind]
      rfl
    · rw [List.map_cons, List.cons_append, captured, hcap]

/-! ### The search writes its trail -/

/-- The name can be cut out of the key, and is `paramName`. -/
theorem asString_paramPiece {k name : Bytes} (h : (paramPiece k).asString = .ok name) :
    name = paramName k := by
  unfold StringPiece.asString at h
  split at h
  · exact (Except.ok.inj h).symm
  · cases h

/-- What a search from the node at `this` leaves behind, `given` being the bindings
it makes when it gives up and `ms` its trail when it finds a node. -/
def Leaves (given : List (Bytes × Bytes)) (ms : List Mark) (cs : List Cut) (this : NodePtr)
    (ctx : RouteCtx) (r : Iterator H × RouteCtx) : Prop :=
  (r.1.ptr = none → r.2 = ⟨bindAll ctx.routeParams given, ctx.routeMatchPath⟩) ∧
    ∀ p, r.1.ptr = some p → p = this ++ keysOf ms ∧
      r.2 = ⟨bindAll ctx.routeParams (bindingsOf ms),
        (captured ms cs).getD ctx.routeMatchPath⟩

section Steps

variable {given pre : List (Bytes × Bytes)} {ms : List Mark} {cs : List Cut} {this : NodePtr}
  {ctx : RouteCtx} {r : Iterator H × RouteCtx}

/-- A search that starts where a branch was given up. -/
theorem Leaves.after_drop
    (h : Leaves given ms cs this ⟨bindAll ctx.routeParams pre, ctx.routeMatchPath⟩ r) :
    Leaves (pre ++ given) (pre.map (fun b => Mark.dropped b.1 b.2) ++ ms) cs this ctx r := by
  obtain ⟨hkeys, hbind, hcap⟩ := of_dropped pre ms cs
  refine ⟨fun hptr => ?_, fun p hptr => ?_⟩
  · rw [h.1 hptr, bindAll_append]
  · obtain ⟨hp, hctx⟩ := h.2 p hptr
    rw [hkeys, hbind, hcap, bindAll_append]
    exact ⟨hp, hctx⟩

/-- A step to the child named as the segment, if the search ends at a node. -/
theorem Leaves.exact {k : Bytes} (h : Leaves given ms cs (this ++ [k]) ctx r)
    (hptr : r.1.ptr ≠ none) (given' : List (Bytes × Bytes)) (c : Cut) :
    Leaves given' (.exact k :: ms) (c :: cs) this ctx r := by
  refine ⟨fun h0 => absurd h0 hptr, fun p hp => ?_⟩
  obtain ⟨rfl, hctx⟩ := h.2 p hp
  exact ⟨by simp, hctx⟩

/-- A step to a parameter child. -/
theorem Leaves.param {k s : Bytes}
    (h : Leaves given ms cs (this ++ [k])
      { ctx with routeParams := OrdMap.set (paramName k) s ctx.routeParams } r) (c : Cut) :
    Leaves ((paramName k, s) :: given) (.param k s :: ms) (c :: cs) this ctx r := by
  refine ⟨fun h0 => h.1 h0, fun p hp => ?_⟩
  obtain ⟨rfl, hctx⟩ := h.2 p hp
  exact ⟨by simp, hctx⟩

/-- A search that stops where it stands. -/
theorem leaves_here (given : List (Bytes × Bytes)) (cs : List Cut) (this : NodePtr)
    (route : StringPiece) (vh : VerbHandler H) (ctx : RouteCtx) :
    Leaves given [] cs this ctx (⟨some this, route, vh⟩, ctx) := by
  refine ⟨by simp, fun p hp => ⟨?_, by cases cs <;> rfl⟩⟩
  rw [keysOf_nil, List.append_nil]
  exact (Option.some.inj hp).symm

end Steps

private theorem leaves_searchParam {route : StringPiece} {c : Cut} {cs : List Cut}
    {children : List (Bytes × RouteTableNode H)} {this : NodePtr}
    (ih : ∀ (n : RouteTableNode H) this ctx r, search route cs n this ctx = .ok r →
      Leaves (givenUp (cs.map Cut.seg) n) (trail (cs.map Cut.seg) n) cs this ctx r)
    {ctx : RouteCtx} {r : Iterator H × RouteCtx}
    (h : searchParam route c children this (search route cs) ctx = .ok r) :
    Leaves (match children.find? (candidate c.seg) with
        | some (k, child) => (paramName k, c.seg) :: givenUp (cs.map Cut.seg) child
        | none => [])
      (trailParam c.seg children (trail (cs.map Cut.seg))) (c :: cs) this ctx r := by
  unfold searchParam at h
  unfold trailParam
  cases hfind : children.find? (candidate c.seg) with
  | none =>
    rw [hfind] at h
    cases h
    exact ⟨fun _ => rfl, fun p hp => by simp [Iterator.fin] at hp⟩
  | some e =>
    obtain ⟨k, child⟩ := e
    rw [hfind] at h
    dsimp only at h ⊢
    split at h
    · next hw =>
      -- the wildcard takes the segment it stands at and the rest of the string
      cases h
      rw [if_pos hw]
      exact ⟨by simp, fun p hp => ⟨(Option.some.inj hp).symm, rfl⟩⟩
    · next hw =>
      rw [if_neg hw]
      cases hname : (paramPiece k).asString with
      | error e => rw [hname] at h; simp [bind, Except.bind] at h
      | ok name =>
        rw [hname, asString_paramPiece hname] at h
        exact (ih child _ _ r h).param c

/-- A search that stops without an exception gives up or finds a node. -/
private theorem givesUp_iff_of_search {route : StringPiece} {cs : List Cut} {n : RouteTableNode H}
    {this : NodePtr} {ctx : RouteCtx} {r : Iterator H × RouteCtx}
    (h : search route cs n this ctx = .ok r) :
    GivesUp (cs.map Cut.seg) n ↔ r.1.ptr = none := by
  have hhit := hit_search route cs n this ctx
  rw [h] at hhit
  rw [← reach_eq_none_iff]
  cases hr : reach (cs.map Cut.seg) n with
  | error e => rw [hr] at hhit; cases hhit
  | ok o =>
    rw [hr] at hhit
    have hhit' : r.1.hit = o.map (Hit.at this) := Except.ok.inj hhit
    cases o with
    | none => simpa [Iterator.hit] using hhit'
    | some q =>
      refine ⟨fun h' => absurd h' (by simp), fun h' => ?_⟩
      simp [Iterator.hit, h'] at hhit'

/-- **The search writes its trail**, or, when it gives up, the bindings of the
branches that it has tried. -/
theorem search_spec {route : StringPiece} {cs : List Cut} (n : RouteTableNode H) (this : NodePtr)
    (ctx : RouteCtx) (r : Iterator H × RouteCtx) (h : search route cs n this ctx = .ok r) :
    Leaves (givenUp (cs.map Cut.seg) n) (trail (cs.map Cut.seg) n) cs this ctx r := by
  induction cs generalizing n this ctx r with
  | nil =>
    rw [search] at h
    rw [List.map_nil, trail]
    split at h
    · next hstop =>
      cases h
      rw [if_pos hstop]
      exact leaves_here _ [] this route n.val ctx
    · next hstop =>
      rw [if_neg hstop]
      cases hget : OrdMap.get? [star] n.children with
      | none =>
        rw [hget] at h
        cases h
        exact ⟨fun _ => rfl, by simp⟩
      | some child =>
        rw [hget] at h
        cases h
        exact ⟨by simp, fun p hp => ⟨(Option.some.inj hp).symm, rfl⟩⟩
  | cons c cs ih =>
    rw [search] at h
    rw [List.map_cons, trail]
    split at h
    · next hleaf =>
      cases h
      rw [if_pos hleaf]
      exact leaves_here _ (c :: cs) this route n.val ctx
    · next hleaf =>
      rw [if_neg hleaf, givenUp]
      unfold searchChildren at h
      cases hget : OrdMap.get? c.seg n.children with
      | none =>
        rw [hget] at h
        exact leaves_searchParam ih h
      | some child =>
        rw [hget] at h
        cases hchild : search route cs child (this ++ [c.seg]) ctx with
        | error e => simp [hchild, bind, Except.bind] at h
        | ok r' =>
          have hgive := givesUp_iff_of_search hchild
          simp only [hchild, bind, Except.bind] at h
          split at h
          · next hptr =>
            -- the child named as the segment has led to a node: an exact step
            obtain rfl : r' = r := Except.ok.inj h
            have hne : r'.1.ptr ≠ none := Option.isSome_iff_ne_none.mp hptr
            dsimp only
            rw [if_neg fun hg => hne (hgive.mp hg)]
            exact (ih child _ ctx r' hchild).exact hne _ c
          · next hptr =>
            have hnone : r'.1.ptr = none := by simpa using hptr
            dsimp only
            -- it was given up: the loop starts with the bindings that it has left
            rw [if_pos (hgive.mpr hnone)]
            rw [(ih child _ ctx r' hchild).1 hnone] at h
            exact (leaves_searchParam ih h).after_drop

/-! ### Marks and segments -/

/-- How the marks of a trail lie next to the segments of the request. -/
inductive Follows : List Bytes → List Mark → Prop
  | nil (segs : List Bytes) : Follows segs []
  | dropped {segs : List Bytes} {ms : List Mark} {name seg : Bytes} :
      seg ∈ segs → Follows segs ms → Follows segs (.dropped name seg :: ms)
  | exact {segs : List Bytes} {ms : List Mark} {k : Bytes} :
      Follows segs ms → Follows (k :: segs) (.exact k :: ms)
  | param {segs : List Bytes} {ms : List Mark} {k s : Bytes} :
      isParam k = true → Follows segs ms → Follows (s :: segs) (.param k s :: ms)
  | wildcard {segs : List Bytes} {k s : Bytes} :
      isWildcard k = true → wildcardPrefix k <+: s → Follows (s :: segs) [.wildcard k s]
  | bare : Follows [] [.bare]

theorem seg_mem_of_mem_givenUp {segs : List Bytes} {n : RouteTableNode H} {b : Bytes × Bytes}
    (h : b ∈ givenUp segs n) : b.2 ∈ segs := by
  induction segs generalizing n with
  | nil => simp [givenUp] at h
  | cons s rest ih =>
    rw [givenUp, List.mem_append] at h
    rcases h with h | h
    · split at h
      · exact List.mem_cons_of_mem s (ih h)
      · simp at h
    · split at h
      · rcases List.mem_cons.mp h with rfl | h
        · exact List.mem_cons_self
        · exact List.mem_cons_of_mem s (ih h)
      · simp at h

theorem Follows.after_drop {segs : List Bytes} {ms : List Mark} (h : Follows segs ms)
    {bs : List (Bytes × Bytes)} (hbs : ∀ b ∈ bs, b.2 ∈ segs) :
    Follows segs (bs.map (fun b => Mark.dropped b.1 b.2) ++ ms) := by
  induction bs with
  | nil => exact h
  | cons b bs ih =>
    exact .dropped (hbs b List.mem_cons_self) (ih fun b' hb' => hbs b' (List.mem_cons_of_mem b hb'))

private theorem follows_trailParam {s : Bytes} {rest : List Bytes}
    (children : List (Bytes × RouteTableNode H))
    (ih : ∀ n : RouteTableNode H, Follows rest (trail rest n)) :
    Follows (s :: rest) (trailParam s children (trail rest)) := by
  unfold trailParam
  cases hfind : children.find? (candidate s) with
  | none => exact .nil _
  | some e =>
    obtain ⟨k, child⟩ := e
    have hcand := candidate_iff.mp (List.find?_some hfind)
    dsimp only
    split
    · next hw =>
      rcases hcand with ⟨-, hpre⟩ | hp
      · exact .wildcard hw hpre
      · simp [isWildcard_of_isParam hp] at hw
    · next hw =>
      rcases hcand with ⟨hw', -⟩ | hp
      · exact absurd hw' hw
      · exact .param hp (ih child)

/-- **Every step** of a trail takes the next segment of the request. -/
theorem follows_trail (segs : List Bytes) (n : RouteTableNode H) :
    Follows segs (trail segs n) := by
  induction segs generalizing n with
  | nil =>
    rw [trail]
    split
    · exact .nil _
    · split
      · exact .bare
      · exact .nil _
  | cons s rest ih =>
    rw [trail]
    split
    · exact .nil _
    · cases OrdMap.get? s n.children with
      | none => exact follows_trailParam n.children ih
      | some child =>
        dsimp only
        split
        · refine (follows_trailParam n.children ih).after_drop fun b hb => ?_
          exact List.mem_cons_of_mem s (seg_mem_of_mem_givenUp hb)
        · exact .exact (ih child)

end RouteTableNode

end Wfrest
