import Wfrest.Route.MatchPath
import Wfrest.Route.Order
import Wfrest.Route.Trail

/-!
# The answer of a call

`call_spec` is the whole of `Router::call` as a function of the tree and the path:
the lookup finds an address or none, and the handler that is chosen there runs in
the `context` that the trail of the lookup has left.

The wildcard step is the only one that looks at the memory behind the view.
`captured_spec` says what it takes: the rest of the path from its segment on,
with the slash that `call` has cut off, up to the first NUL.

`call_slash_iff` is what follows for a trailing slash. It changes the answer when
the handler that runs was found by a wildcard step, and in no other case.
-/

namespace Wfrest

variable {H : Type}

/-! ### The text behind the first segments -/

/-- What is left of a path behind its first `i` segments. -/
def afterSegs : Nat → Bytes → Bytes
  | 0, r => r
  | i + 1, r => afterSegs i (tailSegs r)

@[simp] theorem tailSegs_nil : tailSegs [] = [] := rfl

@[simp] theorem afterSegs_nil (i : Nat) : afterSegs i [] = [] := by
  induction i with
  | zero => rfl
  | succ i ih => exact ih

/-- The segments behind the first `i` ones. -/
theorem reqSegs_afterSegs (i : Nat) (r : Bytes) :
    reqSegs (afterSegs i r) = (reqSegs r).drop i := by
  induction i generalizing r with
  | zero => rfl
  | succ i ih =>
    by_cases hr : r = []
    · subst hr
      rw [afterSegs_nil, reqSegs_nil, List.drop_nil]
    · rw [afterSegs, ih, reqSegs_eq_cons hr, List.drop_succ_cons]

/-- The last step taken first. -/
theorem afterSegs_succ (i : Nat) (r : Bytes) : afterSegs (i + 1) r = tailSegs (afterSegs i r) := by
  induction i generalizing r with
  | zero => rfl
  | succ i ih => exact ih (tailSegs r)

theorem afterSegs_ne_nil_iff {i : Nat} {r : Bytes} :
    afterSegs i r ≠ [] ↔ i < (reqSegs r).length := by
  have hsegs := reqSegs_afterSegs i r
  constructor
  · intro hne
    rw [reqSegs_eq_cons hne] at hsegs
    by_contra hle
    rw [List.drop_eq_nil_of_le (by omega)] at hsegs
    exact List.cons_ne_nil _ _ hsegs
  · intro hlt hnil
    rw [hnil, reqSegs_nil] at hsegs
    have hlen := congrArg List.length hsegs
    rw [List.length_drop, List.length_nil] at hlen
    omega

/-- A slash behind the path stays behind what is left of it. -/
theorem afterSegs_append {i : Nat} {r t : Bytes} (ht : t = [] ∨ t = [slash])
    (hi : i < (reqSegs r).length) : afterSegs i (r ++ t) = afterSegs i r ++ t := by
  induction i generalizing r with
  | zero => rfl
  | succ i ih =>
    have hr : r ≠ [] := by
      rintro rfl
      simp at hi
    rw [reqSegs_eq_cons hr, List.length_cons] at hi
    rw [afterSegs, RouteTableNode.tailSegs_append hr ht, afterSegs, ih (by omega)]

namespace RouteTableNode

/-! ### What a wildcard step takes -/

/-- The cuts of a path whose view leaves out the text `t` at its end. -/
theorem getElem?_cuts {route : StringPiece} (h : route.Valid) {t : Bytes}
    (hptr : route.ptr = route.view ++ t) (c i : Nat) :
    (cuts route c)[i]? = ((reqSegs (route.view.drop c))[i]?).map fun seg =>
      ⟨seg, cStr (afterSegs (i + 1) (route.view.drop c) ++ t)⟩ := by
  fun_induction cuts route c generalizing i with
  | case2 c hc =>
    rw [h.drop_view_eq_nil_iff.mpr (by omega)]
    rfl
  | case1 c hc ih =>
    have hne : route.view.drop c ≠ [] := by
      rw [Ne, h.drop_view_eq_nil_iff]
      omega
    rw [reqSegs_eq_cons hne]
    cases i with
    | zero =>
      have hdrop : route.ptr.drop (route.next c) = tailSegs (route.view.drop c) ++ t := by
        rw [hptr, List.drop_append_of_le_length (by rw [h.length_view]; exact h.next_le hc),
          h.drop_next hc]
      rw [List.getElem?_cons_zero, List.getElem?_cons_zero, Option.map_some, hdrop, h.view_mid hc]
      rfl
    | succ i =>
      rw [List.getElem?_cons_succ, List.getElem?_cons_succ, ih, h.drop_next hc]
      rfl

/-- The step takes the rest of the request. -/
def Mark.isWild : Mark → Bool
  | wildcard _ _ => true
  | _ => false

/-- The trail ends with a wildcard step. -/
def endsWild (ms : List Mark) : Bool := ms.getLast?.any Mark.isWild

theorem endsWild_cons {m : Mark} (hm : m.isWild = false) (ms : List Mark) :
    endsWild (m :: ms) = endsWild ms := by
  cases ms with
  | nil => simpa [endsWild] using hm
  | cons m' ms => simp [endsWild]

/-- A wildcard step has a key of its own. -/
theorem keysOf_ne_nil {ms : List Mark} (h : endsWild ms = true) : keysOf ms ≠ [] := by
  unfold endsWild at h
  obtain ⟨m, hm, hw⟩ := (Option.any_eq_true _ _).mp h
  have hmem : m ∈ ms := List.mem_of_getLast? hm
  cases m with
  | wildcard k s =>
    intro hnil
    have hkey := List.filterMap_eq_nil_iff.mp hnil _ hmem
    simp [Mark.key?] at hkey
  | _ => simp [Mark.isWild] at hw

/-- **The capture** of a trail that ends with a wildcard step: the cut at the
last key of its address. -/
theorem captured_eq {segs : List Bytes} {ms : List Mark} (h : Follows segs ms) {cs : List Cut}
    (hcs : cs.map Cut.seg = segs) :
    captured ms cs = if endsWild ms then
      (cs[(keysOf ms).length - 1]?).map fun c => c.seg ++ c.tail else none := by
  -- a step that is not a wildcard one moves on to the next cut
  have hnext : ∀ {ms : List Mark} {m : Mark} {c : Cut} {cs : List Cut}, m.isWild = false →
      (keysOf (m :: ms)).length = (keysOf ms).length + 1 →
      captured ms cs = (if endsWild ms then
        (cs[(keysOf ms).length - 1]?).map fun c => c.seg ++ c.tail else none) →
      captured ms cs = if endsWild (m :: ms) then
        ((c :: cs)[(keysOf (m :: ms)).length - 1]?).map fun c => c.seg ++ c.tail else none := by
    intro ms m c cs hm hlen hcap
    rw [hcap, endsWild_cons hm, hlen]
    split
    · next hw =>
      obtain ⟨j, hj⟩ := Nat.exists_eq_succ_of_ne_zero
        (List.length_pos_iff.mpr (keysOf_ne_nil hw)).ne'
      rw [hj]
      rfl
    · rfl
  induction h generalizing cs with
  | nil => cases cs <;> rfl
  | dropped hmem hfol ih =>
    rw [captured, ih hcs, endsWild_cons rfl]
    rfl
  | exact hfol ih =>
    obtain ⟨c, cs, rfl, hc, hcs'⟩ := List.map_eq_cons_iff.mp hcs
    exact hnext rfl rfl (ih hcs')
  | param hp hfol ih =>
    obtain ⟨c, cs, rfl, hc, hcs'⟩ := List.map_eq_cons_iff.mp hcs
    exact hnext rfl rfl (ih hcs')
  | wildcard hw hpre =>
    obtain ⟨c, cs, rfl, hc, hcs'⟩ := List.map_eq_cons_iff.mp hcs
    rfl
  | bare =>
    rw [List.map_eq_nil_iff.mp hcs]
    rfl

/-- A wildcard step has a segment to take. -/
theorem Follows.length_keysOf {segs : List Bytes} {ms : List Mark} (h : Follows segs ms) :
    (keysOf ms).length ≤ segs.length ∨ ∃ pre, ms = pre ++ [.bare] := by
  induction h with
  | nil => exact Or.inl (Nat.zero_le _)
  | dropped hmem hfol ih =>
    exact ih.imp id fun ⟨pre, hpre⟩ => ⟨_ :: pre, by rw [hpre]; rfl⟩
  | exact hfol ih =>
    exact ih.imp Nat.succ_le_succ fun ⟨pre, hpre⟩ => ⟨_ :: pre, by rw [hpre]; rfl⟩
  | param hp hfol ih =>
    exact ih.imp Nat.succ_le_succ fun ⟨pre, hpre⟩ => ⟨_ :: pre, by rw [hpre]; rfl⟩
  | wildcard hw hpre => exact Or.inl (Nat.succ_le_succ (Nat.zero_le _))
  | bare => exact Or.inr ⟨[], rfl⟩

theorem not_endsWild_bare (pre : List Mark) : endsWild (pre ++ [.bare]) = false := by
  simp [endsWild, Mark.isWild]

end RouteTableNode

/-! ### The call -/

namespace Router

open RouteTableNode

/-- The trail of the lookup of a path. -/
def trail (ops : List (RouterOp H)) (path : Bytes) : List Mark :=
  if path = [slash] ∧ Trie.Has [[slash]] (tree ops) then [.exact [slash]]
  else RouteTableNode.trail (reqSegs path) (tree ops)

/-- The request context that the trail leaves. -/
def context (ops : List (RouterOp H)) (path : Bytes) : RouteCtx :=
  let ms := trail ops (callPath path)
  ⟨bindAll [] (bindingsOf ms), (captured ms (cuts (callPiece path) 0)).getD []⟩

/-- **A lookup** leaves the context of its trail, and ends at its address. -/
theorem find_spec {ops : List (RouterOp H)} {path : Bytes} {it : Iterator H} {ctx : RouteCtx}
    {q : NodePtr}
    (hfind : (ofOps ops).routesMap.find (callPiece path) RouteCtx.init = .ok (it, ctx))
    (hptr : it.ptr = some q) :
    q = keysOf (trail ops (callPath path)) ∧ ctx = context ops path := by
  have hvalid := valid_callPiece path
  change find (tree ops) [] (callPiece path) 0 RouteCtx.init = .ok (it, ctx) at hfind
  by_cases hroot : callPath path = [slash] ∧ Trie.Has [[slash]] (tree ops)
  · obtain ⟨n, hn⟩ := Option.isSome_iff_exists.mp hroot.2
    have hget : OrdMap.get? [slash] (tree ops).children = some n := by
      rw [← Trie.sub?_singleton, hn]
    rw [find_root hvalid (by rw [view_callPiece, hroot.1]) hget (leaf_of_root_child hn)] at hfind
    cases hfind
    have hq : q = [[slash]] := (Option.some.inj hptr).symm
    -- the special case for `/` returns before it writes to the context
    have hcap : captured [Mark.exact [slash]] (cuts (callPiece path) 0) = none := by
      cases cuts (callPiece path) 0 with
      | nil => rfl
      | cons c cs => cases cs <;> rfl
    unfold context trail
    rw [if_pos hroot]
    refine ⟨hq, ?_⟩
    change RouteCtx.init =
      ⟨[], (captured [Mark.exact [slash]] (cuts (callPiece path) 0)).getD []⟩
    rw [hcap]
    rfl
  · have hnone : (0 : Nat) = 0 → (callPiece path).view = [slash] →
        OrdMap.get? [slash] (tree ops).children = none := by
      intro _ hview
      rw [view_callPiece] at hview
      rw [← Trie.sub?_singleton, ← Option.not_isSome_iff_eq_none]
      exact fun hhas => hroot ⟨hview, hhas⟩
    rw [find_eq_search hvalid (tree ops) [] 0 (Nat.zero_le _) hnone] at hfind
    have hsegs : (cuts (callPiece path) 0).map Cut.seg = reqSegs (callPath path) := by
      rw [map_seg_cuts hvalid, List.drop_zero, view_callPiece]
    obtain ⟨hq, hctx⟩ := (search_spec _ _ _ _ hfind).2 q hptr
    rw [hsegs, List.nil_append] at hq
    rw [hsegs] at hctx
    unfold context trail
    rw [if_neg hroot]
    exact ⟨hq, hctx⟩

/-- **A call** is the lookup of its path, and the choice of a handler at the node
that it finds. -/
theorem call_spec (ops : List (RouterOp H)) (verb : Verb) (path : Bytes) :
    (ofOps ops).call verb path = (findPtr ops (callPath path)).map fun
      | some q => answer verb (Trie.valAt q (tree ops)) (context ops path)
      | none => .StatusRouteNotFound := by
  have hptr := ptr_find ops (valid_callPiece path) RouteCtx.init
  rw [view_callPiece] at hptr
  rw [call_eq, ← hptr]
  change Except.map _ ((ofOps ops).routesMap.find (callPiece path) RouteCtx.init) = _
  cases hfind : (ofOps ops).routesMap.find (callPiece path) RouteCtx.init with
  | error e => rfl
  | ok r =>
    obtain ⟨it, ctx⟩ := r
    change Except.ok _ = Except.ok _
    cases hq : it.ptr with
    | none => simp [hq]
    | some q =>
      obtain ⟨-, hctx⟩ := find_spec hfind hq
      simp only [hq, Option.isSome_some, if_true]
      rw [second_find (valid_callPiece path) hfind hq, hctx]

/-- A call that runs a handler has found its node. -/
theorem exists_of_call_run {ops : List (RouterOp H)} {verb : Verb} {path : Bytes} {handler : H}
    {fullPath : Bytes} {routeParams : List (Bytes × Bytes)} {matchPath : Bytes}
    (hrun : (ofOps ops).call verb path = .ok (.run handler fullPath routeParams matchPath)) :
    ∃ q, findPtr ops (callPath path) = .ok (some q) ∧
      answer verb (Trie.valAt q (tree ops)) (context ops path) =
        .run handler fullPath routeParams matchPath := by
  rw [call_spec] at hrun
  cases hfind : findPtr ops (callPath path) with
  | error e =>
    rw [hfind] at hrun
    cases hrun
  | ok o =>
    rw [hfind] at hrun
    cases o with
    | none => cases hrun
    | some q => exact ⟨q, rfl, Except.ok.inj hrun⟩

/-- The address of a lookup spells the keys of its trail. -/
theorem keysOf_trail {ops : List (RouterOp H)} {path : Bytes} {q : NodePtr}
    (h : findPtr ops (callPath path) = .ok (some q)) :
    q = keysOf (trail ops (callPath path)) := by
  rw [← view_callPiece] at h
  obtain ⟨it, ctx, hfind, hptr⟩ := exists_find_of_findPtr (valid_callPiece path) RouteCtx.init h
  exact (find_spec hfind hptr).1

/-- The trail lies along the segments of the path; that of `/` has no binding and
no capture. -/
theorem follows_trail (ops : List (RouterOp H)) (path : Bytes) :
    trail ops path = [.exact [slash]] ∨ Follows (reqSegs path) (trail ops path) := by
  unfold trail
  split
  · exact Or.inl rfl
  · exact Or.inr (RouteTableNode.follows_trail _ _)

/-- The text that the lookup of a path captures, if it ends with a wildcard step:
the path from that step's segment on, read up to a NUL. -/
theorem captured_spec (ops : List (RouterOp H)) (path : Bytes)
    (hw : endsWild (trail ops (callPath path)) = true) :
    ∃ i, ∃ hi : i < (reqSegs (callPath path)).length,
      i + 1 = (keysOf (trail ops (callPath path))).length ∧
      (context ops path).routeMatchPath =
        (reqSegs (callPath path))[i] ++ cStr (afterSegs (i + 1) path) := by
  obtain ⟨t, hpath, ht⟩ := exists_eq_callPath_append path
  have hvalid := valid_callPiece path
  have hview : (callPiece path).ptr = (callPiece path).view ++ t := by
    rw [view_callPiece, callPiece_eq]
    exact hpath
  have hfol : Follows (reqSegs (callPath path)) (trail ops (callPath path)) := by
    rcases follows_trail ops (callPath path) with h | h
    · rw [h] at hw
      exact absurd hw (by decide)
    · exact h
  have hsegs : (cuts (callPiece path) 0).map Cut.seg = reqSegs (callPath path) := by
    rw [map_seg_cuts hvalid, List.drop_zero, view_callPiece]
  have hpos := List.length_pos_iff.mpr (keysOf_ne_nil hw)
  have hlen : (keysOf (trail ops (callPath path))).length ≤ (reqSegs (callPath path)).length := by
    rcases hfol.length_keysOf with h | ⟨pre, h⟩
    · exact h
    · rw [h, not_endsWild_bare] at hw
      exact absurd hw (by decide)
  obtain ⟨i, hlast⟩ := Nat.exists_eq_succ_of_ne_zero hpos.ne'
  have hi : i < (reqSegs (callPath path)).length := by omega
  refine ⟨i, hi, hlast.symm, ?_⟩
  have hcut := getElem?_cuts hvalid hview 0 i
  rw [List.drop_zero, view_callPiece, List.getElem?_eq_getElem hi, Option.map_some] at hcut
  -- the slash that was cut off stays behind the last segment
  have htail : afterSegs (i + 1) path = afterSegs (i + 1) (callPath path) ++ t := by
    conv_lhs => rw [hpath]
    rw [afterSegs_succ, afterSegs_succ, afterSegs_append ht hi,
      tailSegs_append (afterSegs_ne_nil_iff.mpr hi) ht]
  change (captured (trail ops (callPath path)) (cuts (callPiece path) 0)).getD [] = _
  rw [captured_eq hfol hsegs, if_pos hw, hlast, Nat.succ_sub_one, hcut, htail]
  rfl

/-- Nothing is captured without a wildcard step. -/
theorem routeMatchPath_eq_nil (ops : List (RouterOp H)) (path : Bytes)
    (hw : endsWild (trail ops (callPath path)) = false) :
    (context ops path).routeMatchPath = [] := by
  have hcap : captured (trail ops (callPath path)) (cuts (callPiece path) 0) = none := by
    rcases follows_trail ops (callPath path) with h | h
    · rw [h]
      cases cuts (callPiece path) 0 with
      | nil => rfl
      | cons c cs => cases cs <;> rfl
    · have hsegs : (cuts (callPiece path) 0).map Cut.seg = reqSegs (callPath path) := by
        rw [map_seg_cuts (valid_callPiece path), List.drop_zero, view_callPiece]
      rw [captured_eq h hsegs, hw]
      rfl
  change (captured (trail ops (callPath path)) (cuts (callPiece path) 0)).getD [] = _
  rw [hcap]
  rfl

end Router

end Wfrest
