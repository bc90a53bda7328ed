import Wfrest.Route.Dispatch

/-!
# `BluePrint`

A blueprint is a router that is filled by `ROUTE` calls and mounted into another
one by `add_blueprint`. The mount goes through `all_routes`, which reports the
leaves of the tree with their keys glued to a string, and registers each string
behind the url prefix.

* `allRoutes_eq`: the reports are the `Trie.leaves`, their text is `joinKeys`.
* `joined_joinKeys`: gluing drops the empty keys, and leaves a slash at the end
  when the last key is empty.
* `exists_ops`: a blueprint's tree is the tree of a sequence of calls, and each
  call installs handlers of the blueprint only.
-/

namespace Wfrest

variable {H : Type}

open RouteTableNode

/-- A blueprint. `H` stands for the wrapped handlers. -/
structure BluePrint (H : Type) where
  router : Router H

/-- `url_prefix` followed by exactly one slash, and the reported string. -/
def mountPath (urlPrefix subPrefix : Bytes) : Bytes :=
  if urlPrefix ≠ [] ∧ urlPrefix.getLast? = some slash then urlPrefix ++ subPrefix
  else urlPrefix ++ [slash] ++ subPrefix

namespace BluePrint

def empty : BluePrint H := ⟨Router.empty⟩

/-- `BluePrint::ROUTE`, after the handler is wrapped. -/
def ROUTE (b : BluePrint H) (c : HandleCall H) : BluePrint H :=
  ⟨b.router.handle c.route c.computeQueueId c.handler c.verb⟩

/-- The callback that `add_blueprint` hands to `all_routes`. -/
def mount (urlPrefix : Bytes) (r : Router H) (e : Bytes × VerbHandler H) : Router H :=
  let route := cStr (mountPath urlPrefix e.1)
  { routes := Router.addRoute r.routes (e.2.verbHandlerMap.map Prod.fst) route
    routesMap := r.routesMap.findOrCreate route fun _ => { e.2 with path := route } }

/-- `BluePrint::add_blueprint` -/
def addBlueprint (b bp : BluePrint H) (urlPrefix : Bytes) : BluePrint H :=
  ⟨bp.router.routesMap.allRoutes.foldl (mount urlPrefix) b.router⟩

end BluePrint

/-- What a blueprint is built by. -/
inductive BluePrintOp (H : Type) where
  | ROUTE (c : HandleCall H)
  | addBlueprint (bp : List (BluePrintOp H)) (urlPrefix : Bytes)

namespace BluePrintOp

mutual

def apply : BluePrintOp H → BluePrint H → BluePrint H
  | ROUTE c, b => b.ROUTE c
  | addBlueprint bp urlPrefix, b => b.addBlueprint (applyAll bp BluePrint.empty) urlPrefix

def applyAll : List (BluePrintOp H) → BluePrint H → BluePrint H
  | [], b => b
  | op :: ops, b => applyAll ops (op.apply b)

end

mutual

/-- The same calls with other handlers. -/
def map {K : Type} (f : H → K) : BluePrintOp H → BluePrintOp K
  | ROUTE c => ROUTE (c.map f)
  | addBlueprint bp urlPrefix => addBlueprint (mapAll f bp) urlPrefix

def mapAll {K : Type} (f : H → K) : List (BluePrintOp H) → List (BluePrintOp K)
  | [] => []
  | op :: ops => op.map f :: mapAll f ops

end

end BluePrintOp

/-- The blueprint after a sequence of calls. -/
def BluePrint.build (ops : List (BluePrintOp H)) : BluePrint H :=
  BluePrintOp.applyAll ops BluePrint.empty

/-! ### The enumeration -/

/-- The text of a leaf: its keys behind each other, as `all_routes` glues them. -/
def joinKeys : Bytes → List Bytes → Bytes
  | pre, [] => pre
  | pre, k :: ks => joinKeys (withSlash pre ++ k) ks

/-- **`all_routes` reports the leaves**, in key order. -/
theorem allRoutes_eq (t : RouteTableNode H) (pre : Bytes) :
    t.allRoutes pre = t.leaves.map fun e => (joinKeys pre e.1, e.2) := by
  induction t using Trie.ind generalizing pre with
  | h v cs ih =>
    rw [allRoutes, Trie.leaves]
    split
    · rfl
    · have hlist : ∀ l : List (Bytes × RouteTableNode H), (∀ e ∈ l, e ∈ cs) →
          allRoutesChildren l (withSlash pre)
            = (Trie.leavesList l).map fun e => (joinKeys pre e.1, e.2) := by
        intro l hl
        induction l with
        | nil => rfl
        | cons x l ihl =>
          obtain ⟨k, c⟩ := x
          rw [allRoutesChildren, Trie.leavesList, List.map_append, List.map_map,
            ih k c (hl _ List.mem_cons_self), ihl fun e he => hl e (List.mem_cons_of_mem _ he)]
          rfl
      exact hlist cs fun e he => he

/-- The text spells the segments, with or without a slash at its end. -/
def Joined (s : Bytes) (segs : List Bytes) : Prop :=
  ∃ y, y ≠ [] ∧ y.getLast? ≠ some slash ∧ y.splitOn slash = segs ∧ (s = y ∨ s = y ++ [slash])

private theorem withSlash_joined {y : Bytes} (hne : y ≠ []) (hlast : y.getLast? ≠ some slash)
    {s : Bytes} (hs : s = y ∨ s = y ++ [slash]) : withSlash s = y ++ [slash] := by
  unfold withSlash
  rcases hs with rfl | rfl
  · rw [if_pos ⟨hne, hlast⟩]
  · simp

/-- **Gluing drops the empty keys.** -/
theorem joined_joinKeys_of {pre : Bytes} {segs ks : List Bytes} (hpre : Joined pre segs)
    (hks : ∀ k ∈ ks, slash ∉ k) : Joined (joinKeys pre ks) (segs ++ ks.filter (· ≠ [])) := by
  induction ks generalizing pre segs with
  | nil => simpa [joinKeys] using hpre
  | cons k ks ih =>
    obtain ⟨y, hne, hlast, hsplit, hy⟩ := hpre
    have hks' : ∀ k' ∈ ks, slash ∉ k' := fun k' hk' => hks k' (List.mem_cons_of_mem _ hk')
    rw [joinKeys, withSlash_joined hne hlast hy]
    by_cases hk : k = []
    · -- an empty key only leaves the slash
      subst hk
      have := ih ⟨y, hne, hlast, hsplit, Or.inr (List.append_nil _)⟩ hks'
      simpa using this
    · have hk' : slash ∉ k := hks k List.mem_cons_self
      -- any other key is appended behind one slash, and ends the text again
      have hjoin : Joined (y ++ [slash] ++ k) (segs ++ [k]) := by
        refine ⟨y ++ [slash] ++ k, by simp, ?_, ?_, Or.inl rfl⟩
        · rw [List.getLast?_append]
          intro h
          cases hgl : k.getLast? with
          | none => exact hk (List.getLast?_eq_none_iff.mp hgl)
          | some c =>
            rw [hgl, Option.some_or, Option.some.injEq] at h
            exact hk' (h ▸ List.mem_of_getLast? hgl)
        · rw [List.append_assoc, List.singleton_append, splitOn_append_slash, hsplit,
            List.splitOn_eq_singleton hk']
      have := ih hjoin hks'
      simpa [hk] using this

/-- The text of a leaf, from the start. -/
theorem joinKeys_nil_cases {ks : List Bytes} (hks : ∀ k ∈ ks, slash ∉ k) :
    (joinKeys [] ks = [] ∧ ∀ k ∈ ks, k = []) ∨ Joined (joinKeys [] ks) (ks.filter (· ≠ [])) := by
  induction ks with
  | nil => exact Or.inl ⟨rfl, by simp⟩
  | cons k ks ih =>
    have hks' : ∀ k' ∈ ks, slash ∉ k' := fun k' hk' => hks k' (List.mem_cons_of_mem _ hk')
    have hstart : joinKeys [] (k :: ks) = joinKeys k ks := rfl
    by_cases hk : k = []
    · subst hk
      -- an empty key at the front leaves the text empty, without a slash
      rw [hstart]
      rcases ih hks' with ⟨hnil, hall⟩ | h
      · exact Or.inl ⟨hnil, by simpa using hall⟩
      · exact Or.inr (by simpa using h)
    · right
      have hk' : slash ∉ k := hks k List.mem_cons_self
      have hjoin : Joined k [k] := by
        refine ⟨k, hk, ?_, List.splitOn_eq_singleton hk', Or.inl rfl⟩
        intro h
        exact hk' (List.mem_of_getLast? h)
      rw [hstart]
      have := joined_joinKeys_of hjoin hks'
      simpa [hk] using this

/-! ### Where a leaf is mounted -/

theorem mountPath_eq (urlPrefix s : Bytes) :
    mountPath urlPrefix s = stripSlash urlPrefix ++ slash :: s := by
  unfold mountPath stripSlash
  split
  · next h =>
    rw [if_pos h.2]
    conv_lhs => rw [← List.dropLast_append_getLast? _ h.2]
    simp
  · next h =>
    have hlast : urlPrefix.getLast? ≠ some slash := fun hl => h ⟨by rintro rfl; simp at hl, hl⟩
    rw [if_neg hlast]
    simp

theorem stripSlash_append_joined {w s y : Bytes} (hne : y ≠ []) (hlast : y.getLast? ≠ some slash)
    (hs : s = y ∨ s = y ++ [slash]) : stripSlash (w ++ slash :: s) = w ++ slash :: y := by
  rcases hs with rfl | rfl
  · refine stripSlash_of_ne ?_
    rw [List.getLast?_append, List.getLast?_cons]
    cases hgl : s.getLast? with
    | none => exact absurd (List.getLast?_eq_none_iff.mp hgl) hne
    | some c => simpa [hgl] using hlast
  · have : w ++ slash :: (y ++ [slash]) = (w ++ slash :: y) ++ [slash] := by simp
    rw [this, stripSlash_concat]

/-- The keys of a path that continues with glued segments. -/
theorem routeKeys_append_joined {w s : Bytes} {segs : List Bytes} (h : Joined s segs) :
    routeKeys (w ++ slash :: s) = reqSegs w ++ segs := by
  obtain ⟨y, hne, hlast, hsplit, hs⟩ := h
  have hroot : w ++ slash :: s ≠ [slash] := by
    intro heq
    have hlen := congrArg List.length heq
    have hsne : s ≠ [] := by rcases hs with rfl | rfl <;> simp [hne]
    have := List.length_pos_of_ne_nil hsne
    simp only [List.length_append, List.length_cons, List.length_nil] at hlen
    omega
  rw [routeKeys, if_neg hroot, stripSlash_append_joined hne hlast hs, reqSegs_append_slash, hsplit]

/-- The keys of the mounted `/`: an empty segment behind those of the prefix. -/
theorem routeKeys_append_slash (w : Bytes) :
    routeKeys (w ++ [slash, slash]) = reqSegs w ++ [[]] := by
  have hroot : w ++ [slash, slash] ≠ [slash] := by
    intro heq
    have hlen := congrArg List.length heq
    simp at hlen
  have hstrip : stripSlash (w ++ [slash, slash]) = w ++ [slash] := by
    have : w ++ [slash, slash] = (w ++ [slash]) ++ [slash] := by simp
    rw [this, stripSlash_concat]
  rw [routeKeys, if_neg hroot, hstrip, reqSegs_append_slash]
  rfl

/-! ### Blueprints as sequences of calls -/

/-- The handlers after the call were there before, or satisfy `P`. -/
def RouterOp.Installs (P : H → Prop) (op : RouterOp H) : Prop :=
  ∀ vh, ∀ e ∈ (op.effect vh).verbHandlerMap, e ∈ vh.verbHandlerMap ∨ P e.2

theorem HandleCall.installs_op (c : HandleCall H) : c.op.Installs (· = c.handler) := by
  intro vh e he
  change e ∈ (Router.registerVerb _ _ c.handler c.verb vh).verbHandlerMap at he
  unfold Router.registerVerb at he
  split at he
  · exact Or.inl he
  · next hnone =>
    have hmap : OrdMap.insert c.verb c.handler vh.verbHandlerMap
        = OrdMap.insertNew c.verb c.handler vh.verbHandlerMap := by
      rw [OrdMap.insert, hnone]
      rfl
    rw [hmap] at he
    rcases OrdMap.mem_insertNew.mp he with rfl | he
    · exact Or.inr rfl
    · exact Or.inl he

/-- The handlers of a node are those that the calls reaching it have installed. -/
theorem Router.forall_valAt_tree {P : H → Prop} {ops : List (RouterOp H)} {q : NodePtr}
    (hops : ∀ op ∈ opsAt q ops, op.Installs P) :
    ∀ e ∈ (Trie.valAt q (tree ops)).verbHandlerMap, P e.2 := by
  rw [valAt_tree]
  have hfold : ∀ (l : List (RouterOp H)) (vh : VerbHandler H), (∀ op ∈ l, op.Installs P) →
      (∀ e ∈ vh.verbHandlerMap, P e.2) →
      ∀ e ∈ (l.foldl (fun vh op => op.effect vh) vh).verbHandlerMap, P e.2 := by
    intro l
    induction l with
    | nil => exact fun vh _ h => h
    | cons op l ih =>
      intro vh hl hvh
      refine ih _ (fun op' hop' => hl op' (List.mem_cons_of_mem _ hop')) fun e he => ?_
      exact (hl op List.mem_cons_self vh e he).elim (hvh e) id
  exact hfold _ _ hops (by simp [default])

namespace BluePrint

/-- The call by which a leaf is mounted. -/
def mountOp (urlPrefix : Bytes) (e : List Bytes × VerbHandler H) : RouterOp H :=
  .findOrCreate (cStr (mountPath urlPrefix (joinKeys [] e.1)))
    fun _ => { e.2 with path := cStr (mountPath urlPrefix (joinKeys [] e.1)) }

theorem installs_mountOp {P : H → Prop} {urlPrefix : Bytes} {e : List Bytes × VerbHandler H}
    (h : ∀ x ∈ e.2.verbHandlerMap, P x.2) : (mountOp urlPrefix e).Installs P :=
  fun _ x hx => Or.inr (h x hx)

private theorem routesMap_apply {r r' : Router H} (h : r.routesMap = r'.routesMap)
    (op : RouterOp H) : (op.apply r).routesMap = (op.apply r').routesMap := by
  cases op <;> simp [RouterOp.apply, Router.handle, h]

theorem routesMap_ofOps_concat {r : Router H} {ops : List (RouterOp H)}
    (h : r.routesMap = (Router.ofOps ops).routesMap) (op : RouterOp H) :
    (op.apply r).routesMap = (Router.ofOps (ops ++ [op])).routesMap := by
  rw [Router.ofOps, List.foldl_concat]
  exact routesMap_apply h op

/-- **A mount** is a sequence of calls, one for each leaf. -/
theorem routesMap_addBlueprint {b : BluePrint H} {ops : List (RouterOp H)}
    (h : b.router.routesMap = (Router.ofOps ops).routesMap) (bp : BluePrint H)
    (urlPrefix : Bytes) :
    (b.addBlueprint bp urlPrefix).router.routesMap =
      (Router.ofOps
        (ops ++ bp.router.routesMap.root.leaves.map (mountOp urlPrefix))).routesMap := by
  -- one call of `handle` for each leaf of the report, in its order
  have hfold : ∀ (l : List (List Bytes × VerbHandler H)) (r : Router H) (ops : List (RouterOp H)),
      r.routesMap = (Router.ofOps ops).routesMap →
      ((l.map fun e => (joinKeys [] e.1, e.2)).foldl (mount urlPrefix) r).routesMap =
        (Router.ofOps (ops ++ l.map (mountOp urlPrefix))).routesMap := by
    intro l
    induction l with
    | nil =>
      intro r ops hr
      simpa using hr
    | cons e l ih =>
      intro r ops hr
      have hstep : (mount urlPrefix r (joinKeys [] e.1, e.2)).routesMap
          = (Router.ofOps (ops ++ [mountOp urlPrefix e])).routesMap :=
        routesMap_ofOps_concat (r := r) hr (mountOp urlPrefix e)
      have := ih _ _ hstep
      rwa [List.append_assoc] at this
  rw [addBlueprint, RouteTable.allRoutes, allRoutes_eq]
  exact hfold _ _ ops h

end BluePrint

namespace BluePrintOp

variable {K : Type} (f : K → H)

mutual

private theorem exists_ops_apply : ∀ (op : BluePrintOp K) (b : BluePrint H)
    (rops : List (RouterOp H)), b.router.routesMap = (Router.ofOps rops).routesMap →
    (∀ rop ∈ rops, rop.Installs fun h => ∃ x, f x = h) →
    ∃ rops', ((op.map f).apply b).router.routesMap = (Router.ofOps rops').routesMap ∧
      ∀ rop ∈ rops', rop.Installs fun h => ∃ x, f x = h
  | ROUTE c, b, rops, hb, hrops => by
    have hstep := BluePrint.routesMap_ofOps_concat hb (c.map f).op
    refine ⟨_, by rw [map, apply]; exact hstep, fun rop hrop => ?_⟩
    rcases List.mem_append.mp hrop with hrop | hrop
    · exact hrops rop hrop
    · rw [List.mem_singleton.mp hrop]
      intro vh e he
      exact (HandleCall.installs_op _ vh e he).imp_right fun h => ⟨c.handler, h.symm⟩
  | addBlueprint bp urlPrefix, b, rops, hb, hrops => by
    obtain ⟨bops, hbp, hbops⟩ := exists_ops_applyAll bp BluePrint.empty [] rfl (by simp)
    refine ⟨_, BluePrint.routesMap_addBlueprint hb _ urlPrefix, fun rop hrop => ?_⟩
    rcases List.mem_append.mp hrop with hrop | hrop
    · exact hrops rop hrop
    · obtain ⟨e, he, rfl⟩ := List.mem_map.mp hrop
      refine BluePrint.installs_mountOp ?_
      -- the handlers of a leaf of the mounted tree
      change e ∈ (applyAll (mapAll f bp) BluePrint.empty).router.routesMap.root.leaves at he
      rw [hbp] at he
      obtain ⟨n, hn, -, hval⟩ := (Trie.mem_leaves (Router.wf_tree bops)).mp he
      rw [← hval, ← Trie.valAt_of_sub? hn]
      exact Router.forall_valAt_tree fun rop hrop => hbops rop (Router.mem_opsAt hrop).1

private theorem exists_ops_applyAll : ∀ (ops : List (BluePrintOp K)) (b : BluePrint H)
    (rops : List (RouterOp H)), b.router.routesMap = (Router.ofOps rops).routesMap →
    (∀ rop ∈ rops, rop.Installs fun h => ∃ x, f x = h) →
    ∃ rops', (applyAll (mapAll f ops) b).router.routesMap = (Router.ofOps rops').routesMap ∧
      ∀ rop ∈ rops', rop.Installs fun h => ∃ x, f x = h
  | [], _, rops, hb, hrops => ⟨rops, hb, hrops⟩
  | op :: ops, b, rops, hb, hrops => by
    obtain ⟨rops', hb', hrops'⟩ := exists_ops_apply op b rops hb hrops
    exact exists_ops_applyAll ops _ rops' hb' hrops'

end

/-- **The tree of a blueprint** is the tree of a sequence of calls that install
its own handlers. -/
theorem exists_ops (ops : List (BluePrintOp K)) :
    ∃ rops : List (RouterOp H), (BluePrint.build (mapAll f ops)).router.routesMap
        = (Router.ofOps rops).routesMap ∧
      ∀ rop ∈ rops, rop.Installs fun h => ∃ x, f x = h :=
  exists_ops_applyAll f ops BluePrint.empty [] rfl (by simp)

/-- A blueprint that is built by `ROUTE` calls alone. -/
theorem routesMap_build_ROUTE (calls : List (HandleCall H)) :
    (BluePrint.build (calls.map ROUTE)).router.routesMap
      = (Router.ofOps (calls.map HandleCall.op)).routesMap := by
  have hfold : ∀ (calls : List (HandleCall H)) (b : BluePrint H) (ops : List (RouterOp H)),
      b.router.routesMap = (Router.ofOps ops).routesMap →
      (applyAll (calls.map ROUTE) b).router.routesMap
        = (Router.ofOps (ops ++ calls.map HandleCall.op)).routesMap := by
    intro calls
    induction calls with
    | nil =>
      intro b ops hb
      simpa [applyAll] using hb
    | cons c calls ih =>
      intro b ops hb
      have := ih _ _ (BluePrint.routesMap_ofOps_concat hb c.op)
      rwa [List.append_assoc] at this
  exact hfold calls BluePrint.empty [] rfl

end BluePrintOp

end Wfrest
