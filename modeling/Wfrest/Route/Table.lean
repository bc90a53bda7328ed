import Wfrest.Route.Router
import Mathlib.Data.List.Induction

/-!
# What a router holds

The tree of a router after any sequence of registrations, read off the sequence:

* `has_tree`: the nodes are the prefixes of the registered keys;
* `valAt_tree`: the value of a node is the result of the calls that reach it, in
  order (`opsAt`). Every call for a node's keys reaches it, except that of the
  calls for `/` only the first does;
* `wf_tree`: the children of every node are in key order;
* `get?_valAt_tree`: after `handle` calls, the handler of a verb at a node is
  that of the first call that reaches it.
-/

namespace Wfrest

variable {H : Type}

/-! ### Keys -/

/-- The keys of `/` do not occur in the keys of any other route. -/
theorem slash_mem_routeKeys_iff {r : Bytes} : [slash] ∈ routeKeys r ↔ r = [slash] := by
  unfold routeKeys
  split
  · next h => simp [h]
  · next h =>
    refine ⟨fun hmem => ?_, fun hr => absurd hr h⟩
    exact absurd (List.mem_singleton_self slash) (slash_notMem_of_mem_reqSegs hmem)

theorem routeKeys_eq_root_iff {r : Bytes} : routeKeys r = [[slash]] ↔ r = [slash] := by
  constructor
  · intro h
    exact slash_mem_routeKeys_iff.mp (by rw [h]; exact List.mem_cons_self)
  · rintro rfl
    rfl

/-- Registered keys that pass through the node of `/` end there. -/
theorem routeKeys_eq_of_root_prefix {r : Bytes} {q : List Bytes} (h : q <+: routeKeys r)
    (hq : [slash] ∈ q) : routeKeys r = [[slash]] :=
  routeKeys_eq_root_iff.mpr (slash_mem_routeKeys_iff.mp (h.subset hq))

/-! ### The tree -/

namespace Router

/-- The tree after a sequence of calls. -/
def tree (ops : List (RouterOp H)) : RouteTableNode H := (ofOps ops).routesMap.root

@[simp] theorem tree_nil : tree ([] : List (RouterOp H)) = Trie.empty := rfl

private theorem root_findOrCreate (t : RouteTable H) (route : Bytes)
    (f : VerbHandler H → VerbHandler H) :
    (t.findOrCreate route f).root = t.root.findOrCreate (StringPiece.ofCStr route) 0 f := by
  unfold RouteTable.findOrCreate
  dsimp only
  split <;> rfl

/-- **One call.** It updates the node of its keys, unless it registers `/` for
the second time. -/
theorem tree_concat (ops : List (RouterOp H)) (op : RouterOp H) :
    tree (ops ++ [op]) =
      if op.route = [slash] ∧ Trie.Has [[slash]] (tree ops) then tree ops
      else Trie.update op.effect op.keys (tree ops) := by
  have hstep : ∃ route, cStr route = op.route ∧
      tree (ops ++ [op]) = (tree ops).findOrCreate (StringPiece.ofCStr route) 0 op.effect := by
    unfold tree ofOps
    rw [List.foldl_concat]
    cases op with
    | findOrCreate route f => exact ⟨route, rfl, root_findOrCreate _ route f⟩
    | handle route queue handler verb =>
      exact ⟨route, rfl, root_findOrCreate _ route (registerVerb route queue handler verb)⟩
  obtain ⟨route, hroute, htree⟩ := hstep
  rw [htree, RouteTableNode.findOrCreate_eq (StringPiece.valid_ofCStr route),
    StringPiece.view_ofCStr, hroute]
  rfl

theorem wf_tree (ops : List (RouterOp H)) : Trie.WF (tree ops) := by
  induction ops using List.reverseRecOn with
  | nil => exact Trie.wf_empty
  | append_singleton ops op ih =>
    rw [tree_concat]
    split
    · exact ih
    · exact ih.update

/-- **Nodes.** -/
theorem has_tree (ops : List (RouterOp H)) (q : NodePtr) :
    Trie.Has q (tree ops) ↔ q = [] ∨ ∃ op ∈ ops, q <+: op.keys := by
  induction ops using List.reverseRecOn with
  | nil =>
    cases q with
    | nil => simp
    | cons k q => simp [Trie.Has, Trie.sub?_cons, Trie.empty]
  | append_singleton ops op ih =>
    have hmem : (∃ op' ∈ ops ++ [op], q <+: op'.keys) ↔
        (∃ op' ∈ ops, q <+: op'.keys) ∨ q <+: op.keys := by
      simp [or_and_right, exists_or]
    rw [tree_concat, hmem, ← or_assoc, ← ih]
    split
    · next h =>
      refine ⟨Or.inl, fun hor => hor.elim id fun hq => ?_⟩
      -- the keys of `/` are already there
      have hkeys : op.keys = [[slash]] := routeKeys_eq_root_iff.mpr h.1
      rw [hkeys] at hq
      obtain ⟨r, hr⟩ := hq
      exact Trie.Has.of_append (q := r) (by rw [hr]; exact h.2)
    · exact Trie.has_update op.effect op.keys q (tree ops)

/-- The calls that reach a node, in order. -/
def opsAt (q : NodePtr) (ops : List (RouterOp H)) : List (RouterOp H) :=
  if q = [[slash]] then (ops.filter fun op => op.keys = q).take 1
  else ops.filter fun op => op.keys = q

theorem mem_opsAt {q : NodePtr} {ops : List (RouterOp H)} {op : RouterOp H}
    (h : op ∈ opsAt q ops) : op ∈ ops ∧ op.keys = q := by
  have hfilter : op ∈ ops.filter fun op => op.keys = q := by
    unfold opsAt at h
    split at h
    · exact List.mem_of_mem_take h
    · exact h
  simpa using hfilter

theorem has_root_iff (ops : List (RouterOp H)) :
    Trie.Has [[slash]] (tree ops) ↔ ∃ op ∈ ops, op.keys = [[slash]] := by
  rw [has_tree]
  constructor
  · rintro (h | ⟨op, hop, hpre⟩)
    · simp at h
    · exact ⟨op, hop, routeKeys_eq_of_root_prefix hpre List.mem_cons_self⟩
  · rintro ⟨op, hop, hkeys⟩
    exact Or.inr ⟨op, hop, hkeys ▸ List.prefix_refl _⟩

theorem keys_eq_root_iff (op : RouterOp H) : op.keys = [[slash]] ↔ op.route = [slash] :=
  routeKeys_eq_root_iff

/-- A new call reaches the node of its keys, unless it registers `/` for the
second time. -/
theorem opsAt_concat (q : NodePtr) (ops : List (RouterOp H)) (op : RouterOp H) :
    opsAt q (ops ++ [op]) =
      if q = op.keys ∧ ¬ (op.route = [slash] ∧ Trie.Has [[slash]] (tree ops)) then
        opsAt q ops ++ [op]
      else opsAt q ops := by
  by_cases hq : q = op.keys
  · have hfilter : [op].filter (fun op => decide (op.keys = q)) = [op] := by simp [hq]
    by_cases hslash : q = [[slash]]
    · have hroute : op.route = [slash] := (keys_eq_root_iff op).mp (hq ▸ hslash)
      unfold opsAt
      rw [if_pos hslash, if_pos hslash, List.filter_append, hfilter]
      -- the first call for `/` is kept, the ones behind it are cut off by `take 1`
      cases hat : ops.filter fun op => decide (op.keys = q) with
      | nil =>
        have hno : ¬ ∃ op ∈ ops, op.keys = [[slash]] := by
          rintro ⟨op', hop', hkeys⟩
          have := List.filter_eq_nil_iff.mp hat op' hop'
          exact this (by simp [hkeys, hslash])
        rw [if_pos ⟨hq, fun h => hno ((has_root_iff ops).mp h.2)⟩]
        rfl
      | cons x xs =>
        have hx : x ∈ ops.filter fun op => decide (op.keys = q) := by
          rw [hat]; exact List.mem_cons_self
        have hyes : ∃ op ∈ ops, op.keys = [[slash]] :=
          ⟨x, (List.mem_filter.mp hx).1, by simpa [hslash] using (List.mem_filter.mp hx).2⟩
        rw [if_neg (fun h => h.2 ⟨hroute, (has_root_iff ops).mpr hyes⟩)]
        rfl
    · have hroute : op.route ≠ [slash] := fun h =>
        hslash (hq.trans ((keys_eq_root_iff op).mpr h))
      unfold opsAt
      rw [if_neg hslash, if_neg hslash, if_pos ⟨hq, fun h => hroute h.1⟩, List.filter_append,
        hfilter]
  · have hfilter : [op].filter (fun op => decide (op.keys = q)) = [] := by simp [Ne.symm hq]
    rw [if_neg (fun h => hq h.1)]
    unfold opsAt
    rw [List.filter_append, hfilter, List.append_nil]

/-- **Values.** -/
theorem valAt_tree (ops : List (RouterOp H)) (q : NodePtr) :
    Trie.valAt q (tree ops) = (opsAt q ops).foldl (fun vh op => op.effect vh) default := by
  induction ops using List.reverseRecOn with
  | nil =>
    have hnil : opsAt q ([] : List (RouterOp H)) = [] := by
      unfold opsAt
      split <;> rfl
    rw [hnil]
    cases q with
    | nil => rfl
    | cons k q => exact Trie.valAt_of_not_has (by simp [Trie.Has, Trie.sub?_cons, Trie.empty])
  | append_singleton ops op ih =>
    rw [tree_concat, opsAt_concat]
    -- a second call for `/` changes neither the tree nor the calls that count
    by_cases hagain : op.route = [slash] ∧ Trie.Has [[slash]] (tree ops)
    · rw [if_pos hagain, if_neg (fun h => h.2 hagain), ih]
    · rw [if_neg hagain, Trie.valAt_update]
      by_cases hq : q = op.keys
      · rw [if_pos hq, if_pos ⟨hq, hagain⟩, List.foldl_concat, ← ih, hq]
      · rw [if_neg hq, if_neg (fun h => hq h.1), ih]

/-- Later calls do not reach the node of `/` once it is there. -/
theorem opsAt_root_append {ops : List (RouterOp H)} (h : Trie.Has [[slash]] (tree ops))
    (ops' : List (RouterOp H)) : opsAt [[slash]] (ops ++ ops') = opsAt [[slash]] ops := by
  obtain ⟨op, hop, hkeys⟩ := (has_root_iff ops).mp h
  have hne : (ops.filter fun op => op.keys = [[slash]]) ≠ [] :=
    List.ne_nil_of_mem (List.mem_filter.mpr ⟨hop, by simp [hkeys]⟩)
  obtain ⟨x, xs, hxs⟩ := List.exists_cons_of_ne_nil hne
  unfold opsAt
  rw [if_pos rfl, if_pos rfl, List.filter_append, hxs]
  rfl

/-- The last call for a node acts on what the calls before it have left. -/
theorem valAt_tree_last {ops ops' : List (RouterOp H)} {op : RouterOp H}
    (hlast : ∀ op' ∈ ops', op'.keys ≠ op.keys)
    (hroot : op.keys = [[slash]] → ∀ op' ∈ ops, op'.keys ≠ [[slash]]) :
    Trie.valAt op.keys (tree (ops ++ op :: ops')) = op.effect (Trie.valAt op.keys (tree ops)) := by
  have hnil : (ops'.filter fun op' => op'.keys = op.keys) = [] := by
    rw [List.filter_eq_nil_iff]
    intro op' hop'
    simpa using hlast op' hop'
  have hself : ((op :: ops').filter fun op' => op'.keys = op.keys) = [op] := by
    rw [List.filter_cons_of_pos (by simp), hnil]
  -- so `op` is the last of the calls that reach the node
  have hat : opsAt op.keys (ops ++ op :: ops') = opsAt op.keys ops ++ [op] := by
    unfold opsAt
    rw [List.filter_append, hself]
    by_cases hslash : op.keys = [[slash]]
    · have hnone : (ops.filter fun op' => op'.keys = op.keys) = [] := by
        rw [List.filter_eq_nil_iff]
        intro op' hop'
        simpa [hslash] using hroot hslash op' hop'
      rw [if_pos hslash, if_pos hslash, hnone]
      rfl
    · rw [if_neg hslash, if_neg hslash]
  rw [valAt_tree, hat, List.foldl_concat, valAt_tree]

/-- A node that holds something was registered. -/
theorem exists_op_of_valAt {ops : List (RouterOp H)} {q : NodePtr}
    (h : (Trie.valAt q (tree ops)).verbHandlerMap ≠ []) : ∃ op ∈ ops, op.keys = q := by
  rw [valAt_tree] at h
  cases hat : opsAt q ops with
  | nil => rw [hat] at h; exact absurd rfl h
  | cons op l =>
    have hmem : op ∈ opsAt q ops := by rw [hat]; exact List.mem_cons_self
    exact ⟨op, mem_opsAt hmem⟩

/-- A leaf other than the root was registered. -/
theorem exists_op_of_leaf {ops : List (RouterOp H)} {q : NodePtr} {n : RouteTableNode H}
    (hsub : Trie.sub? q (tree ops) = some n) (hleaf : n.children = []) (hne : ops ≠ []) :
    ∃ op ∈ ops, op.keys = q := by
  have hno := (Trie.children_eq_nil_iff hsub).mp hleaf
  have hpre : ∃ op ∈ ops, q <+: op.keys := by
    rcases (has_tree ops q).mp (by rw [Trie.Has, hsub]; rfl) with hq | h
    · obtain ⟨op, l, rfl⟩ := List.exists_cons_of_ne_nil hne
      exact ⟨op, List.mem_cons_self, hq ▸ List.nil_prefix⟩
    · exact h
  obtain ⟨op, hop, r, hr⟩ := hpre
  refine ⟨op, hop, ?_⟩
  cases r with
  | nil => rw [← hr, List.append_nil]
  | cons k r =>
    refine absurd ((has_tree ops (q ++ [k])).mpr (Or.inr ⟨op, hop, r, ?_⟩)) (hno k)
    rw [← hr, List.append_assoc]
    rfl

/-- The node of `/` is a leaf. -/
theorem leaf_of_root_child {ops : List (RouterOp H)} {n : RouteTableNode H}
    (hsub : Trie.sub? [[slash]] (tree ops) = some n) : n.children = [] := by
  rw [Trie.children_eq_nil_iff hsub]
  intro k hhas
  rcases (has_tree ops _).mp hhas with h | ⟨op, _, hpre⟩
  · simp at h
  · rw [show op.keys = [[slash]] from
      routeKeys_eq_of_root_prefix hpre (by simp)] at hpre
    exact absurd hpre.length_le (by simp)

end Router

/-! ### `handle` calls -/

/-- The arguments of a call of `Router::handle`. -/
structure HandleCall (H : Type) where
  route : Bytes
  computeQueueId : Int
  handler : H
  verb : Verb

namespace HandleCall

/-- The call. -/
def op (c : HandleCall H) : RouterOp H := .handle c.route c.computeQueueId c.handler c.verb

/-- The same call with another handler. -/
def map {K : Type} (f : H → K) (c : HandleCall H) : HandleCall K :=
  ⟨c.route, c.computeQueueId, f c.handler, c.verb⟩

/-- The keys of the node that the call registers at. -/
def keys (c : HandleCall H) : NodePtr := c.op.keys

/-- The calls that reach a node, in order. -/
def callsAt (q : NodePtr) (calls : List (HandleCall H)) : List (HandleCall H) :=
  if q = [[slash]] then (calls.filter fun c => c.keys = q).take 1
  else calls.filter fun c => c.keys = q

theorem mem_callsAt {q : NodePtr} {calls : List (HandleCall H)} {c : HandleCall H}
    (h : c ∈ callsAt q calls) : c ∈ calls ∧ c.keys = q := by
  have hfilter : c ∈ calls.filter fun c => c.keys = q := by
    unfold callsAt at h
    split at h
    · exact List.mem_of_mem_take h
    · exact h
  simpa using hfilter

theorem opsAt_map (q : NodePtr) (calls : List (HandleCall H)) :
    Router.opsAt q (calls.map op) = (callsAt q calls).map op := by
  unfold Router.opsAt callsAt
  rw [List.filter_map]
  split
  · rw [← List.map_take]; rfl
  · rfl

/-- A handler that is already there stays; a verb without one gets that of the
first call. -/
theorem get?_foldl_registerVerb (calls : List (HandleCall H)) (vh : VerbHandler H) (v : Verb) :
    OrdMap.get? v ((calls.map op).foldl (fun vh op => op.effect vh) vh).verbHandlerMap =
      (OrdMap.get? v vh.verbHandlerMap).or ((calls.find? fun c => c.verb = v).map handler) := by
  induction calls generalizing vh with
  | nil => simp
  | cons c calls ih =>
    have hstep : OrdMap.get? v (c.op.effect vh).verbHandlerMap =
        (OrdMap.get? v vh.verbHandlerMap).or (if c.verb = v then some c.handler else none) := by
      change OrdMap.get? v (Router.registerVerb _ _ c.handler c.verb vh).verbHandlerMap = _
      unfold Router.registerVerb
      cases hold : OrdMap.get? c.verb vh.verbHandlerMap with
      | some h =>
        -- `registerVerb` writes only where the verb has no handler yet
        dsimp only
        by_cases hv : c.verb = v
        · rw [← hv, hold]; rfl
        · simp [hv]
      | none =>
        dsimp only
        rw [OrdMap.get?_insert, hold]
        by_cases hv : c.verb = v
        · subst hv
          simp [hold]
        · simp [hv, Ne.symm hv]
    rw [List.map_cons, List.foldl_cons, ih, hstep, Option.or_assoc, List.find?_cons]
    by_cases hv : c.verb = v <;> simp [hv]

/-- **Handlers.** The handler of a verb at a node is that of the first call which
reaches the node with this verb. -/
theorem get?_valAt_tree (calls : List (HandleCall H)) (q : NodePtr) (v : Verb) :
    OrdMap.get? v (Trie.valAt q (Router.tree (calls.map op))).verbHandlerMap =
      ((callsAt q calls).find? fun c => c.verb = v).map handler := by
  rw [Router.valAt_tree, opsAt_map, get?_foldl_registerVerb]
  rfl

theorem find?_callsAt {q : NodePtr} (hq : q ≠ [[slash]]) (calls : List (HandleCall H)) (v : Verb) :
    (callsAt q calls).find? (fun c => c.verb = v)
      = calls.find? fun c => decide (c.verb = v ∧ c.keys = q) := by
  rw [callsAt, if_neg hq, List.find?_filter]
  congr 1
  funext c
  simp [and_comm]

end HandleCall

end Wfrest
