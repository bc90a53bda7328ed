import Wfrest.Route.Mount
import Wfrest.Route.Precedence

/-!
# What a mount does to the parent

`add_blueprint` assigns the whole `VerbHandler` of a leaf to the node that
`find_or_create` returns. If the parent has handlers there, they are gone, also
those of verbs that the leaf does not have. `addBlueprint_frame_iff` says which
requests of the parent are answered as before.

The handlers are told apart by labels (`BluePrintOp.label`): the position of their
`ROUTE` call in the nested calls that have built the blueprint. A label has one
home in the tree (`exists_home`), and that makes the condition exact: after a mount
the handler runs for a request only if the request leads to this home and no leaf
was mounted there.
-/

namespace Wfrest

variable {H : Type}

open RouteTableNode HandleCall

/-! ### Labels -/

namespace BluePrintOp

mutual

/-- The same call, its handlers labelled with their positions below `pos`. -/
def label (pos : List Nat) : BluePrintOp H → BluePrintOp (List Nat × H)
  | ROUTE c => ROUTE (c.map fun h => (pos, h))
  | addBlueprint bp urlPrefix => addBlueprint (labelAll pos 0 bp) urlPrefix

/-- The labels of a sequence of calls, the first of which has position `i`. -/
def labelAll (pos : List Nat) : Nat → List (BluePrintOp H) → List (BluePrintOp (List Nat × H))
  | _, [] => []
  | i, op :: ops => op.label (pos ++ [i]) :: labelAll pos (i + 1) ops

end

/-- The label lies below one of the first `i` positions. -/
def Below (pos : List Nat) (i : Nat) (h : List Nat × H) : Prop := ∃ j < i, pos ++ [j] <+: h.1

theorem Below.not_prefix {pos : List Nat} {i : Nat} {h : List Nat × H} (hbelow : Below pos i h) :
    ¬ pos ++ [i] <+: h.1 := by
  intro hpre
  obtain ⟨j, hj, hpre'⟩ := hbelow
  have heq := List.prefix_of_prefix_length_le hpre' hpre (by simp)
  have := heq.eq_of_length (by simp)
  simp only [List.append_cancel_left_eq, List.cons.injEq, and_true] at this
  omega

theorem Below.succ {pos : List Nat} {i : Nat} {h : List Nat × H} (hbelow : Below pos i h) :
    Below pos (i + 1) h := by
  obtain ⟨j, hj, hpre⟩ := hbelow
  exact ⟨j, hj.trans (Nat.lt_succ_self i), hpre⟩

/-- The keys at which the leaf with the keys `q` is mounted. -/
def mountedKeys (u : Bytes) (q : NodePtr) : NodePtr :=
  routeKeys (cStr (mountPath u (joinKeys [] q)))

theorem keys_mountOp_eq (u : Bytes) (e : List Bytes × VerbHandler H) :
    (BluePrint.mountOp u e).keys = mountedKeys u e.1 := by
  change routeKeys (cStr (cStr _)) = _
  rw [cStr_cStr]
  rfl

/-- Every handler sits at its home, and is one of those that `P` allows. -/
def Homed (rops : List (RouterOp H)) (P : H → Prop) (home : H → NodePtr) : Prop :=
  ∀ rop ∈ rops, rop.Installs fun h => P h ∧ home h = rop.keys

theorem Homed.valAt {rops : List (RouterOp H)} {P : H → Prop} {home : H → NodePtr}
    (hhome : Homed rops P home) {q : NodePtr} {e : Verb × H}
    (he : e ∈ (Trie.valAt q (Router.tree rops)).verbHandlerMap) : P e.2 ∧ home e.2 = q := by
  refine Router.forall_valAt_tree (P := fun h => P h ∧ home h = q) (fun rop hrop => ?_) e he
  obtain ⟨hmem, hkeys⟩ := Router.mem_opsAt hrop
  exact hkeys ▸ hhome rop hmem

theorem Homed.mono {rops : List (RouterOp H)} {P Q : H → Prop} {home : H → NodePtr}
    (hhome : Homed rops P home) (h : ∀ x, P x → Q x) : Homed rops Q home :=
  fun rop hrop vh e he => (hhome rop hrop vh e he).imp_right (And.imp_left (h _))

/-- Homes of two groups of handlers that have no handler in common. -/
theorem Homed.append {rops rops' : List (RouterOp H)} {P Q : H → Prop} {home home' : H → NodePtr}
    [DecidablePred Q] (h : Homed rops P home) (h' : Homed rops' Q home')
    (hsep : ∀ x, P x → ¬ Q x) :
    Homed (rops ++ rops') (fun x => P x ∨ Q x) fun x => if Q x then home' x else home x := by
  intro rop hrop vh e he
  rcases List.mem_append.mp hrop with hrop | hrop
  · refine (h rop hrop vh e he).imp_right fun ⟨hp, hkeys⟩ => ⟨Or.inl hp, ?_⟩
    exact (if_neg (hsep _ hp)).trans hkeys
  · refine (h' rop hrop vh e he).imp_right fun ⟨hq, hkeys⟩ => ⟨Or.inr hq, ?_⟩
    exact (if_pos hq).trans hkeys

/-- The calls that mount a blueprint move its homes behind the prefix. -/
theorem Homed.mount {bops : List (RouterOp H)} {Q : H → Prop} {home : H → NodePtr}
    (hhome : Homed bops Q home) (u : Bytes) :
    Homed ((Router.tree bops).leaves.map (BluePrint.mountOp u)) Q fun x =>
      mountedKeys u (home x) := by
  intro rop hrop
  obtain ⟨e, he, rfl⟩ := List.mem_map.mp hrop
  refine BluePrint.installs_mountOp fun x hx => ?_
  obtain ⟨n, hn, -, hval⟩ := (Trie.mem_leaves (Router.wf_tree bops)).mp he
  rw [← hval, ← Trie.valAt_of_sub? hn] at hx
  obtain ⟨hq, hkeys⟩ := hhome.valAt hx
  rw [keys_mountOp_eq, ← hkeys]
  exact ⟨hq, rfl⟩

open Classical in
mutual

private theorem exists_home_apply : ∀ (op : BluePrintOp H) (pos : List Nat) (i : Nat)
    (b : BluePrint (List Nat × H)) (rops : List (RouterOp (List Nat × H)))
    (home : List Nat × H → NodePtr), b.router.routesMap = (Router.ofOps rops).routesMap →
    Homed rops (Below pos i) home →
    ∃ rops' home', ((op.label (pos ++ [i])).apply b).router.routesMap
      = (Router.ofOps rops').routesMap ∧ Homed rops' (Below pos (i + 1)) home'
  | ROUTE c, pos, i, b, rops, home, hb, hhome => by
    have hstep := BluePrint.routesMap_ofOps_concat hb (c.map fun h => (pos ++ [i], h)).op
    -- the new handler has the position of this `ROUTE` as its label
    have hnew : Homed [(c.map fun h => (pos ++ [i], h)).op]
        (fun h : List Nat × H => pos ++ [i] <+: h.1) fun _ => c.keys := by
      intro rop hrop vh e he
      rw [List.mem_singleton.mp hrop] at he ⊢
      refine (HandleCall.installs_op _ vh e he).imp_right fun h => ?_
      rw [h]
      exact ⟨List.prefix_refl _, rfl⟩
    have hall := (hhome.append hnew fun x hx => hx.not_prefix).mono
      fun x h => h.elim Below.succ fun h => (⟨i, Nat.lt_succ_self i, h⟩ : Below pos (i + 1) x)
    exact ⟨_, _, by rw [label, apply]; exact hstep, hall⟩
  | addBlueprint bp u, pos, i, b, rops, home, hb, hhome => by
    obtain ⟨bops, bhome, hbp, hbhome⟩ := exists_home_applyAll bp (pos ++ [i]) 0 BluePrint.empty []
      (fun _ => []) rfl (by simp [Homed])
    -- every handler of the mounted blueprint has a label below this position
    have hnew : Homed bops (fun h : List Nat × H => pos ++ [i] <+: h.1) bhome :=
      hbhome.mono fun x ⟨j, _, hpre⟩ => (List.prefix_append _ _).trans hpre
    have hstep :=
      BluePrint.routesMap_addBlueprint hb (BluePrint.build (labelAll (pos ++ [i]) 0 bp)) u
    have hroot : (BluePrint.build (labelAll (pos ++ [i]) 0 bp)).router.routesMap.root
        = Router.tree bops := congrArg RouteTable.root hbp
    rw [hroot] at hstep
    have hall := (hhome.append (hnew.mount u) fun x hx => hx.not_prefix).mono
      fun x h => h.elim Below.succ fun h => (⟨i, Nat.lt_succ_self i, h⟩ : Below pos (i + 1) x)
    exact ⟨_, _, by rw [label, apply]; exact hstep, hall⟩

private theorem exists_home_applyAll : ∀ (ops : List (BluePrintOp H)) (pos : List Nat) (i : Nat)
    (b : BluePrint (List Nat × H)) (rops : List (RouterOp (List Nat × H)))
    (home : List Nat × H → NodePtr), b.router.routesMap = (Router.ofOps rops).routesMap →
    Homed rops (Below pos i) home →
    ∃ rops' home', (applyAll (labelAll pos i ops) b).router.routesMap
      = (Router.ofOps rops').routesMap ∧ Homed rops' (Below pos (i + ops.length)) home'
  | [], _, _, _, rops, home, hb, hhome => ⟨rops, home, hb, hhome⟩
  | op :: ops, pos, i, b, rops, home, hb, hhome => by
    obtain ⟨rops', home', hb', hhome'⟩ := exists_home_apply op pos i b rops home hb hhome
    have hlen : i + (op :: ops).length = i + 1 + ops.length := by
      rw [List.length_cons]
      omega
    rw [hlen]
    exact exists_home_applyAll ops pos (i + 1) _ rops' home' hb' hhome'

end

/-- **Every handler has one home**, and its label lies below the blueprint's. -/
theorem exists_home (pos : List Nat) (ops : List (BluePrintOp H)) :
    ∃ rops home, (BluePrint.build (labelAll pos 0 ops)).router.routesMap
        = (Router.ofOps rops).routesMap ∧
      Homed rops (fun h : List Nat × H => pos <+: h.1) home := by
  obtain ⟨rops, home, hb, hhome⟩ := exists_home_applyAll ops pos 0 BluePrint.empty []
    (fun _ => []) rfl (by simp [Homed])
  exact ⟨rops, home, hb, hhome.mono fun x ⟨j, _, hpre⟩ => (List.prefix_append _ _).trans hpre⟩

end BluePrintOp

/-! ### The nodes after a mount -/

namespace Router

/-- Calls for other nodes change nothing. -/
theorem valAt_append_of_ne {ops ops' : List (RouterOp H)} {q : NodePtr}
    (h : ∀ op ∈ ops', op.keys ≠ q) :
    Trie.valAt q (tree (ops ++ ops')) = Trie.valAt q (tree ops) := by
  have hnil : ops'.filter (fun op => op.keys = q) = [] := by
    rw [List.filter_eq_nil_iff]
    intro op hop
    simpa using h op hop
  have hat : opsAt q (ops ++ ops') = opsAt q ops := by
    unfold opsAt
    rw [List.filter_append, hnil, List.append_nil]
  rw [valAt_tree, valAt_tree, hat]

/-- What is at a node to which a value was assigned, the value included. -/
theorem valAt_append_assigned {P : H → Prop} {ops ops' : List (RouterOp H)} {q : NodePtr}
    (hroot : q = [[slash]] → ¬ Trie.Has [[slash]] (tree ops))
    (hassign : ∀ op ∈ ops', ∀ vh vh', op.effect vh = op.effect vh')
    (hinst : ∀ op ∈ ops', op.Installs P) (hex : ∃ op ∈ ops', op.keys = q) :
    ∀ e ∈ (Trie.valAt q (tree (ops ++ ops'))).verbHandlerMap, P e.2 := by
  -- the first call for the node behind `ops` forgets what it finds
  have hfold : ∀ (l : List (RouterOp H)) (op : RouterOp H) (vh : VerbHandler H),
      op ∈ ops' → (∀ op ∈ l, op ∈ ops') →
      ∀ e ∈ ((op :: l).foldl (fun vh op => op.effect vh) vh).verbHandlerMap, P e.2 := by
    intro l
    induction l with
    | nil =>
      intro op vh hop _ e he
      rw [List.foldl_cons, List.foldl_nil, hassign op hop vh default] at he
      exact (hinst op hop default e he).resolve_left (by simp [default])
    | cons op' l ih =>
      intro op vh hop hl e he
      rw [List.foldl_cons] at he
      exact ih op' _ (hl op' List.mem_cons_self) (fun x hx => hl x (List.mem_cons_of_mem _ hx)) e he
  obtain ⟨op, hop, hkeys⟩ := hex
  obtain ⟨x, xs, hxs⟩ := List.exists_cons_of_ne_nil
    (List.ne_nil_of_mem (List.mem_filter.mpr ⟨hop, decide_eq_true hkeys⟩) :
      ops'.filter (fun op => decide (op.keys = q)) ≠ [])
  have hmem : ∀ y ∈ x :: xs, y ∈ ops' := fun y hy => (List.mem_filter.mp (hxs ▸ hy)).1
  rw [valAt_tree]
  unfold opsAt
  rw [List.filter_append, hxs]
  by_cases hslash : q = [[slash]]
  · have hnone : ops.filter (fun op => op.keys = q) = [] := by
      rw [List.filter_eq_nil_iff]
      intro op hop hk
      refine hroot hslash ((has_root_iff ops).mpr ⟨op, hop, ?_⟩)
      rw [← hslash]
      exact of_decide_eq_true hk
    rw [if_pos hslash, hnone, List.nil_append, List.take_succ_cons, List.take_zero]
    exact hfold [] x default (hmem x List.mem_cons_self) (by simp)
  · rw [if_neg hslash, List.foldl_append]
    exact hfold xs x _ (hmem x List.mem_cons_self) fun y hy => hmem y (List.mem_cons_of_mem _ hy)

end Router

/-! ### Requests of the parent -/

namespace BluePrint

open BluePrintOp

/-- The parent, its handlers labelled. -/
def host (parent : List (BluePrintOp H)) : BluePrint (List Nat × H) :=
  build (labelAll [0] 0 parent)

/-- The blueprint that is mounted, its handlers labelled. -/
def guest (bp : List (BluePrintOp H)) : BluePrint (List Nat × H) := build (labelAll [1] 0 bp)

/-- The parent after the mount. -/
def joint (parent bp : List (BluePrintOp H)) (u : Bytes) : BluePrint (List Nat × H) :=
  (host parent).addBlueprint (guest bp) u

/-- The root of a blueprint's tree. -/
def root (b : BluePrint H) : RouteTableNode H := b.router.routesMap.root

/-- The handler is kept at a node, for some verb. -/
def KeptAt (b : BluePrint H) (q : NodePtr) (handler : H) : Prop :=
  ∃ v, (v, handler) ∈ (Trie.valAt q b.root).verbHandlerMap

/-- A leaf of the blueprint is mounted at the node. The node of `/`, once it is
there, cannot be assigned to. -/
def Assigned (bp : List (BluePrintOp H)) (u : Bytes) (q : NodePtr) : Prop :=
  q ≠ [[slash]] ∧ ∃ e ∈ (guest bp).root.leaves, mountedKeys u e.1 = q

/-- The blueprint itself has a handler for the verb and these keys behind the prefix. -/
def Registers (bp : List (BluePrintOp H)) (u : Bytes) (verb : Verb) (q : NodePtr) : Prop :=
  ∃ p, mountedKeys u p = q ∧
    (OrdMap.get? verb (Trie.valAt p (guest bp).root).verbHandlerMap).isSome = true

/-- The leaves that are assigned to a node, in order. The node of `/` is assigned to once, and
not at all if the parent has it. -/
def assigned (parent bp : List (BluePrintOp H)) (u : Bytes) (q : NodePtr) :
    List (List Bytes × VerbHandler (List Nat × H)) :=
  let es := (guest bp).root.leaves.filter fun e => mountedKeys u e.1 = q
  if q = [[slash]] then if Trie.Has [[slash]] (host parent).root then [] else es.take 1 else es

/-- The routes of the parent and, behind the prefix, those that the blueprint reports. A node
has the handlers of the last leaf that is assigned to it, else the parent's. -/
def mountedRoutes (parent bp : List (BluePrintOp H)) (u : Bytes) : Routes where
  node q := Trie.Has q (host parent).root ∨
    ∃ e ∈ (guest bp).root.leaves, q <+: mountedKeys u e.1
  handled q := (((assigned parent bp u q).getLast?.map Prod.snd).getD
    (Trie.valAt q (host parent).root)).verbHandlerMap ≠ []
  of_append {p _} h := by
    refine h.imp Trie.Has.of_append ?_
    rintro ⟨e, he, hpre⟩
    exact ⟨e, he, (List.prefix_append p _).trans hpre⟩

/-- The handler of a verb, or of `ANY`, is one of the node's. -/
private theorem keptAt_of_get? {b : BluePrint H} {q : NodePtr} {verb : Verb} {handler : H}
    (h : (OrdMap.get? verb (Trie.valAt q b.root).verbHandlerMap).or
      (OrdMap.get? Verb.ANY (Trie.valAt q b.root).verbHandlerMap) = some handler) :
    b.KeptAt q handler := by
  rcases Option.or_eq_some_iff.mp h with h | ⟨-, h⟩
  · exact ⟨_, OrdMap.mem_of_get? h⟩
  · exact ⟨_, OrdMap.mem_of_get? h⟩

/-- **One home.** A handler of the parent is kept at one node, and after the mount
at the same node or at none: the node's handlers are the parent's, or all the
blueprint's. -/
theorem joint_cases (parent bp : List (BluePrintOp H)) (u : Bytes) {handler : List Nat × H}
    {q : NodePtr} (hq : (host parent).KeptAt q handler) :
    (∀ q', (host parent).KeptAt q' handler → q' = q) ∧
    (∀ q', (joint parent bp u).KeptAt q' handler → q' = q ∧ ¬ Assigned bp u q) ∧
    (¬ Assigned bp u q → Trie.valAt q (joint parent bp u).root = Trie.valAt q (host parent).root) ∧
    (q = [[slash]] → Trie.Has [[slash]] (host parent).root) ∧
    (Trie.Has [[slash]] (host parent).root → Trie.Has [[slash]] (joint parent bp u).root) := by
  obtain ⟨rops, home, hhost, hhome⟩ := exists_home [0] parent
  obtain ⟨bops, bhome, hguest, hbhome⟩ := exists_home [1] bp
  have hroot : (host parent).root = Router.tree rops := congrArg RouteTable.root hhost
  have hbroot : (guest bp).root = Router.tree bops := congrArg RouteTable.root hguest
  have hjoint : (joint parent bp u).root
      = Router.tree (rops ++ (Router.tree bops).leaves.map (mountOp u)) := by
    have hstep := routesMap_addBlueprint hhost (guest bp) u
    change _ = (Router.ofOps (rops ++ (guest bp).root.leaves.map (mountOp u))).routesMap at hstep
    rw [hbroot] at hstep
    exact congrArg RouteTable.root hstep
  obtain ⟨v, hv⟩ := hq
  rw [hroot] at hv
  obtain ⟨hlabel, hhq⟩ := hhome.valAt hv
  -- labels are unique, so the handler is at its home and nowhere else
  have hone : ∀ q', (host parent).KeptAt q' handler → q' = q := by
    rintro q' ⟨v', hv'⟩
    rw [hroot] at hv'
    rw [← (hhome.valAt hv').2, ← hhq]
  have hexists : q = [[slash]] → Trie.Has [[slash]] (Router.tree rops) := by
    rintro rfl
    by_contra hno
    rw [Trie.valAt_of_not_has hno] at hv
    simp [default] at hv
  have hmounted : ∀ q', (∃ e ∈ (guest bp).root.leaves, mountedKeys u e.1 = q') ↔
      ∃ op ∈ (Router.tree bops).leaves.map (mountOp u), op.keys = q' := by
    intro q'
    rw [hbroot]
    constructor
    · rintro ⟨e, he, hkeys⟩
      exact ⟨_, List.mem_map_of_mem he, by rw [keys_mountOp_eq, hkeys]⟩
    · rintro ⟨op, hop, hkeys⟩
      obtain ⟨e, he, rfl⟩ := List.mem_map.mp hop
      exact ⟨e, he, by rw [← keys_mountOp_eq, hkeys]⟩
  -- where nothing is mounted, or `/` was there before, the node is the parent's
  have hsame : ∀ q', ¬ Assigned bp u q' → (q' = [[slash]] → Trie.Has [[slash]] (Router.tree rops)) →
      Trie.valAt q' (joint parent bp u).root = Trie.valAt q' (host parent).root := by
    intro q' hno hhas
    rw [hjoint, hroot]
    by_cases hslash : q' = [[slash]]
    · subst hslash
      rw [Router.valAt_tree, Router.opsAt_root_append (hhas rfl), ← Router.valAt_tree]
    · refine Router.valAt_append_of_ne fun op hop hkeys => hno ⟨hslash, ?_⟩
      exact (hmounted q').mpr ⟨op, hop, hkeys⟩
  -- elsewhere all handlers are the blueprint's
  have hother : ∀ q' e, (q' = [[slash]] → ¬ Trie.Has [[slash]] (Router.tree rops)) →
      (∃ e ∈ (guest bp).root.leaves, mountedKeys u e.1 = q') →
      e ∈ (Trie.valAt q' (joint parent bp u).root).verbHandlerMap → e.2 ≠ handler := by
    intro q' e hno hex he heq
    rw [hjoint] at he
    -- the label of the handler cannot begin with 0 and with 1
    have hlabel' := Router.valAt_append_assigned (P := fun h : List Nat × H => [1] <+: h.1) hno
      (by
        intro op hop vh vh'
        obtain ⟨f, -, rfl⟩ := List.mem_map.mp hop
        rfl)
      (fun op hop vh x hx => ((hbhome.mount u) op hop vh x hx).imp_right And.left)
      ((hmounted q').mp hex) e he
    rw [heq] at hlabel'
    exact absurd ((List.prefix_of_prefix_length_le hlabel hlabel' (by simp)).eq_of_length rfl)
      (by decide)
  refine ⟨hone, ?_, fun hno => hsame q hno hexists, fun hslash => hroot ▸ hexists hslash, ?_⟩
  · rintro q' ⟨v', hv'⟩
    by_cases hslash : q' = [[slash]] ∧ ¬ Trie.Has [[slash]] (Router.tree rops)
    · -- a node `/` that the mount has brought
      have hhas : Trie.Has q' (joint parent bp u).root := by
        by_contra hno
        rw [Trie.valAt_of_not_has hno] at hv'
        simp [default] at hv'
      rw [hjoint, hslash.1, Router.has_root_iff] at hhas
      obtain ⟨op, hop, hkeys⟩ := hhas
      rcases List.mem_append.mp hop with hop | hop
      · exact absurd ((Router.has_root_iff rops).mpr ⟨op, hop, hkeys⟩) hslash.2
      · exact absurd rfl (hother q' _ (fun _ => hslash.2)
          ((hmounted q').mpr ⟨op, hop, hslash.1 ▸ hkeys⟩) hv')
    · have hhas : q' = [[slash]] → Trie.Has [[slash]] (Router.tree rops) := fun h => by
        by_contra hno
        exact hslash ⟨h, hno⟩
      by_cases hassigned : Assigned bp u q'
      · exact absurd rfl (hother q' _ (fun h => absurd h hassigned.1) hassigned.2 hv')
      · rw [hsame q' hassigned hhas] at hv'
        obtain rfl := hone q' ⟨v', hv'⟩
        exact ⟨rfl, hassigned⟩
  · rw [hroot, hjoint]
    intro hhas
    obtain ⟨op, hop, hkeys⟩ := (Router.has_root_iff rops).mp hhas
    exact (Router.has_root_iff _).mpr ⟨op, List.mem_append_left _ hop, hkeys⟩

/-- A request runs the handler that the node of its path has for its verb. -/
theorem runs_iff_finds {b : BluePrint H} {rops : List (RouterOp H)}
    (hb : b.router.routesMap = (Router.ofOps rops).routesMap) (verb : Verb) (path : Bytes)
    (handler : H) : b.router.Runs verb path handler ↔
      ∃ q, (Routes.ofTree b.root).Finds (Router.callPath path) q ∧
        (OrdMap.get? verb (Trie.valAt q b.root).verbHandlerMap).or
          (OrdMap.get? Verb.ANY (Trie.valAt q b.root).verbHandlerMap) = some handler := by
  have hroot : b.root = Router.tree rops := congrArg RouteTable.root hb
  rw [runs_congr hb, Router.runs_iff, hroot, Routes.ofTree_tree]
  exact exists_congr fun q => and_congr_left fun _ => Router.findPtr_iff_finds

theorem exists_routesMap_joint (parent bp : List (BluePrintOp H)) (u : Bytes) :
    ∃ rops, (host parent).router.routesMap = (Router.ofOps rops).routesMap ∧
      (joint parent bp u).router.routesMap =
        (Router.ofOps (rops ++ (guest bp).root.leaves.map (mountOp u))).routesMap := by
  obtain ⟨rops, -, hhost, -⟩ := exists_home [0] parent
  exact ⟨rops, hhost, routesMap_addBlueprint hhost (guest bp) u⟩

/-- Of the leaves that are assigned one after the other the last one stays. -/
theorem foldl_mountOp (u : Bytes) (es : List (List Bytes × VerbHandler H)) (vh : VerbHandler H) :
    ((es.map (mountOp u)).foldl (fun vh op => op.effect vh) vh).verbHandlerMap =
      ((es.getLast?.map Prod.snd).getD vh).verbHandlerMap := by
  induction es using List.reverseRecOn with
  | nil => rfl
  | append_singleton es e =>
    rw [List.map_append, List.foldl_append, List.getLast?_concat]
    rfl

/-- **The tree after the mount** holds the routes of both. -/
theorem ofTree_joint (parent bp : List (BluePrintOp H)) (u : Bytes) :
    Routes.ofTree (joint parent bp u).root = mountedRoutes parent bp u := by
  obtain ⟨rops, hhost, hjoint⟩ := exists_routesMap_joint parent bp u
  have hroot : (host parent).root = Router.tree rops := congrArg RouteTable.root hhost
  have hjroot : (joint parent bp u).root
      = Router.tree (rops ++ (guest bp).root.leaves.map (mountOp u)) :=
    congrArg RouteTable.root hjoint
  have hfilter : ∀ q, ((guest bp).root.leaves.map (mountOp u)).filter (fun op => op.keys = q) =
      ((guest bp).root.leaves.filter fun e => mountedKeys u e.1 = q).map (mountOp u) := by
    intro q
    rw [List.filter_map]
    congr 2
    funext e
    exact decide_eq_decide.mpr (by rw [keys_mountOp_eq])
  ext q
  · show Trie.Has q (joint parent bp u).root ↔ Trie.Has q (host parent).root ∨ _
    rw [hjroot, hroot, Router.has_tree, Router.has_tree, or_assoc]
    refine or_congr_right ?_
    simp only [List.mem_append, List.mem_map, or_and_right, exists_or, exists_exists_and_eq_and,
      keys_mountOp_eq]
  · show (Trie.valAt q (joint parent bp u).root).verbHandlerMap ≠ [] ↔
      (((assigned parent bp u q).getLast?.map Prod.snd).getD
        (Trie.valAt q (host parent).root)).verbHandlerMap ≠ []
    rw [← foldl_mountOp u, hjroot, hroot, Router.valAt_tree, Router.valAt_tree]
    unfold assigned
    by_cases hslash : q = [[slash]]
    · subst hslash
      rw [if_pos rfl, hroot]
      by_cases hhas : Trie.Has [[slash]] (Router.tree rops)
      · rw [if_pos hhas, Router.opsAt_root_append hhas]
        rfl
      · -- the first leaf for `/` brings the node
        have hnone : rops.filter (fun op => decide (op.keys = [[slash]])) = [] := by
          rw [List.filter_eq_nil_iff]
          intro op hop hk
          exact hhas ((Router.has_root_iff rops).mpr ⟨op, hop, of_decide_eq_true hk⟩)
        rw [if_neg hhas]
        unfold Router.opsAt
        rw [if_pos rfl, if_pos rfl, List.filter_append, hnone, List.nil_append, hfilter,
          List.take_nil, List.map_take]
        rfl
    · rw [if_neg hslash]
      unfold Router.opsAt
      rw [if_neg hslash, if_neg hslash, List.filter_append, List.foldl_append, hfilter]

theorem wf_joint (parent bp : List (BluePrintOp H)) (u : Bytes) :
    Trie.WF (joint parent bp u).root := by
  obtain ⟨rops, -, hrops⟩ := exists_routesMap_joint parent bp u
  have hroot : (joint parent bp u).root
      = Router.tree (rops ++ (guest bp).root.leaves.map (mountOp u)) :=
    congrArg RouteTable.root hrops
  rw [hroot]
  exact Router.wf_tree _

/-- A handler of the parent runs after the mount iff no leaf was mounted at its node and the
request still leads there. -/
theorem joint_runs_iff (parent bp : List (BluePrintOp H)) (u : Bytes) (verb : Verb)
    (path : Bytes) (handler : List Nat × H) (q : NodePtr)
    (hq : (host parent).KeptAt q handler) (hrun : (host parent).router.Runs verb path handler) :
    (joint parent bp u).router.Runs verb path handler ↔
      ¬ Assigned bp u q ∧ (mountedRoutes parent bp u).Finds (Router.callPath path) q := by
  obtain ⟨hone, hjoint, hsame, -, -⟩ := joint_cases parent bp u hq
  obtain ⟨rops, hhost, hrops⟩ := exists_routesMap_joint parent bp u
  rw [runs_iff_finds hrops, ofTree_joint]
  obtain ⟨q₀, -, hget⟩ := (runs_iff_finds hhost verb path handler).mp hrun
  obtain rfl := hone q₀ (keptAt_of_get? hget)
  constructor
  · rintro ⟨q', hfinds, hget'⟩
    obtain ⟨rfl, hassigned⟩ := hjoint q' (keptAt_of_get? hget')
    exact ⟨hassigned, hfinds⟩
  · rintro ⟨hassigned, hfinds⟩
    exact ⟨q₀, hfinds, by rw [hsame hassigned]; exact hget⟩

/-- **What a mount keeps of the parent.** A request that ran a handler of the parent, and whose
verb the blueprint does not register for the handler's route or the path itself, runs it after
the mount iff no leaf was mounted at the handler's node and, of the routes of both, this is the
one that the path selects. -/
theorem addBlueprint_frame_iff (parent bp : List (BluePrintOp H)) (u : Bytes) (verb : Verb)
    (path : Bytes) (handler : List Nat × H) (q : NodePtr)
    (hq : (host parent).KeptAt q handler) (hrun : (host parent).router.Runs verb path handler) :
    (¬ Registers bp u verb q → ¬ Registers bp u verb (routeKeys path) →
        (joint parent bp u).router.Runs verb path handler) ↔
      Registers bp u verb q ∨ Registers bp u verb (routeKeys path) ∨
        ¬ Assigned bp u q ∧ (mountedRoutes parent bp u).Finds (Router.callPath path) q := by
  rw [joint_runs_iff parent bp u verb path handler q hq hrun]
  tauto

/-- A route's own text leads to its node, unless it is `//` and there is a `/`. -/
theorem addBlueprint_frame_own (parent bp : List (BluePrintOp H)) (u : Bytes) (verb : Verb)
    (path : Bytes) (handler : List Nat × H) (hq : (host parent).KeptAt (routeKeys path) handler)
    (hrun : (host parent).router.Runs verb path handler) :
    (joint parent bp u).router.Runs verb path handler ↔
      ¬ Assigned bp u (routeKeys path) ∧
        (path = [slash, slash] → ¬ (mountedRoutes parent bp u).node [[slash]]) := by
  rw [joint_runs_iff parent bp u verb path handler _ hq hrun]
  refine and_congr_right fun hassigned => ?_
  obtain ⟨-, -, hsame, hkept, hjoint⟩ := joint_cases parent bp u hq
  by_cases hpath : path = [slash]
  · subst hpath
    have hhas : (mountedRoutes parent bp u).node [[slash]] := by
      rw [← ofTree_joint]
      exact hjoint (hkept rfl)
    exact iff_of_true (Routes.finds_root_iff.mpr ⟨by decide, hhas⟩) fun h => absurd h (by decide)
  -- the node has handlers, and is found under its own keys
  have hselects : (mountedRoutes parent bp u).Selects (reqSegs (Router.callPath path))
      (routeKeys path) := by
    obtain ⟨v, hv⟩ := hq
    rw [← hsame hassigned] at hv
    have hmap : (Trie.valAt (routeKeys path) (joint parent bp u).root).verbHandlerMap ≠ [] :=
      List.ne_nil_of_mem hv
    have hhas : Trie.Has (routeKeys path) (joint parent bp u).root := by
      by_contra hnot
      exact hmap (by rw [Trie.valAt_of_not_has hnot]; rfl)
    obtain ⟨m, hm⟩ := Option.isSome_iff_exists.mp hhas
    rw [Trie.valAt_of_sub? hm] at hmap
    rw [Router.reqSegs_callPath hpath, ← ofTree_joint,
      ← Routes.leads_iff_selects (wf_joint parent bp u)]
    exact (leads_iff _ _ _).mpr ⟨m, reach_exact hm hmap⟩
  rw [Routes.finds_iff (mt routeKeys_eq_root_iff.mp hpath), and_iff_left hselects, not_and]
  refine imp_congr_left ⟨fun hcall => ?_, fun h => h ▸ by decide⟩
  obtain ⟨t, hp, rfl | rfl⟩ := Router.exists_eq_callPath_append path
  · rw [hcall, List.append_nil] at hp
    exact absurd hp hpath
  · rw [hp, hcall]
    rfl

/-- A blueprint of one route registers its own verb only. -/
private theorem not_registers_single {c : HandleCall H} {u : Bytes} {verb : Verb} {q : NodePtr}
    (h : c.verb ≠ verb) : ¬ Registers [.ROUTE c] u verb q := by
  rintro ⟨p, -, hsome⟩
  have hroot : (guest [.ROUTE c]).root
      = Router.tree ([c.map fun h => ([1, 0], h)].map HandleCall.op) := rfl
  rw [hroot, HandleCall.get?_valAt_tree, Option.isSome_map, List.isSome_find?,
    List.any_eq_true] at hsome
  obtain ⟨d, hd, hverb⟩ := hsome
  rw [List.mem_singleton.mp (HandleCall.mem_callsAt hd).1] at hverb
  exact h (of_decide_eq_true hverb)

/-- `POST /api/x` of the parent next to `GET /y`, mounted behind `/api`. -/
theorem addBlueprint_frame_sibling :
    (joint [.ROUTE ⟨ascii "/api/x", 0, (), .POST⟩] [.ROUTE ⟨ascii "/y", 0, (), .GET⟩]
      (ascii "/api")).router.Runs .POST (ascii "/api/x") ([0, 0], ()) := by
  have hrun : (host [.ROUTE ⟨ascii "/api/x", 0, (), .POST⟩]).router.Runs .POST (ascii "/api/x")
      ([0, 0], ()) := ⟨ascii "/api/x", [], [], by decide +kernel⟩
  refine (addBlueprint_frame_iff [.ROUTE ⟨ascii "/api/x", 0, (), .POST⟩] _ _ _ _ _
    [ascii "api", ascii "x"] ⟨.POST, by decide +kernel⟩ hrun).mpr
    (Or.inr (Or.inr ⟨?_, ?_⟩)) (not_registers_single (by decide))
    (not_registers_single (by decide))
  · rintro ⟨-, h⟩
    revert h
    decide +kernel
  · rw [← ofTree_joint]
    refine (Routes.finds_iff (by decide +kernel)).mpr ⟨fun h => absurd h.1 (by decide +kernel), ?_⟩
    exact (Routes.leads_iff_selects (wf_joint _ _ _)).mp (by decide +kernel)

/-- `POST /api/x` of the parent and `GET /x`, mounted behind `/api`: the blueprint registers no
`POST`, the node has its handlers, and none for `POST`. -/
theorem not_frame_other_verb :
    (host [.ROUTE ⟨ascii "/api/x", 0, (), .POST⟩]).router.Runs .POST (ascii "/api/x")
        ([0, 0], ()) ∧
      (∀ q, ¬ Registers [.ROUTE ⟨ascii "/x", 0, (), .GET⟩] (ascii "/api") .POST q) ∧
      ¬ (joint [.ROUTE ⟨ascii "/api/x", 0, (), .POST⟩] [.ROUTE ⟨ascii "/x", 0, (), .GET⟩]
        (ascii "/api")).router.Runs .POST (ascii "/api/x") ([0, 0], ()) := by
  refine ⟨⟨ascii "/api/x", [], [], by decide +kernel⟩, fun q => ?_, ?_⟩
  · exact not_registers_single (by decide)
  rintro ⟨fullPath, routeParams, matchPath, hcall⟩
  have hmissing : (joint [.ROUTE ⟨ascii "/api/x", 0, (), .POST⟩]
      [.ROUTE ⟨ascii "/x", 0, (), .GET⟩] (ascii "/api")).router.call .POST (ascii "/api/x")
        = .ok .StatusRouteVerbNotImplment := by
    decide +kernel
  rw [hmissing] at hcall
  cases hcall

end BluePrint

end Wfrest
