import Wfrest.Route.BluePrint

/-!
# Mounting a blueprint

`addBlueprint_keeps` says which routes of a blueprint can be called after it was
mounted. `all_routes` reports leaves only, so a route that another one extends
gets lost (`Leaf`); and `/` is mounted as an empty segment behind the prefix,
where only the prefix `/` itself leads.

The argument is about one list of calls, `mountOps`: the calls that built the
parent, and one call for each leaf of the blueprint. Leaves that are glued to the
same text overwrite each other, and the one without empty segments comes last
(`mountKeys_ne_of_precedes`).
-/

namespace Wfrest

variable {H : Type}

open RouteTableNode HandleCall

namespace BluePrint

/-! ### The keys of a mounted leaf -/

/-- The keys at which a leaf is mounted. -/
def mountKeys (u : Bytes) (q : List Bytes) : List Bytes :=
  routeKeys (stripSlash u ++ slash :: joinKeys [] q)

theorem routeKeys_concat_slash (w : Bytes) :
    routeKeys (w ++ [slash]) = if w = [] then [[slash]] else reqSegs w := by
  unfold routeKeys
  by_cases hw : w = []
  · subst hw
    rfl
  · rw [if_neg (by simpa using hw), if_neg hw, stripSlash_concat]

theorem mountKeys_root (u : Bytes) : mountKeys u [[slash]] = reqSegs (stripSlash u) ++ [[]] :=
  routeKeys_append_slash (stripSlash u)

theorem mountKeys_cases {q : List Bytes} (hq : ∀ k ∈ q, slash ∉ k) (u : Bytes) :
    ((∀ k ∈ q, k = []) ∧ mountKeys u q =
        if stripSlash u = [] then [[slash]] else reqSegs (stripSlash u)) ∨
      mountKeys u q = reqSegs (stripSlash u) ++ q.filter (· ≠ []) := by
  rcases joinKeys_nil_cases hq with ⟨hnil, hall⟩ | hjoin
  · left
    refine ⟨hall, ?_⟩
    rw [mountKeys, hnil, routeKeys_concat_slash]
  · exact Or.inr (routeKeys_append_joined hjoin)

private theorem filter_ne_nil {q : List Bytes} (h : [] ∉ q) : q.filter (· ≠ []) = q := by
  refine List.filter_eq_self.mpr fun k hk => ?_
  simpa using fun hnil : k = [] => h (hnil ▸ hk)

/-- A leaf without empty segments keeps its keys behind those of the prefix. -/
theorem mountKeys_of_full {q : List Bytes} (hq : ∀ k ∈ q, slash ∉ k) (hfull : [] ∉ q)
    (hne : q ≠ []) (u : Bytes) : mountKeys u q = reqSegs (stripSlash u) ++ q := by
  rcases mountKeys_cases hq u with ⟨hall, -⟩ | h
  · obtain ⟨k, ks, rfl⟩ := List.exists_cons_of_ne_nil hne
    exact absurd (hall k List.mem_cons_self ▸ List.mem_cons_self) hfull
  · rwa [filter_ne_nil hfull] at h

private theorem root_ne_append {w : Bytes} {q : List Bytes} (hq : ∀ k ∈ q, slash ∉ k) :
    reqSegs w ++ q ≠ [[slash]] := by
  intro h
  have hmem : [slash] ∈ reqSegs w ++ q := by rw [h]; exact List.mem_cons_self
  rcases List.mem_append.mp hmem with hmem | hmem
  · exact slash_notMem_of_mem_reqSegs hmem (List.mem_singleton_self slash)
  · exact hq _ hmem (List.mem_singleton_self slash)

/-- What the keys of a leaf of a tree of routes look like. -/
def RouteKeys (q : List Bytes) : Prop := q = [[slash]] ∨ ∀ k ∈ q, slash ∉ k

/-- **A leaf without empty segments is not overwritten** by a later one. -/
theorem mountKeys_ne_of_precedes {q q' : List Bytes} (hq : ∀ k ∈ q, slash ∉ k) (hfull : [] ∉ q)
    (hq' : RouteKeys q') (hlt : Trie.Precedes q q') (u : Bytes) :
    mountKeys u q' ≠ mountKeys u q := by
  obtain ⟨c, a, b, p, p', rfl, rfl, hab⟩ := hlt
  have hkeys := mountKeys_of_full hq hfull (by simp) u
  rw [hkeys]
  intro heq
  rcases hq' with hroot | hseg
  · -- the mounted `/` ends in an empty segment
    rw [hroot, mountKeys_root] at heq
    have hlast := List.append_cancel_left heq
    exact hfull (hlast ▸ List.mem_cons_self)
  · rcases mountKeys_cases hseg u with ⟨-, h⟩ | h
    · rw [h] at heq
      split at heq
      · exact root_ne_append hq heq.symm
      · have hlen := congrArg List.length heq
        simp only [List.length_append, List.length_cons] at hlen
        omega
    · -- the first difference is not an empty key of the later leaf
      have hb : b ≠ [] := by
        rintro rfl
        exact absurd hab (List.not_lt_nil a)
      have hc : c.filter (· ≠ []) = c := filter_ne_nil fun hmem => hfull (by simp [hmem])
      rw [h, List.filter_append, hc, List.filter_cons_of_pos (by simpa using hb)] at heq
      have hrest := List.append_cancel_left (List.append_cancel_left heq)
      rw [(List.cons.inj hrest).1] at hab
      exact lt_irrefl a hab

/-- No other leaf is mounted where `/` is. -/
theorem mountKeys_ne_root {q : List Bytes} (hq : ∀ k ∈ q, slash ∉ k) (u : Bytes) :
    mountKeys u q ≠ mountKeys u [[slash]] := by
  rw [mountKeys_root]
  intro heq
  rcases mountKeys_cases hq u with ⟨-, h⟩ | h
  · rw [h] at heq
    split at heq
    · exact root_ne_append (by simp) heq.symm
    · have hlen := congrArg List.length heq
      simp at hlen
  · rw [h] at heq
    have hmem : [] ∈ q.filter (· ≠ []) := by
      rw [List.append_cancel_left heq]
      exact List.mem_cons_self
    simp at hmem

/-! ### The leaves of a blueprint -/

/-- No route of the blueprint extends the keys. -/
def Leaf (calls : List (HandleCall H)) (q : List Bytes) : Prop :=
  ∀ d ∈ calls, q <+: d.keys → d.keys = q

instance (calls : List (HandleCall H)) (q : List Bytes) : Decidable (Leaf calls q) :=
  inferInstanceAs (Decidable (∀ d ∈ calls, q <+: d.keys → d.keys = q))

/-- The tree of the blueprint. -/
abbrev bpTree (calls : List (HandleCall H)) : RouteTableNode H := Router.tree (calls.map op)

theorem has_bpTree {calls : List (HandleCall H)} {q : NodePtr} :
    Trie.Has q (bpTree calls) ↔ q = [] ∨ ∃ d ∈ calls, q <+: d.keys := by
  rw [Router.has_tree]
  simp [HandleCall.keys]

/-- A route that nothing extends is reported, with its handlers. -/
theorem mem_leaves_bpTree {calls : List (HandleCall H)} {c : HandleCall H} (hc : c ∈ calls)
    (hleaf : Leaf calls c.keys) :
    (c.keys, Trie.valAt c.keys (bpTree calls)) ∈ (bpTree calls).leaves := by
  have hhas : Trie.Has c.keys (bpTree calls) :=
    has_bpTree.mpr (Or.inr ⟨c, hc, List.prefix_refl _⟩)
  obtain ⟨n, hn⟩ := Option.isSome_iff_exists.mp hhas
  refine (Trie.mem_leaves (Router.wf_tree _)).mpr ⟨n, hn, ?_, (Trie.valAt_of_sub? hn).symm⟩
  rw [Trie.children_eq_nil_iff hn]
  intro k hk
  rcases has_bpTree.mp hk with h | ⟨d, hd, hpre⟩
  · simp at h
  · -- a further key would make the route of `d` longer than its own keys
    have hkeys := hleaf d hd ((List.prefix_append _ _).trans hpre)
    have hlen := hpre.length_le
    rw [hkeys, List.length_append, List.length_singleton] at hlen
    omega

/-- What a report says about the routes. -/
theorem of_mem_leaves {calls : List (HandleCall H)} {e : List Bytes × VerbHandler H}
    (he : e ∈ (bpTree calls).leaves) :
    e.2 = Trie.valAt e.1 (bpTree calls) ∧ Leaf calls e.1 ∧ RouteKeys e.1 ∧
      (∀ k ∈ e.1, 0 ∉ k) ∧ (e.1 = [] ∨ ∃ d ∈ calls, e.1 <+: d.keys) := by
  obtain ⟨n, hn, hnil, hval⟩ := (Trie.mem_leaves (Router.wf_tree _)).mp he
  have hhas : e.1 = [] ∨ ∃ d ∈ calls, e.1 <+: d.keys :=
    has_bpTree.mp (by rw [Trie.Has, hn]; rfl)
  refine ⟨by rw [Trie.valAt_of_sub? hn, hval], ?_, ?_, ?_, hhas⟩
  · rintro d hd ⟨t, ht⟩
    cases t with
    | nil => rw [← ht, List.append_nil]
    | cons k t =>
      refine absurd (has_bpTree.mpr (Or.inr ⟨d, hd, t, ?_⟩))
        ((Trie.children_eq_nil_iff hn).mp hnil k)
      rw [List.append_assoc]
      exact ht
  · rcases hhas with hnil | ⟨d, hd, hpre⟩
    -- only the keys of `/` hold a slash, and a prefix of them is all of them
    · exact Or.inr (by simp [hnil])
    · by_cases hslash : ∃ k ∈ e.1, slash ∈ k
      · left
        obtain ⟨k, hk, hmem⟩ := hslash
        have hroute : d.op.route = [slash] := by
          by_contra hne
          have hkd : k ∈ routeKeys d.op.route := hpre.subset hk
          rw [routeKeys, if_neg hne] at hkd
          exact slash_notMem_of_mem_reqSegs hkd hmem
        have hkeys : d.keys = [[slash]] := (Router.keys_eq_root_iff d.op).mpr hroute
        rw [hkeys] at hpre
        cases he : e.1 with
        | nil =>
          rw [he] at hk
          simp at hk
        | cons k t =>
          rw [he] at hpre
          obtain ⟨rfl, ht⟩ := List.cons_prefix_cons.mp hpre
          rw [List.prefix_nil.mp ht]
      · exact Or.inr fun k hk hmem => hslash ⟨k, hk, hmem⟩
  · intro k hk hzero
    rcases hhas with hnil | ⟨d, hd, hpre⟩
    · rw [hnil] at hk
      simp at hk
    · exact zero_notMem_cStr d.route (mem_of_mem_routeKeys (hpre.subset hk) hzero)

theorem mem_joinKeys {ks : List Bytes} {pre : Bytes} {b : UInt8} (h : b ∈ joinKeys pre ks) :
    b ∈ pre ∨ b = slash ∨ ∃ k ∈ ks, b ∈ k := by
  induction ks generalizing pre with
  | nil => exact Or.inl h
  | cons k ks ih =>
    rcases ih h with h | h | ⟨k', hk', h⟩
    · rcases List.mem_append.mp h with h | h
      · unfold withSlash at h
        split at h
        · rcases List.mem_append.mp h with h | h
          · exact Or.inl h
          · exact Or.inr (Or.inl (List.mem_singleton.mp h))
        · exact Or.inl h
      · exact Or.inr (Or.inr ⟨k, List.mem_cons_self, h⟩)
    · exact Or.inr (Or.inl h)
    · exact Or.inr (Or.inr ⟨k', List.mem_cons_of_mem _ hk', h⟩)

theorem keys_mountOp {u : Bytes} (hu : 0 ∉ u) {e : List Bytes × VerbHandler H}
    (he : ∀ k ∈ e.1, 0 ∉ k) : (mountOp u e).keys = mountKeys u e.1 := by
  have hzero : 0 ∉ mountPath u (joinKeys [] e.1) := by
    rw [mountPath_eq]
    intro h
    rcases List.mem_append.mp h with h | h
    · exact hu (stripSlash_subset u h)
    · rcases List.mem_cons.mp h with h | h
      · exact absurd h (by decide)
      · rcases mem_joinKeys h with h | h | ⟨k, hk, h⟩
        · simp at h
        · exact absurd h (by decide)
        · exact he k hk h
  change routeKeys (cStr (cStr (mountPath u (joinKeys [] e.1)))) = _
  rw [cStr_cStr, cStr_eq_self hzero, mountPath_eq]
  rfl

/-! ### The mounted tree -/

section Mounted

variable (rops : List (RouterOp H)) (calls : List (HandleCall H)) (u : Bytes)

/-- The calls that built the parent, and one call for each leaf. -/
def mountOps : List (RouterOp H) := rops ++ (bpTree calls).leaves.map (mountOp u)

/-- The leaves before and after a reported one. -/
theorem leaves_split {e : List Bytes × VerbHandler H} (he : e ∈ (bpTree calls).leaves) :
    ∃ before after : List (List Bytes × VerbHandler H), mountOps rops calls u
        = (rops ++ before.map (mountOp u)) ++ mountOp u e :: after.map (mountOp u) ∧
      (∀ f ∈ before, f ∈ (bpTree calls).leaves ∧ Trie.Precedes f.1 e.1) ∧
      ∀ f ∈ after, f ∈ (bpTree calls).leaves ∧ Trie.Precedes e.1 f.1 := by
  obtain ⟨before, after, hsplit⟩ := List.append_of_mem he
  have hpair := Trie.pairwise_leaves (Router.wf_tree (calls.map op))
  change (bpTree calls).leaves.Pairwise _ at hpair
  rw [hsplit, List.pairwise_append] at hpair
  refine ⟨before, after, ?_, fun f hf => ⟨?_, hpair.2.2 f hf e List.mem_cons_self⟩,
    fun f hf => ⟨?_, (List.pairwise_cons.mp hpair.2.1).1 f hf⟩⟩
  · rw [mountOps, hsplit]
    simp
  · rw [hsplit]
    exact List.mem_append_left _ hf
  · rw [hsplit]
    exact List.mem_append_right _ (List.mem_cons_of_mem _ hf)

variable {rops calls u}

theorem not_precedes_self {q : List Bytes} : ¬ Trie.Precedes q q := by
  rintro ⟨c, a, b, p, p', hp, hp', hab⟩
  rw [hp] at hp'
  rw [(List.cons.inj (List.append_cancel_left hp')).1] at hab
  exact lt_irrefl b hab

/-- **The handlers of a mounted leaf**, if no later leaf is glued to the same
text and the parent does not hold `/` already. -/
theorem valAt_mountOps (hu : 0 ∉ u) {e : List Bytes × VerbHandler H}
    (he : e ∈ (bpTree calls).leaves)
    (hafter : ∀ f ∈ (bpTree calls).leaves, Trie.Precedes e.1 f.1 →
      mountKeys u f.1 ≠ mountKeys u e.1)
    (hroot : mountKeys u e.1 = [[slash]] → ¬ Trie.Has [[slash]] (Router.tree rops) ∧
      ∀ f ∈ (bpTree calls).leaves, ¬ Trie.Precedes f.1 e.1) :
    (Trie.valAt (mountKeys u e.1) (Router.tree (mountOps rops calls u))).verbHandlerMap
      = (Trie.valAt e.1 (bpTree calls)).verbHandlerMap := by
  obtain ⟨before, after, hops, hbefore, hlater⟩ := leaves_split rops calls u he
  obtain ⟨hval, -, -, hzero, -⟩ := of_mem_leaves he
  have hkeys := keys_mountOp hu hzero
  -- the last assignment to a node wins, except at `/`, where the first does
  have hlater' : ∀ rop ∈ after.map (mountOp u), rop.keys ≠ (mountOp u e).keys := by
    intro rop hrop
    obtain ⟨f, hf, rfl⟩ := List.mem_map.mp hrop
    rw [hkeys, keys_mountOp hu (of_mem_leaves (hlater f hf).1).2.2.2.1]
    exact hafter f (hlater f hf).1 (hlater f hf).2
  have hbefore' : (mountOp u e).keys = [[slash]] →
      ∀ rop ∈ rops ++ before.map (mountOp u), rop.keys ≠ [[slash]] := by
    intro hslash rop hrop hrkeys
    obtain ⟨hno, hfirst⟩ := hroot (hkeys ▸ hslash)
    rcases List.mem_append.mp hrop with hrop | hrop
    · exact hno ((Router.has_root_iff rops).mpr ⟨rop, hrop, hrkeys⟩)
    · obtain ⟨f, hf, rfl⟩ := List.mem_map.mp hrop
      exact hfirst f (hbefore f hf).1 (hbefore f hf).2
  rw [← hkeys, hops, Router.valAt_tree_last hlater' hbefore', ← hval]
  rfl

/-- `/` is in the mounted tree if the parent had it or a leaf brings it. -/
theorem has_root_mountOps (hu : 0 ∉ u) :
    Trie.Has [[slash]] (Router.tree (mountOps rops calls u)) ↔
      Trie.Has [[slash]] (Router.tree rops) ∨
        ∃ e ∈ (bpTree calls).leaves, mountKeys u e.1 = [[slash]] := by
  rw [Router.has_root_iff, Router.has_root_iff]
  constructor
  · rintro ⟨rop, hrop, hkeys⟩
    rcases List.mem_append.mp hrop with hrop | hrop
    · exact Or.inl ⟨rop, hrop, hkeys⟩
    · obtain ⟨e, he, rfl⟩ := List.mem_map.mp hrop
      exact Or.inr ⟨e, he, by rw [← keys_mountOp hu (of_mem_leaves he).2.2.2.1, hkeys]⟩
  · rintro (⟨rop, hrop, hkeys⟩ | ⟨e, he, hkeys⟩)
    · exact ⟨rop, List.mem_append_left _ hrop, hkeys⟩
    · exact ⟨mountOp u e, List.mem_append_right _ (List.mem_map_of_mem he),
        by rw [keys_mountOp hu (of_mem_leaves he).2.2.2.1, hkeys]⟩

/-! ### Which routes are kept -/

/-- `url_prefix` joined with a route by one slash; for `/`, the prefix itself. -/
def joinedPath (u route : Bytes) : Bytes :=
  if route = [slash] then u else stripSlash u ++ slash :: dropSlash route

private theorem stripSlash_cases (r : Bytes) : r = stripSlash r ∨ r = stripSlash r ++ [slash] := by
  unfold stripSlash
  split
  · next h => exact Or.inr (List.dropLast_append_getLast? _ h).symm
  · exact Or.inl rfl

/-- A route without empty segments spells its keys. -/
theorem joined_dropSlash {r : Bytes} (hr : r ≠ [slash]) (hfull : [] ∉ routeKeys r)
    (hne : routeKeys r ≠ []) : Joined (dropSlash r) (routeKeys r) := by
  rw [routeKeys, if_neg hr] at hfull hne ⊢
  have hstrip : stripSlash r ≠ [] := fun h => hne (by rw [h]; rfl)
  rw [reqSegs, if_neg hstrip] at hfull ⊢
  refine ⟨dropSlash (stripSlash r), ?_, ?_, rfl, ?_⟩
  · intro h
    exact hfull (by rw [h]; exact List.mem_cons_self)
  · -- a slash at the end would leave an empty segment after it
    intro h
    refine hfull ?_
    rw [← List.dropLast_append_getLast? _ h, splitOn_append_slash]
    simp
  · rcases stripSlash_cases r with h | h
    · exact Or.inl (congrArg dropSlash h)
    · right
      conv_lhs => rw [h]
      exact dropSlash_append hstrip _

theorem routeKeys_joinedPath {r : Bytes} (hr : r ≠ [slash]) (hfull : [] ∉ routeKeys r)
    (u : Bytes) : routeKeys (joinedPath u r) = mountKeys u (routeKeys r) := by
  rw [joinedPath, if_neg hr]
  by_cases hne : routeKeys r = []
  · have hnil : r = [] := by
      rw [routeKeys, if_neg hr] at hne
      by_contra hrne
      have hstrip : stripSlash r = [] := by
        by_contra h
        rw [reqSegs_eq_cons h] at hne
        simp at hne
      rcases stripSlash_cases r with h | h
      · exact hrne (h.trans hstrip)
      · exact hr (by rw [h, hstrip]; rfl)
    subst hnil
    rfl
  · have hseg : ∀ k ∈ routeKeys r, slash ∉ k := by
      intro k hk
      rw [routeKeys, if_neg hr] at hk
      exact slash_notMem_of_mem_reqSegs hk
    rw [routeKeys_append_joined (joined_dropSlash hr hfull hne),
      mountKeys_of_full hseg hfull hne]

/-- The routes that can be called after the mount. For `/`: the prefix is `/`,
nothing else claims the path `/`, and the verb is that of the first call for
`/`. For any other route: it has no empty segment, no route extends it, and the
path `/` is not the parent's. -/
def Kept (parent : RouteTableNode H) (calls : List (HandleCall H)) (u : Bytes)
    (c : HandleCall H) : Prop :=
  0 ∉ u ∧
  if c.op.route = [slash] then
    u = [slash] ∧ ¬ Trie.Has [[slash]] parent ∧
      (calls.find? fun d => d.keys = [[slash]]).map verb = some c.verb ∧
      ∀ d ∈ calls, Leaf calls d.keys → ∃ s ∈ d.keys, s ≠ []
  else
    [] ∉ c.keys ∧ Leaf calls c.keys ∧
      (Router.callPath (joinedPath u c.op.route) = [slash] → ¬ Trie.Has [[slash]] parent)

/-- The prefix `/` leaves `/` alone, unless a leaf has only empty segments. -/
theorem has_root_mountOps_slash {c : HandleCall H} (hc : c ∈ calls) :
    Trie.Has [[slash]] (Router.tree (mountOps rops calls [slash])) ↔
      Trie.Has [[slash]] (Router.tree rops) ∨
        ∃ d ∈ calls, Leaf calls d.keys ∧ ∀ s ∈ d.keys, s = [] := by
  rw [has_root_mountOps (by decide)]
  refine or_congr_right ⟨?_, ?_⟩
  · rintro ⟨e, he, hkeys⟩
    obtain ⟨-, hleaf, hshape, -, hhas⟩ := of_mem_leaves he
    obtain ⟨d, hd, hde⟩ : ∃ d ∈ calls, d.keys = e.1 := by
      rcases hhas with hnil | ⟨d, hd, hpre⟩
      · exact ⟨c, hc, hleaf c hc (hnil ▸ List.nil_prefix)⟩
      · exact ⟨d, hd, hleaf d hd hpre⟩
    rw [← hde] at hleaf hkeys hshape
    refine ⟨d, hd, hleaf, ?_⟩
    rcases hshape with hroot | hseg
    · rw [hroot, mountKeys_root] at hkeys
      exact absurd hkeys (root_ne_append (by simp))
    · rcases mountKeys_cases hseg [slash] with ⟨hall, -⟩ | h
      · exact hall
      · rw [h] at hkeys
        exact absurd hkeys (root_ne_append fun k hk => hseg k (List.mem_of_mem_filter hk))
  · rintro ⟨d, hd, hleaf, hall⟩
    have hseg : ∀ k ∈ d.keys, slash ∉ k := fun k hk => by rw [hall k hk]; simp
    refine ⟨_, mem_leaves_bpTree hd hleaf, ?_⟩
    rcases mountKeys_cases hseg [slash] with ⟨-, h⟩ | h
    · exact h
    · -- all segments are empty, so no text is glued
      have hnil : d.keys.filter (· ≠ []) = [] := by
        rw [List.filter_eq_nil_iff]
        intro k hk
        simp [hall k hk]
      rcases joinKeys_nil_cases hseg with ⟨hjoin, -⟩ | ⟨y, hy, hlast, hsplit, -⟩
      · rw [mountKeys, hjoin]
        rfl
      · rw [hnil] at hsplit
        exact absurd hsplit (List.splitOn_ne_nil slash y)

/-- The handler that a blueprint has for a route which nothing extends. -/
theorem get?_valAt_bpTree {c d : HandleCall H} (hroute : c.op.route ≠ [slash])
    (hd : calls.find? (fun d => decide (d.verb = c.verb ∧ d.keys = c.keys)) = some d) :
    OrdMap.get? c.verb (Trie.valAt c.keys (bpTree calls)).verbHandlerMap = some d.handler := by
  have hne : c.keys ≠ [[slash]] := fun h => hroute ((Router.keys_eq_root_iff c.op).mp h)
  rw [get?_valAt_first fun h => absurd h hne, hd]
  rfl

theorem runs_of_leaf (hu : 0 ∉ u) {c d : HandleCall H} (hc : c ∈ calls)
    (hd : calls.find? (fun d => decide (d.verb = c.verb ∧ d.keys = c.keys)) = some d)
    (hroute : c.op.route ≠ [slash]) (hfull : [] ∉ c.keys) (hleaf : Leaf calls c.keys)
    (hroot : Router.callPath (joinedPath u c.op.route) = [slash] →
      ¬ Trie.Has [[slash]] (Router.tree rops)) :
    (Router.ofOps (mountOps rops calls u)).Runs c.verb (joinedPath u c.op.route) d.handler := by
  have he := mem_leaves_bpTree hc hleaf
  have hseg : ∀ k ∈ c.keys, slash ∉ k := by
    intro k hk
    rw [HandleCall.keys, RouterOp.keys, routeKeys, if_neg hroute] at hk
    exact slash_notMem_of_mem_reqSegs hk
  have hkeys : routeKeys (joinedPath u c.op.route) = mountKeys u c.keys :=
    routeKeys_joinedPath hroute hfull u
  -- only the empty list of keys can end up at the node of `/`
  have hnil : mountKeys u c.keys = [[slash]] ∨ mountKeys u c.keys = [[]] → c.keys = [] := by
    intro h
    by_contra hne
    rw [mountKeys_of_full hseg hfull hne] at h
    rcases h with h | h
    · exact root_ne_append hseg h
    · have hmem : ∀ k ∈ c.keys, k = [] := fun k hk => by
        have : k ∈ reqSegs (stripSlash u) ++ c.keys := List.mem_append_right _ hk
        rw [h] at this
        exact List.mem_singleton.mp this
      obtain ⟨k, ks, hks⟩ := List.exists_cons_of_ne_nil hne
      exact hfull (hmem k (by rw [hks]; exact List.mem_cons_self) ▸ by
        rw [hks]; exact List.mem_cons_self)
  -- no later leaf is glued to the same text, so the node has the handlers of the leaf
  have hval : (Trie.valAt (mountKeys u c.keys)
      (Router.tree (mountOps rops calls u))).verbHandlerMap
        = (Trie.valAt c.keys (bpTree calls)).verbHandlerMap := by
    refine valAt_mountOps hu he
      (fun f hf hlt => mountKeys_ne_of_precedes hseg hfull (of_mem_leaves hf).2.2.1 hlt u)
      fun hslash => ⟨hroot ?_, fun f hf hlt => ?_⟩
    · rw [routeKeys_eq_root_iff.mp (hkeys.trans hslash)]
      rfl
    · obtain ⟨l, a, b, p, p', -, hq, -⟩ := hlt
      rw [hnil (Or.inl hslash)] at hq
      simp at hq
  have hfind : Router.findPtr (mountOps rops calls u)
      (Router.callPath (joinedPath u c.op.route)) = .ok (some (mountKeys u c.keys)) := by
    rw [← hkeys]
    refine Router.findPtr_exact ?_ fun hslashes => ?_
    · rw [hkeys, hval]
      exact valAt_ne_nil hc
    · have hone : mountKeys u c.keys = [[]] := by
        rw [← hkeys, hslashes]
        decide +kernel
      have hempty := hnil (Or.inr hone)
      rw [has_root_mountOps hu]
      rintro (h | ⟨f, hf, hf'⟩)
      · refine hroot ?_ h
        rw [hslashes]
        decide
      · -- all routes have no segment at all, and are mounted under the prefix
        have hfnil : f.1 = [] := by
          rcases (of_mem_leaves hf).2.2.2.2 with h | ⟨d', hd', hpre⟩
          · exact h
          · have := hleaf d' hd' (by rw [hempty]; exact List.nil_prefix)
            rw [this, hempty] at hpre
            exact List.prefix_nil.mp hpre
        rw [hfnil, ← hempty, hone] at hf'
        simp at hf'
  refine (Router.runs_iff _ _ _ _).mpr ⟨_, hfind, ?_⟩
  rw [hval, get?_valAt_bpTree hroute hd]
  rfl

theorem runs_of_root {c d : HandleCall H} (hc : c ∈ calls)
    (hd : calls.find? (fun d => decide (d.verb = c.verb ∧ d.keys = c.keys)) = some d)
    (hroute : c.op.route = [slash])
    (hno : ¬ Trie.Has [[slash]] (Router.tree (mountOps rops calls [slash])))
    (hfirst : (calls.find? fun d => d.keys = [[slash]]).map verb = some c.verb) :
    (Router.ofOps (mountOps rops calls [slash])).Runs c.verb [slash] d.handler := by
  have hkeys : c.keys = [[slash]] := (Router.keys_eq_root_iff c.op).mpr hroute
  have hleaf : Leaf calls c.keys := by
    rw [hkeys]
    intro d _ hpre
    exact routeKeys_eq_of_root_prefix hpre List.mem_cons_self
  have he := mem_leaves_bpTree hc hleaf
  rw [hkeys] at he hd
  have hone : mountKeys [slash] [[slash]] = [[]] := by decide +kernel
  have hval : (Trie.valAt (mountKeys [slash] [[slash]])
      (Router.tree (mountOps rops calls [slash]))).verbHandlerMap
        = (Trie.valAt [[slash]] (bpTree calls)).verbHandlerMap := by
    refine valAt_mountOps (by decide) he (fun f hf hlt => ?_) fun h => ?_
    · rcases (of_mem_leaves hf).2.2.1 with h | h
      · rw [h] at hlt
        exact absurd hlt not_precedes_self
      · exact mountKeys_ne_root h [slash]
    · rw [hone] at h
      simp at h
  rw [hone] at hval
  -- the node under the empty segment has the handlers that the blueprint has for `/`
  have hget : OrdMap.get? c.verb (Trie.valAt [[]]
      (Router.tree (mountOps rops calls [slash]))).verbHandlerMap = some d.handler := by
    rw [hval, get?_valAt_first fun _ => hfirst, hd]
    rfl
  have hmap : (Trie.valAt [[]]
      (Router.tree (mountOps rops calls [slash]))).verbHandlerMap ≠ [] := by
    intro hnil
    rw [hnil] at hget
    simp at hget
  obtain ⟨m, hm⟩ : ∃ m, Trie.sub? [[]] (Router.tree (mountOps rops calls [slash])) = some m := by
    rw [← Option.isSome_iff_exists]
    by_contra hhas
    exact hmap (by rw [Trie.valAt_of_not_has hhas]; rfl)
  rw [Trie.valAt_of_sub? hm] at hmap
  have hfind : Router.findPtr (mountOps rops calls [slash]) (Router.callPath [slash])
      = .ok (some [[]]) := by
    have hsegs : reqSegs (Router.callPath [slash]) = [[]] := by decide +kernel
    rw [Router.findPtr, if_neg fun h => hno h.2, hsegs, reach_exact hm hmap]
    rfl
  refine (Router.runs_iff _ _ _ _).mpr ⟨_, hfind, ?_⟩
  rw [hget]
  rfl

/-! ### Where a handler of the blueprint can be found -/

section Separate

variable {P : H → Prop} (hrops : ∀ rop ∈ rops, rop.Installs P)
  (hcalls : ∀ c ∈ calls, ¬ P c.handler)
  (hinj : ∀ c ∈ calls, ∀ d ∈ calls, c.handler = d.handler → c = d)

include hrops hcalls hinj in
/-- A handler of the blueprint sits where its leaf was mounted, and only there. -/
theorem exists_leaf_of_handler (hu : 0 ∉ u) {d : HandleCall H} (hd : d ∈ calls) {q : NodePtr}
    {v : Verb}
    (hv : (v, d.handler) ∈ (Trie.valAt q (Router.tree (mountOps rops calls u))).verbHandlerMap) :
    (d.keys, Trie.valAt d.keys (bpTree calls)) ∈ (bpTree calls).leaves ∧
      mountKeys u d.keys = q ∧ d ∈ callsAt d.keys calls ∧ (q = [[slash]] →
        ¬ Trie.Has [[slash]] (Router.tree rops)) := by
  have hroot : q = [[slash]] → ¬ Trie.Has [[slash]] (Router.tree rops) := by
    rintro rfl hhas
    refine hcalls d hd (Router.forall_valAt_tree (fun rop hrop => ?_) _ hv)
    rw [mountOps, Router.opsAt_root_append hhas] at hrop
    exact hrops rop (Router.mem_opsAt hrop).1
  have hmounted : ∀ rop ∈ Router.opsAt q (mountOps rops calls u), rop.Installs fun h => P h ∨
      ∃ e ∈ (bpTree calls).leaves, mountKeys u e.1 = q ∧ ∃ x ∈ e.2.verbHandlerMap, x.2 = h := by
    intro rop hrop
    obtain ⟨hmem, hkeys⟩ := Router.mem_opsAt hrop
    rcases List.mem_append.mp hmem with hmem | hmem
    · exact fun vh y hy => (hrops rop hmem vh y hy).imp_right Or.inl
    · obtain ⟨e, he, rfl⟩ := List.mem_map.mp hmem
      rw [keys_mountOp hu (of_mem_leaves he).2.2.2.1] at hkeys
      exact installs_mountOp fun x hx => Or.inr ⟨e, he, hkeys, x, hx, rfl⟩
  have hregistered : ∀ p, ∀ rop ∈ Router.opsAt p (calls.map op),
      rop.Installs fun h => ∃ c ∈ callsAt p calls, c.handler = h := by
    intro p rop hrop
    rw [opsAt_map] at hrop
    obtain ⟨c, hc, rfl⟩ := List.mem_map.mp hrop
    exact fun vh y hy => (c.installs_op vh y hy).imp_right fun h => ⟨c, hc, h.symm⟩
  -- a handler at `q` is the parent's or came with a leaf that is mounted there
  rcases Router.forall_valAt_tree hmounted _ hv with h | ⟨e, he, hkeys, x, hx, hxd⟩
  · exact absurd h (hcalls d hd)
  · have hval := (of_mem_leaves he).1
    rw [hval] at hx
    obtain ⟨c, hc, hch⟩ := Router.forall_valAt_tree (hregistered e.1) x hx
    obtain ⟨hmem, hck⟩ := mem_callsAt hc
    have hcd : c = d := hinj c hmem d hd (hch.trans hxd)
    subst hcd
    rw [hck, ← hval]
    exact ⟨he, hkeys, hc, hroot⟩

include hrops hcalls hinj in
theorem kept_of_runs (hu : 0 ∉ u) {c d : HandleCall H}
    (hd : calls.find? (fun d => decide (d.verb = c.verb ∧ d.keys = c.keys)) = some d)
    (hfull : [] ∉ c.keys)
    (hrun : (Router.ofOps (mountOps rops calls u)).Runs c.verb (joinedPath u c.op.route)
      d.handler) : Kept (Router.tree rops) calls u c := by
  obtain ⟨hdc, hdk⟩ : d.verb = c.verb ∧ d.keys = c.keys := by
    have := List.find?_some hd
    simpa using this
  have hdmem := List.mem_of_find?_eq_some hd
  obtain ⟨q, hq, hget⟩ := (Router.runs_iff _ _ _ _).mp hrun
  have hv : ∃ v, (v, d.handler)
      ∈ (Trie.valAt q (Router.tree (mountOps rops calls u))).verbHandlerMap := by
    rcases Option.or_eq_some_iff.mp hget with h | ⟨-, h⟩
    · exact ⟨_, OrdMap.mem_of_get? h⟩
    · exact ⟨_, OrdMap.mem_of_get? h⟩
  obtain ⟨v, hv⟩ := hv
  obtain ⟨he, hkeys, hat, hroot⟩ := exists_leaf_of_handler hrops hcalls hinj hu hdmem hv
  rw [hdk] at he hkeys hat
  refine ⟨hu, ?_⟩
  split
  · next hroute =>
    have hck : c.keys = [[slash]] := (Router.keys_eq_root_iff c.op).mpr hroute
    rw [hck] at hkeys hat hdk
    rw [mountKeys_root] at hkeys
    rw [joinedPath, if_pos hroute, Router.findPtr] at hq
    split at hq
    · simp only [Except.ok.injEq, Option.some.injEq] at hq
      rw [← hq] at hkeys
      exact absurd hkeys (root_ne_append (by simp))
    · next hno =>
      -- the route `/` is called with the prefix alone
      cases hr : reach (reqSegs (Router.callPath u))
          (Router.tree (mountOps rops calls u)) with
      | error e => simp [hr, Except.map] at hq
      | ok o =>
        cases o with
        | none => simp [hr, Except.map] at hq
        | some r =>
          simp only [hr, Except.map, Option.map_some, Except.ok.injEq, Option.some.injEq] at hq
          rw [← hq] at hkeys
          -- the mounted `/` lies one key below the prefix
          have huslash : u = [slash] := by
            by_contra hne
            rw [Router.reqSegs_callPath hne, routeKeys, if_neg hne] at hr
            rcases length_of_reach hr with h | ⟨p, hp⟩
            · rw [← hkeys, List.length_append, List.length_singleton] at h
              omega
            · rw [← hkeys] at hp
              have := (List.append_inj' hp rfl).2
              simp at this
          have hnoroot : ¬ Trie.Has [[slash]] (Router.tree (mountOps rops calls u)) := by
            intro h
            exact hno ⟨by rw [huslash]; rfl, h⟩
          rw [huslash, has_root_mountOps_slash hdmem, not_or] at hnoroot
          refine ⟨huslash, hnoroot.1, ?_, fun d' hd' hleaf' => ?_⟩
          · obtain ⟨d₀, ds, hfind, -, hcons⟩ := callsAt_eq_cons ⟨d, hdmem, hdk⟩
            rw [hcons, if_pos rfl] at hat
            rw [hfind, ← List.mem_singleton.mp hat, Option.map_some, hdc]
          · by_contra hall
            refine hnoroot.2 ⟨d', hd', hleaf', fun s hs => ?_⟩
            by_contra hne
            exact hall ⟨s, hs, hne⟩
  · next hroute =>
    obtain ⟨-, hleaf, -⟩ := of_mem_leaves he
    refine ⟨hfull, hleaf, fun hpath hhas => ?_⟩
    have hfinal : Trie.Has [[slash]] (Router.tree (mountOps rops calls u)) :=
      (has_root_mountOps hu).mpr (Or.inl hhas)
    rw [Router.findPtr, if_pos ⟨hpath, hfinal⟩, Except.ok.injEq, Option.some.injEq] at hq
    exact hroot hq.symm hhas

end Separate

end Mounted

/-! ### Mounting into any blueprint -/

/-- The calls of the blueprint, their handlers numbered. -/
def tagged (calls : List (HandleCall H)) : List (HandleCall (Option Nat × H)) :=
  (numbered calls).map (HandleCall.map (Prod.map some id))

/-- The parent, whose handlers carry no number. -/
def parentOf (parent : List (BluePrintOp H)) : BluePrint (Option Nat × H) :=
  build (BluePrintOp.mapAll (fun h => (none, h)) parent)

/-- After the mount, the joined path reaches the handler that the blueprint has
for the call's verb and route. -/
def Mounted (parent : List (BluePrintOp H)) (calls : List (HandleCall H)) (u : Bytes)
    (c : HandleCall (Option Nat × H)) : Prop :=
  ∃ d, (tagged calls).find? (fun d => decide (d.verb = c.verb ∧ d.keys = c.keys)) = some d ∧
    ((parentOf parent).addBlueprint (build ((tagged calls).map BluePrintOp.ROUTE)) u).router.Runs
      c.verb (joinedPath u c.op.route) d.handler

theorem eq_of_tag_eq {calls : List (HandleCall H)} {c d : HandleCall (Option Nat × H)}
    (hc : c ∈ tagged calls) (hd : d ∈ tagged calls) (h : c.handler = d.handler) : c = d := by
  obtain ⟨c', hc', rfl⟩ := List.mem_map.mp hc
  obtain ⟨d', hd', rfl⟩ := List.mem_map.mp hd
  have hhandler : c'.handler = d'.handler := by
    obtain ⟨h₁, h₂⟩ := Prod.mk.inj h
    exact Prod.ext (Option.some.inj h₁) h₂
  rw [eq_of_handler_eq hc' hd' hhandler]

theorem runs_congr {r r' : Router H} (h : r.routesMap = r'.routesMap) (verb : Verb)
    (path : Bytes) (handler : H) : r.Runs verb path handler ↔ r'.Runs verb path handler := by
  unfold Router.Runs Router.call
  rw [h]

/-- **What a mount keeps.** Every route that is `Kept` can be called, and, for a
prefix without NUL and a route without empty segments, no other. -/
theorem addBlueprint_keeps (parent : List (BluePrintOp H)) (calls : List (HandleCall H))
    (u : Bytes) (c : HandleCall (Option Nat × H)) (hc : c ∈ tagged calls) :
    (Kept (parentOf parent).router.routesMap.root (tagged calls) u c →
      Mounted parent calls u c) ∧
    (0 ∉ u → [] ∉ c.keys → Mounted parent calls u c →
      Kept (parentOf parent).router.routesMap.root (tagged calls) u c) := by
  obtain ⟨rops, hparent, hinstalls⟩ := BluePrintOp.exists_ops (fun h : H => (none, h)) parent
  change (parentOf parent).router.routesMap = _ at hparent
  have hbp := BluePrintOp.routesMap_build_ROUTE (tagged calls)
  have hmounted : ((parentOf parent).addBlueprint
      (build ((tagged calls).map BluePrintOp.ROUTE)) u).router.routesMap
        = (Router.ofOps (mountOps rops (tagged calls) u)).routesMap := by
    rw [routesMap_addBlueprint hparent, hbp]
    rfl
  have hroot : (parentOf parent).router.routesMap.root = Router.tree rops := by
    rw [hparent]
    rfl
  obtain ⟨d, hd⟩ : ∃ d, (tagged calls).find?
      (fun d => decide (d.verb = c.verb ∧ d.keys = c.keys)) = some d := by
    rw [← Option.isSome_iff_exists, List.find?_isSome]
    exact ⟨c, hc, by simp⟩
  rw [hroot]
  constructor
  · rintro ⟨hu, hkept⟩
    refine ⟨d, hd, (runs_congr hmounted _ _ _).mpr ?_⟩
    split at hkept
    · next hroute =>
      obtain ⟨rfl, hno, hfirst, hleaf⟩ := hkept
      rw [joinedPath, if_pos hroute]
      refine runs_of_root hc hd hroute ?_ hfirst
      rw [has_root_mountOps_slash hc]
      rintro (h | ⟨d', hd', hleaf', hall⟩)
      · exact hno h
      · obtain ⟨s, hs, hne⟩ := hleaf d' hd' hleaf'
        exact hne (hall s hs)
    · next hroute =>
      obtain ⟨hfull, hleaf, hpath⟩ := hkept
      exact runs_of_leaf hu hc hd hroute hfull hleaf hpath
  -- no handler of the blueprint is one of the parent's, which carry no number
  · rintro hu hfull ⟨d', hd', hrun⟩
    have hnone : ∀ e ∈ tagged calls, ¬ ∃ h : H, (none, h) = e.handler := by
      rintro e he ⟨h, hh⟩
      obtain ⟨e', -, rfl⟩ := List.mem_map.mp he
      exact absurd (Prod.mk.inj hh).1 (by simp)
    exact kept_of_runs hinstalls hnone (fun a ha b hb => eq_of_tag_eq ha hb) hu hd' hfull
      ((runs_congr hmounted _ _ _).mp hrun)

instance (parent : RouteTableNode H) (calls : List (HandleCall H)) (u : Bytes)
    (c : HandleCall H) : Decidable (Kept parent calls u c) :=
  inferInstanceAs (Decidable (_ ∧ _))

/-- A route that no other route extends. -/
theorem addBlueprint_keeps_leaf :
    Mounted [] [⟨ascii "/v1/x", 0, (), .GET⟩, ⟨ascii "/v1", 0, (), .GET⟩] (ascii "/api/")
      ⟨ascii "/v1/x", 0, (some 0, ()), .GET⟩ :=
  (addBlueprint_keeps _ _ _ _ (by simp [tagged, numbered, HandleCall.map])).1 (by decide +kernel)

/-- `/v1` next to `/v1/x` is lost. -/
theorem not_mounted_inner :
    ¬ Mounted [] [⟨ascii "/v1/x", 0, (), .GET⟩, ⟨ascii "/v1", 0, (), .GET⟩] (ascii "/api")
      ⟨ascii "/v1", 0, (some 1, ()), .GET⟩ := by
  rintro ⟨d, -, fullPath, routeParams, matchPath, hcall⟩
  have hmissing : ((parentOf []).addBlueprint (build ((tagged
      [⟨ascii "/v1/x", 0, (), .GET⟩, ⟨ascii "/v1", 0, (), .GET⟩]).map BluePrintOp.ROUTE))
        (ascii "/api")).router.call Verb.GET (ascii "/api/v1") = .ok .StatusRouteNotFound := by
    decide +kernel
  have hpath : joinedPath (ascii "/api") (cStr (ascii "/v1")) = ascii "/api/v1" := by
    decide +kernel
  change Router.call _ _ (joinedPath (ascii "/api") (cStr (ascii "/v1"))) = _ at hcall
  rw [hpath, hmissing] at hcall
  simp at hcall

end BluePrint

end Wfrest
