import Wfrest.Route.Precedence

/-!
# Completeness of the lookup

`find_complete_iff` says when a lookup finds something although, or because, a
registered route matches. At every node the search tries the child named as the
segment and then one other child only, the first in key order that is a
parameter or a fitting wildcard. So some node of the registered keys has to be
one that can be found (`Routes.Reaches`); a route behind a later sibling is not.

A parameter key whose name is blank makes `shrink` wrap around, so the results
assume that names are not blank (`isOk_paramPiece`).
-/

namespace Wfrest

variable {H : Type}

open RouteTableNode

/-! ### Parameter names -/

/-- The key is not a parameter, or its name has a byte other than a space. -/
def NonBlank (k : Bytes) : Prop := isParam k = true → ∃ b ∈ k.tail.dropLast, b ≠ space

instance (k : Bytes) : Decidable (NonBlank k) :=
  inferInstanceAs (Decidable (isParam k = true → ∃ b ∈ k.tail.dropLast, b ≠ space))

private theorem length_takeWhile_le {p : UInt8 → Bool} {l : Bytes} {m : Nat} (hm : m < l.length)
    (hp : ¬ p l[m] = true) : (l.takeWhile p).length ≤ m := by
  by_contra hlt
  rw [not_le] at hlt
  have hget : (l.takeWhile p)[m] = l[m] := (List.takeWhile_prefix p).getElem hlt
  have hmem : (l.takeWhile p)[m] ∈ l.takeWhile p := List.getElem_mem hlt
  rw [hget] at hmem
  exact hp (List.mem_takeWhile_imp hmem)

/-- The name of a parameter that is not blank can be cut out. -/
theorem isOk_paramPiece {k : Bytes} (hk : isParam k = true) (hname : NonBlank k) :
    (paramPiece k).asString.isOk := by
  have hlen : 2 < k.length := by
    unfold isParam at hk
    simp only [Bool.and_eq_true, decide_eq_true_eq] at hk
    exact hk.1.1
  obtain ⟨b, hb, hne⟩ := hname hk
  obtain ⟨t, ht, rfl⟩ := List.getElem_of_mem hb
  have ht' : t < k.length - 2 := by
    simp only [List.length_dropLast, List.length_tail] at ht
    omega
  have hkt : k.tail.dropLast[t] = k[t + 1] := by simp
  -- both scans stop at the byte that is not a space
  have hfront : ((k.drop 1).takeWhile (· = space)).length ≤ t := by
    refine length_takeWhile_le (by simp only [List.length_drop]; omega) ?_
    rw [List.getElem_drop]
    simpa [Nat.add_comm, hkt] using hne
  have hback : ((k.take (k.length - 2 + 1)).reverse.takeWhile (· = space)).length
      ≤ k.length - 3 - t := by
    refine length_takeWhile_le (by simp; omega) ?_
    rw [List.getElem_reverse, List.getElem_take]
    have hidx : (k.take (k.length - 2 + 1)).length - 1 - (k.length - 3 - t) = t + 1 := by
      simp only [List.length_take]
      omega
    simp only [hidx, ← hkt]
    simpa using hne
  set i := 1 + ((k.drop 1).takeWhile (· = space)).length with hi
  set j := k.length - 2 - ((k.take (k.length - 2 + 1)).reverse.takeWhile (· = space)).length
    with hj
  have hpiece : paramPiece k =
      ⟨k.drop i, sizeSub (sizeSub k.length i) (sizeSub (sizeSub k.length 1) j)⟩ := rfl
  have hval : (paramPiece k).length ≤ (paramPiece k).ptr.length := by
    rw [hpiece]
    rw [sizeSub_of_le (a := k.length) (b := 1) (by omega),
      sizeSub_of_le (a := k.length - 1) (by omega), sizeSub_of_le (a := k.length) (by omega),
      sizeSub_of_le (by omega), List.length_drop]
    exact Nat.sub_le _ _
  rw [StringPiece.asString, if_pos hval]
  rfl

/-! ### What the search can find -/

namespace RouteTableNode

/-- No parameter name of the tree is blank. -/
def Named (n : RouteTableNode H) : Prop :=
  ∀ q k, Trie.Has (q ++ [k]) n → NonBlank k

theorem Named.child {n child : RouteTableNode H} {k : Bytes} (h : Named n)
    (hget : OrdMap.get? k n.children = some child) : Named child := by
  intro q j hj
  refine h (k :: q) j ?_
  rw [Trie.Has, List.cons_append, Trie.sub?_cons, hget]
  exact hj

theorem Named.isOk {n child : RouteTableNode H} {k : Bytes} (h : Named n)
    (hget : OrdMap.get? k n.children = some child) (hk : isParam k = true) :
    (paramPiece k).asString.isOk := by
  refine isOk_paramPiece hk (h [] k ?_)
  rw [Trie.Has, List.nil_append, Trie.sub?_singleton, hget]
  rfl

/-- Where no name is blank, a search does not throw. -/
theorem exists_reach {n : RouteTableNode H} (hwf : Trie.WF n) (hnamed : Named n)
    (segs : List Bytes) : ∃ o, reach segs n = .ok o := by
  induction segs generalizing n with
  | nil =>
    rw [reach]
    split
    · exact ⟨_, rfl⟩
    · exact ⟨_, rfl⟩
  | cons s rest ih =>
    have hchild : ∀ {k child}, OrdMap.get? k n.children = some child →
        ∃ o, reach rest child = .ok o := fun hget =>
      ih (hwf.child (hwf.sorted.get?_eq_some_iff.mp hget)) (hnamed.child hget)
    by_cases hnil : n.children = []
    · exact ⟨_, reach_leaf hnil _⟩
    by_cases hexact : ∃ child r, OrdMap.get? s n.children = some child ∧
        reach rest child = .ok (some r)
    · obtain ⟨child, r, hget, hr⟩ := hexact
      exact ⟨_, reach_cons_eq_some_iff.mpr (Or.inr (Or.inl ⟨child, r, hget, hr, rfl⟩))⟩
    have hdead : ∀ child, OrdMap.get? s n.children = some child →
        reach rest child = .ok none := by
      intro child hget
      obtain ⟨_ | r, ho⟩ := hchild hget
      · exact ho
      · exact absurd ⟨child, r, hget, ho⟩ hexact
    -- the loop has one candidate at most
    cases hfind : n.children.find? (candidate s) with
    | none => exact ⟨none, reach_cons_eq_none_iff.mpr ⟨hnil, hdead, by simp [hfind]⟩⟩
    | some e =>
      obtain ⟨k, child⟩ := e
      have hget : OrdMap.get? k n.children = some child :=
        hwf.sorted.get?_eq_some_iff.mpr (List.mem_of_find?_eq_some hfind)
      cases hw : isWildcard k with
      | true =>
        exact ⟨_, reach_cons_eq_some_iff.mpr
          (Or.inr (Or.inr ⟨hdead, k, child, hfind, Or.inl ⟨hw, rfl⟩⟩))⟩
      | false =>
        have hp : isParam k = true := by
          rcases candidate_iff.mp (List.find?_some hfind) with ⟨hw', -⟩ | hp
          · rw [hw] at hw'
            cases hw'
          · exact hp
        have hok := hnamed.isOk hget hp
        obtain ⟨_ | r, ho⟩ := hchild hget
        · refine ⟨none, reach_cons_eq_none_iff.mpr ⟨hnil, hdead, fun k' child' hfind' => ?_⟩⟩
          rw [hfind, Option.some.injEq, Prod.mk.injEq] at hfind'
          obtain ⟨rfl, rfl⟩ := hfind'
          exact ⟨hw, hok, ho⟩
        · exact ⟨_, reach_cons_eq_some_iff.mpr (Or.inr (Or.inr ⟨hdead, k, child, hfind,
            Or.inr ⟨hw, hok, r, ho, rfl⟩⟩))⟩

/-- The search gives up iff nothing can be found. -/
theorem givesUp_iff_unreached {n : RouteTableNode H} (hwf : Trie.WF n) (hnamed : Named n)
    (segs : List Bytes) : GivesUp segs n ↔ ∀ q, ¬ (Routes.ofTree n).Reaches segs q := by
  rw [Routes.givesUp_iff hwf]
  refine ⟨fun h => h.unreached, fun h => ⟨h, fun u k s hk => ?_⟩⟩
  exact isOk_paramPiece hk.param (hnamed u k hk.first.node)

/-- **A search finds a node iff one can be found.** -/
theorem exists_reach_iff {n : RouteTableNode H} (hwf : Trie.WF n) (hnamed : Named n)
    (segs : List Bytes) :
    (∃ r, reach segs n = .ok (some r)) ↔ ∃ q, (Routes.ofTree n).Reaches segs q := by
  have hnone : reach segs n = .ok none ↔ ∀ q, ¬ (Routes.ofTree n).Reaches segs q :=
    (reach_eq_none_iff segs n).trans (givesUp_iff_unreached hwf hnamed segs)
  rw [← not_forall_not (p := (Routes.ofTree n).Reaches segs), ← hnone]
  obtain ⟨_ | r, ho⟩ := exists_reach hwf hnamed segs
  · simp [ho]
  · simp [ho]

end RouteTableNode

/-! ### Completeness -/

namespace Router

/-- If a registered route matches the path, the lookup finds a node. -/
def Complete (ops : List (RouterOp H)) (p : StringPiece) : Prop :=
  (∃ op ∈ ops, RouteMatches false op.route p.view) →
    ∀ ctx, ∃ it ctx' q, (ofOps ops).routesMap.find p ctx = .ok (it, ctx') ∧ it.ptr = some q

/-- The path is `/` and has a route, or the registered keys have a node that can be found. -/
def Reachable (ops : List (RouterOp H)) (path : Bytes) : Prop :=
  (path = [slash] ∧ ∃ op ∈ ops, op.route = [slash]) ∨
    ∃ q, (Routes.ofOps ops).Reaches (reqSegs path) q

theorem named_tree {ops : List (RouterOp H)} (hops : ∀ op ∈ ops, ∀ k ∈ op.keys, NonBlank k) :
    Named (tree ops) := by
  intro q k hhas
  rcases (has_tree ops _).mp hhas with h | ⟨op, hop, hpre⟩
  · simp at h
  · exact hops op hop k (hpre.subset (by simp))

/-- **A lookup finds a node iff one can be found.** -/
theorem findPtr_reachable {ops : List (RouterOp H)}
    (hops : ∀ op ∈ ops, ∀ k ∈ op.keys, NonBlank k) (path : Bytes) :
    (∃ q, findPtr ops path = .ok (some q)) ↔ Reachable ops path := by
  unfold findPtr Reachable
  rw [← has_root_iff_route, ← Routes.ofTree_tree]
  by_cases hroot : path = [slash] ∧ Trie.Has [[slash]] (tree ops)
  · simp [hroot]
  · rw [if_neg hroot, or_iff_right hroot, ← exists_reach_iff (wf_tree ops) (named_tree hops)]
    cases reach (reqSegs path) (tree ops) with
    | error e => simp [Except.map]
    | ok o => cases o <;> simp [Except.map]

/-- **Completeness, and where it fails.** -/
theorem find_complete_iff (ops : List (RouterOp H)) (p : StringPiece) (hp : p.Valid)
    (hops : ∀ op ∈ ops, ∀ k ∈ op.keys, NonBlank k) :
    Complete ops p ↔
      ((∃ op ∈ ops, RouteMatches false op.route p.view) → Reachable ops p.view) := by
  have hfind : Reachable ops p.view ↔
      ∀ ctx, ∃ it ctx' q, (ofOps ops).routesMap.find p ctx = .ok (it, ctx') ∧ it.ptr = some q := by
    rw [← findPtr_reachable hops]
    constructor
    · rintro ⟨q, hq⟩ ctx
      obtain ⟨it, ctx', hf, hit⟩ := exists_find_of_findPtr hp ctx hq
      exact ⟨it, ctx', q, hf, hit⟩
    · intro h
      obtain ⟨it, ctx', q, hf, hit⟩ := h RouteCtx.init
      exact ⟨q, by rw [findPtr_of_find hp hf, hit]⟩
  rw [Complete, hfind]

/-- The first of two sibling parameters is found. -/
theorem find_complete_first_param :
    Complete [RouterOp.handle (ascii "/\x7ba\x7d/x") 0 () .GET,
      RouterOp.handle (ascii "/\x7bb\x7d/y") 0 () .GET] (StringPiece.ofString (ascii "/q/x")) := by
  refine (find_complete_iff _ _ (StringPiece.valid_ofString _) (by decide +kernel)).mpr
    fun _ => Or.inr ?_
  rw [← Routes.ofTree_tree, ← not_forall_not,
    ← givesUp_iff_unreached (wf_tree _) (named_tree (by decide +kernel))]
  decide +kernel

/-- The second one is not. -/
theorem not_complete_second_param :
    ¬ Complete [RouterOp.handle (ascii "/\x7ba\x7d/x") 0 () .GET,
      RouterOp.handle (ascii "/\x7bb\x7d/y") 0 () .GET] (StringPiece.ofString (ascii "/q/y")) := by
  intro h
  have hkeys : routeKeys (ascii "/\x7bb\x7d/y") = [ascii "\x7bb\x7d", ascii "y"] := by
    decide +kernel
  have hsegs : reqSegs (ascii "/q/y") = [ascii "q", ascii "y"] := by decide +kernel
  have hmatch : RouteMatches false (ascii "/\x7bb\x7d/y") (ascii "/q/y") := by
    rw [RouteMatches, if_neg (by decide), hkeys, hsegs]
    exact .param (by decide) (.literal (by decide) (by decide) .nil)
  obtain ⟨it, ctx', q, hfind, hq⟩ := h ⟨_, List.mem_cons_of_mem _ List.mem_cons_self, hmatch⟩
    RouteCtx.init
  have hptr := findPtr_of_find (StringPiece.valid_ofString _) hfind
  rw [hq, StringPiece.view_ofString] at hptr
  have hnone : findPtr [RouterOp.handle (ascii "/\x7ba\x7d/x") 0 () .GET,
      RouterOp.handle (ascii "/\x7bb\x7d/y") 0 () .GET] (ascii "/q/y") = .ok none := by
    decide +kernel
  rw [hnone] at hptr
  simp at hptr

end Router

end Wfrest
