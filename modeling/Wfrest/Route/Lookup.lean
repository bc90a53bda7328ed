import Wfrest.Route.Table

/-!
# What a lookup finds

`reach` is the search of `find` over a list of segments and nothing else: which
node it ends at, as an address and a node. The view, the `OUT` parameters and the
memory behind the segments do not influence it (`hit_search`).

`find_table` is the lookup in the tree of a router: the request `/` goes to the
node of `/` if there is one, every other request to what `reach` finds.
-/

namespace Wfrest

variable {H : Type}

namespace RouteTableNode

/-- The node a lookup ends at, and its address. -/
abbrev Hit (H : Type) := NodePtr × RouteTableNode H

/-- The address one level up. -/
def Hit.under (k : Bytes) (r : Hit H) : Hit H := (k :: r.1, r.2)

/-- The loop over the children, with `go` for the recursive call. -/
def reachParam (s : Bytes) (children : List (Bytes × RouteTableNode H))
    (go : RouteTableNode H → Except StdException (Option (Hit H))) :
    Except StdException (Option (Hit H)) :=
  match children.find? (candidate s) with
  | none => pure none
  | some (k, child) =>
    if isWildcard k then pure (some ([k], child))
    else do
      let _ ← (paramPiece k).asString
      let r ← go child
      pure (r.map (Hit.under k))

/-- The search over segments. -/
def reach : List Bytes → RouteTableNode H → Except StdException (Option (Hit H))
  | [], n =>
    if n.val.verbHandlerMap ≠ [] ∨ n.children.isEmpty then pure (some ([], n))
    else pure ((OrdMap.get? [star] n.children).map fun child => ([[star]], child))
  | s :: rest, n =>
    if n.children.isEmpty then pure (some ([], n))
    else
      match OrdMap.get? s n.children with
      | some child => do
        match ← reach rest child with
        | some r => pure (some (r.under s))
        | none => reachParam s n.children (reach rest)
      | none => reachParam s n.children (reach rest)

/-- What an iterator points to. -/
def Iterator.hit (it : Iterator H) : Option (NodePtr × VerbHandler H) :=
  it.ptr.map fun q => (q, it.second)

/-- A hit below the node at address `this`. -/
def Hit.at (this : NodePtr) (r : Hit H) : NodePtr × VerbHandler H := (this ++ r.1, r.2.val)

theorem Hit.at_under (this : NodePtr) (k : Bytes) (r : Hit H) :
    (Hit.under k r).at this = r.at (this ++ [k]) := by
  simp [Hit.at, Hit.under]

private theorem hit_searchParam {route : StringPiece} {c : Cut}
    {children : List (Bytes × RouteTableNode H)} {this : NodePtr}
    {go : RouteTableNode H → NodePtr → RouteCtx → Except StdException (Iterator H × RouteCtx)}
    {go' : RouteTableNode H → Except StdException (Option (Hit H))}
    (h : ∀ child this ctx, (go child this ctx).map (fun r => r.1.hit)
      = (go' child).map (Option.map (Hit.at this))) (ctx : RouteCtx) :
    (searchParam route c children this go ctx).map (fun r => r.1.hit)
      = (reachParam c.seg children go').map (Option.map (Hit.at this)) := by
  unfold searchParam reachParam
  cases children.find? (candidate c.seg) with
  | none => rfl
  | some e =>
    obtain ⟨k, child⟩ := e
    dsimp only
    split
    · rfl
    · cases (paramPiece k).asString with
      | error e => rfl
      | ok name =>
        refine (h child (this ++ [k]) _).trans ?_
        cases go' child with
        | error e => rfl
        | ok r =>
          change Except.ok (r.map _) = Except.ok ((r.map _).map _)
          rw [Option.map_map]
          congr 2
          funext r
          exact (Hit.at_under this k r).symm

/-- **The search finds what `reach` finds.** -/
theorem hit_search (route : StringPiece) (cs : List Cut) (n : RouteTableNode H) (this : NodePtr)
    (ctx : RouteCtx) :
    (search route cs n this ctx).map (fun r => r.1.hit)
      = (reach (cs.map Cut.seg) n).map (Option.map (Hit.at this)) := by
  induction cs generalizing n this ctx with
  | nil =>
    rw [search, List.map_nil, reach]
    split
    · simp [Except.map, pure, Except.pure, Iterator.hit, Hit.at]
    · cases OrdMap.get? [star] n.children with
      | none => rfl
      | some child => rfl
  | cons c cs ih =>
    rw [search, List.map_cons, reach]
    split
    · simp [Except.map, pure, Except.pure, Iterator.hit, Hit.at]
    · unfold searchChildren
      cases OrdMap.get? c.seg n.children with
      | none => exact hit_searchParam (fun child this ctx => ih child this ctx) ctx
      | some child =>
        -- the child named as the segment comes first; the loop follows when it gives up
        have hchild := ih child (this ++ [c.seg]) ctx
        dsimp only
        cases hs : search route cs child (this ++ [c.seg]) ctx with
        | error e =>
          rw [hs] at hchild
          cases hr : reach (cs.map Cut.seg) child with
          | error e' => rw [hr] at hchild; exact hchild
          | ok r => rw [hr] at hchild; simp [Except.map] at hchild
        | ok it =>
          rw [hs] at hchild
          cases hr : reach (cs.map Cut.seg) child with
          | error e' => rw [hr] at hchild; simp [Except.map] at hchild
          | ok r =>
            rw [hr] at hchild
            have hhit : it.1.hit = r.map (Hit.at (this ++ [c.seg])) := by
              simpa [Except.map] using hchild
            cases r with
            | none =>
              have hptr : it.1.ptr = none := by
                simpa [Iterator.hit] using hhit
              simp only [bind, Except.bind, hptr, Option.isSome_none, Bool.false_eq_true,
                if_false]
              exact hit_searchParam (fun child this ctx => ih child this ctx) it.2
            | some r =>
              have hptr : it.1.ptr.isSome = true := by
                rw [Iterator.hit] at hhit
                cases hp : it.1.ptr with
                | none => rw [hp] at hhit; simp at hhit
                | some q => rfl
              simp only [bind, Except.bind, hptr, if_true]
              change Except.ok it.1.hit = Except.ok (some (Hit.at this (r.under c.seg)))
              rw [hhit, Hit.at_under]
              rfl

/-! ### One step of the search -/

section Step

variable {s : Bytes} {rest : List Bytes} {n : RouteTableNode H} {r : Hit H}

/-- The loop over the children ends in what the first candidate gives. -/
private theorem reachParam_ok {o : Option (Hit H)} :
    reachParam s n.children (reach rest) = .ok o ↔
      match n.children.find? (candidate s) with
      | none => o = none
      | some (k, child) =>
        if isWildcard k then o = some ([k], child)
        else (paramPiece k).asString.isOk ∧
          ∃ o', reach rest child = .ok o' ∧ o = o'.map (Hit.under k) := by
  unfold reachParam
  cases n.children.find? (candidate s) with
  | none => simp [pure, Except.pure, eq_comm]
  | some e =>
    obtain ⟨k, child⟩ := e
    dsimp only
    split
    · simp [pure, Except.pure, eq_comm]
    · cases (paramPiece k).asString with
      | error e => simp [bind, Except.bind, Except.isOk, Except.toBool]
      | ok name =>
        cases reach rest child with
        | error e => simp [bind, Except.bind]
        | ok o' =>
          simp [bind, Except.bind, pure, Except.pure, Except.isOk, Except.toBool, eq_comm]

/-- **A search that ends at a node** stopped at a leaf, went through the child
named as the segment, or went through the first candidate. -/
theorem reach_cons_eq_some_iff :
    reach (s :: rest) n = .ok (some r) ↔
      (n.children = [] ∧ r = ([], n)) ∨
      (∃ child r', OrdMap.get? s n.children = some child ∧ reach rest child = .ok (some r') ∧
        r = r'.under s) ∨
      ((∀ child, OrdMap.get? s n.children = some child → reach rest child = .ok none) ∧
        ∃ k child, n.children.find? (candidate s) = some (k, child) ∧
          ((isWildcard k = true ∧ r = ([k], child)) ∨
            (isWildcard k = false ∧ (paramPiece k).asString.isOk ∧
              ∃ r', reach rest child = .ok (some r') ∧ r = r'.under k))) := by
  -- the loop is the first candidate alone
  have hloop : reachParam s n.children (reach rest) = .ok (some r) ↔
      ∃ k child, n.children.find? (candidate s) = some (k, child) ∧
        ((isWildcard k = true ∧ r = ([k], child)) ∨
          (isWildcard k = false ∧ (paramPiece k).asString.isOk ∧
            ∃ r', reach rest child = .ok (some r') ∧ r = r'.under k)) := by
    rw [reachParam_ok]
    cases n.children.find? (candidate s) with
    | none => simp
    | some e =>
      obtain ⟨k, child⟩ := e
      cases hw : isWildcard k with
      | true => simp [hw]
      | false =>
        simp only [hw, Bool.false_eq_true, if_false, Option.some.injEq, Prod.mk.injEq]
        constructor
        · rintro ⟨hok, o', ho', hr⟩
          cases o' with
          | none => simp at hr
          | some r' => exact ⟨k, child, ⟨rfl, rfl⟩, Or.inr ⟨hw, hok, r', ho', by simpa using hr⟩⟩
        · rintro ⟨k', child', ⟨rfl, rfl⟩, ⟨hw', -⟩ | ⟨-, hok, r', ho', rfl⟩⟩
          · simp [hw] at hw'
          · exact ⟨hok, some r', ho', rfl⟩
  rw [reach]
  cases hcs : n.children with
  | nil =>
    have hpure : (pure (some ([], n)) : Except StdException (Option (Hit H))) = .ok (some r) ↔
        r = ([], n) := by
      simp only [pure, Except.pure, Except.ok.injEq, Option.some.injEq]
      exact eq_comm
    simp [hpure]
  | cons e cs =>
    rw [if_neg (by simp), ← hcs]
    have hne : n.children ≠ [] := by simp [hcs]
    cases hget : OrdMap.get? s n.children with
    | none => simp [hne, hloop]
    | some child =>
      cases hchild : reach rest child with
      | error e => simp [bind, Except.bind, hchild, hne]
      | ok o =>
        cases o with
        | none => simp [bind, Except.bind, hchild, hne, hloop]
        | some r' =>
          have hpure : (pure (some (r'.under s)) : Except StdException (Option (Hit H)))
              = .ok (some r) ↔ r = r'.under s := by
            simp only [pure, Except.pure, Except.ok.injEq, Option.some.injEq]
            exact eq_comm
          simp [bind, Except.bind, hchild, hne, hpure, -Prod.exists]

/-- **A search that ends without a node** found nothing through the child named
as the segment, and nothing through the first candidate. -/
theorem reach_cons_eq_none_iff :
    reach (s :: rest) n = .ok none ↔
      n.children ≠ [] ∧
      (∀ child, OrdMap.get? s n.children = some child → reach rest child = .ok none) ∧
      (∀ k child, n.children.find? (candidate s) = some (k, child) →
        isWildcard k = false ∧ (paramPiece k).asString.isOk ∧ reach rest child = .ok none) := by
  -- only a parameter child can fail to give a node: a wildcard ends the search
  have hloop : reachParam s n.children (reach rest) = .ok none ↔
      ∀ k child, n.children.find? (candidate s) = some (k, child) →
        isWildcard k = false ∧ (paramPiece k).asString.isOk ∧ reach rest child = .ok none := by
    rw [reachParam_ok]
    cases n.children.find? (candidate s) with
    | none => simp
    | some e =>
      obtain ⟨k, child⟩ := e
      cases hw : isWildcard k with
      | true => simp [hw]
      | false =>
        simp only [hw, Bool.false_eq_true, if_false, Option.some.injEq, Prod.mk.injEq]
        constructor
        · rintro ⟨hok, o', ho', hr⟩ k' child' ⟨rfl, rfl⟩
          cases o' with
          | none => exact ⟨hw, hok, ho'⟩
          | some r' => simp at hr
        · intro h
          obtain ⟨-, hok, ho'⟩ := h k child ⟨rfl, rfl⟩
          exact ⟨hok, none, ho', rfl⟩
  rw [reach]
  cases hcs : n.children with
  | nil => simp [pure, Except.pure]
  | cons e cs =>
    rw [if_neg (by simp), ← hcs]
    have hne : n.children ≠ [] := by simp [hcs]
    cases hget : OrdMap.get? s n.children with
    | none => simp [hne, hloop]
    | some child =>
      cases hchild : reach rest child with
      | error e => simp [bind, Except.bind, hchild]
      | ok o =>
        cases o with
        | none => simp [bind, Except.bind, hchild, hne, hloop]
        | some r' => simp [bind, Except.bind, pure, Except.pure, hchild]

end Step

/-- The search ends without a node and without an exception: no choice that it
makes leads to a node. -/
def GivesUp : List Bytes → RouteTableNode H → Prop
  | [], n =>
    n.val.verbHandlerMap = [] ∧ n.children ≠ [] ∧ OrdMap.get? [star] n.children = none
  | s :: rest, n =>
    n.children ≠ [] ∧
    (∀ child ∈ OrdMap.get? s n.children, GivesUp rest child) ∧
    (∀ e ∈ n.children.find? (candidate s),
      isWildcard e.1 = false ∧ (paramPiece e.1).asString.isOk ∧ GivesUp rest e.2)

instance GivesUp.decidable :
    ∀ (segs : List Bytes) (n : RouteTableNode H), Decidable (GivesUp segs n)
  | [], n =>
    decidable_of_iff (n.val.verbHandlerMap.isEmpty ∧ ¬ n.children.isEmpty ∧
      (OrdMap.get? [star] n.children).isNone) (by simp [GivesUp])
  | s :: rest, n =>
    have : ∀ child, Decidable (GivesUp rest child) := GivesUp.decidable rest
    decidable_of_iff (¬ n.children.isEmpty ∧
      (∀ child ∈ OrdMap.get? s n.children, GivesUp rest child) ∧
      (∀ e ∈ n.children.find? (candidate s),
        isWildcard e.1 = false ∧ (paramPiece e.1).asString.isOk ∧ GivesUp rest e.2))
      (by simp [GivesUp])

theorem reach_eq_none_iff (segs : List Bytes) (n : RouteTableNode H) :
    reach segs n = .ok none ↔ GivesUp segs n := by
  induction segs generalizing n with
  | nil =>
    rw [reach, GivesUp]
    by_cases hmap : n.val.verbHandlerMap = [] <;> by_cases hleaf : n.children = [] <;>
      simp [hmap, hleaf, pure, Except.pure]
  | cons s rest ih =>
    rw [reach_cons_eq_none_iff, GivesUp]
    simp only [ih, Option.mem_def, Prod.forall]

/-- The search leads along the keys: at every node the child that is named as the
segment comes first, and only if it gives up the first parameter or wildcard that
takes the segment. -/
def Leads : List Bytes → NodePtr → RouteTableNode H → Prop
  | [], keys, n =>
    if n.val.verbHandlerMap ≠ [] ∨ n.children = [] then keys = []
    else keys = [[star]] ∧ (OrdMap.get? [star] n.children).isSome
  | _ :: _, [], n => n.children = []
  | s :: rest, k :: keys, n =>
    (∃ child, OrdMap.get? s n.children = some child ∧ k = s ∧ Leads rest keys child) ∨
    ((∀ child, OrdMap.get? s n.children = some child → GivesUp rest child) ∧
      ∃ child, n.children.find? (candidate s) = some (k, child) ∧
        ((isWildcard k = true ∧ keys = []) ∨
          (isWildcard k = false ∧ (paramPiece k).asString.isOk ∧ Leads rest keys child)))

theorem leads_iff (segs : List Bytes) (keys : NodePtr) (n : RouteTableNode H) :
    Leads segs keys n ↔ ∃ m, reach segs n = .ok (some (keys, m)) := by
  induction segs generalizing keys n with
  | nil =>
    rw [Leads, reach]
    -- the path is over: the node itself, or its child `*`
    by_cases hstop : n.val.verbHandlerMap ≠ [] ∨ n.children = []
    · rw [if_pos hstop, if_pos (by simpa using hstop)]
      constructor
      · rintro rfl
        exact ⟨n, rfl⟩
      · rintro ⟨m, hm⟩
        cases hm
        rfl
    · rw [if_neg hstop, if_neg (by simpa using hstop)]
      cases OrdMap.get? [star] n.children with
      | none => simp [pure, Except.pure]
      | some child => simp [pure, Except.pure, eq_comm]
  | cons s rest ih =>
    simp only [reach_cons_eq_some_iff, reach_eq_none_iff]
    cases keys with
    | nil =>
      rw [Leads]
      constructor
      · exact fun h => ⟨n, Or.inl ⟨h, rfl⟩⟩
      · rintro ⟨m, ⟨h, -⟩ | ⟨child, r, -, -, hr⟩ | ⟨-, k, child, -, h⟩⟩
        · exact h
        · cases hr
        · rcases h with ⟨-, hr⟩ | ⟨-, -, r, -, hr⟩ <;> cases hr
    | cons k keys =>
      rw [Leads]
      constructor
      · rintro (⟨child, hget, rfl, hlead⟩ | ⟨hgive, child, hfind, h⟩)
        · obtain ⟨m, hm⟩ := (ih keys child).mp hlead
          exact ⟨m, Or.inr (Or.inl ⟨child, (keys, m), hget, hm, rfl⟩)⟩
        · rcases h with ⟨hw, rfl⟩ | ⟨hw, hok, hlead⟩
          · exact ⟨child, Or.inr (Or.inr ⟨hgive, k, child, hfind, Or.inl ⟨hw, rfl⟩⟩)⟩
          · obtain ⟨m, hm⟩ := (ih keys child).mp hlead
            exact ⟨m, Or.inr (Or.inr ⟨hgive, k, child, hfind,
              Or.inr ⟨hw, hok, (keys, m), hm, rfl⟩⟩)⟩
      · rintro ⟨m, ⟨-, hr⟩ | ⟨child, r, hget, hm, hr⟩ | ⟨hgive, k', child, hfind, h⟩⟩
        · cases hr
        · cases hr
          exact Or.inl ⟨child, hget, rfl, (ih _ child).mpr ⟨_, hm⟩⟩
        · rcases h with ⟨hw, hr⟩ | ⟨hw, hok, r, hm, hr⟩
          · cases hr
            exact Or.inr ⟨hgive, _, hfind, Or.inl ⟨hw, rfl⟩⟩
          · cases hr
            exact Or.inr ⟨hgive, _, hfind, Or.inr ⟨hw, hok, (ih _ child).mpr ⟨_, hm⟩⟩⟩

instance (segs : List Bytes) (keys : NodePtr) (n : RouteTableNode H) :
    Decidable (Leads segs keys n) :=
  decidable_of_iff ((reach segs n).map (Option.map Prod.fst) = .ok (some keys)) <| by
    rw [leads_iff]
    cases reach segs n with
    | error e => simp [Except.map]
    | ok o => cases o <;> simp [Except.map, Prod.ext_iff]

/-- The address that comes with a hit leads to its node. -/
theorem sub?_of_reach {segs : List Bytes} {n : RouteTableNode H} {r : Hit H} (hwf : Trie.WF n)
    (h : reach segs n = .ok (some r)) : Trie.sub? r.1 n = some r.2 := by
  induction segs generalizing n r with
  | nil =>
    rw [reach] at h
    split at h
    · simp only [pure, Except.pure, Except.ok.injEq, Option.some.injEq] at h
      rw [← h]
      rfl
    · cases hget : OrdMap.get? [star] n.children with
      | none => simp [hget, pure, Except.pure] at h
      | some child =>
        simp only [hget, pure, Except.pure, Option.map_some, Except.ok.injEq,
          Option.some.injEq] at h
        rw [← h, Trie.sub?_singleton, hget]
  | cons s rest ih =>
    have hunder : ∀ {k child r'}, OrdMap.get? k n.children = some child →
        -- the two ways down are the same step, under the key of the child
        reach rest child = .ok (some r') → Trie.sub? (Hit.under k r').1 n = some r'.2 := by
      intro k child r' hget hr'
      have hmem := hwf.sorted.get?_eq_some_iff.mp hget
      rw [Hit.under, Trie.sub?_cons, hget, Option.bind_some]
      exact ih (hwf.child hmem) hr'
    rcases reach_cons_eq_some_iff.mp h with ⟨-, rfl⟩ | ⟨child, r', hget, hr', rfl⟩ |
      ⟨-, k, child, hfind, hcase⟩
    · rfl
    · exact hunder hget hr'
    · have hget : OrdMap.get? k n.children = some child :=
        hwf.sorted.get?_eq_some_iff.mpr (List.mem_of_find?_eq_some hfind)
      rcases hcase with ⟨-, rfl⟩ | ⟨-, -, r', hr', rfl⟩
      · rw [Trie.sub?_singleton, hget]
      · exact hunder hget hr'

/-- An address has at most one key for each segment, unless a `*` ends it. -/
theorem length_of_reach {segs : List Bytes} {n : RouteTableNode H} {r : Hit H}
    (h : reach segs n = .ok (some r)) :
    r.1.length ≤ segs.length ∨ ∃ p, r.1 = p ++ [[star]] := by
  induction segs generalizing n r with
  | nil =>
    rw [reach] at h
    split at h
    · simp only [pure, Except.pure, Except.ok.injEq, Option.some.injEq] at h
      exact Or.inl (by rw [← h])
    · cases hget : OrdMap.get? [star] n.children with
      | none => simp [hget, pure, Except.pure] at h
      | some child =>
        simp only [hget, pure, Except.pure, Option.map_some, Except.ok.injEq,
          Option.some.injEq] at h
        exact Or.inr ⟨[], by rw [← h]; rfl⟩
  | cons s rest ih =>
    have hunder : ∀ {k r'} {child : RouteTableNode H}, reach rest child = .ok (some r') →
        -- a step down adds a key for the segment that it takes
        (Hit.under k r').1.length ≤ (s :: rest).length ∨
          ∃ p, (Hit.under k r').1 = p ++ [[star]] := by
      intro k r' child hr'
      rcases ih hr' with h | ⟨p, hp⟩
      · exact Or.inl (Nat.succ_le_succ h)
      · exact Or.inr ⟨k :: p, by rw [Hit.under, hp]; rfl⟩
    rcases reach_cons_eq_some_iff.mp h with ⟨-, rfl⟩ | ⟨child, r', -, hr', rfl⟩ |
      ⟨-, k, child, -, hcase⟩
    · exact Or.inl (Nat.zero_le _)
    · exact hunder hr'
    · rcases hcase with ⟨-, rfl⟩ | ⟨-, -, r', hr', rfl⟩
      · exact Or.inl (by simp)
      · exact hunder hr'

end RouteTableNode

/-! ### The lookup in a router's table -/

namespace Router

open RouteTableNode

/-- The address that the lookup of a path finds. -/
def findPtr (ops : List (RouterOp H)) (path : Bytes) : Except StdException (Option NodePtr) :=
  if path = [slash] ∧ Trie.Has [[slash]] (tree ops) then .ok (some [[slash]])
  else (reach (reqSegs path) (tree ops)).map (Option.map Prod.fst)

/-- The lookup finds a node other than that of `/` iff the search leads there. -/
theorem findPtr_iff {ops : List (RouterOp H)} {keys : NodePtr} (hne : keys ≠ [[slash]])
    (path : Bytes) : findPtr ops path = .ok (some keys) ↔
      ¬ (path = [slash] ∧ Trie.Has [[slash]] (tree ops)) ∧
        Leads (reqSegs path) keys (tree ops) := by
  rw [leads_iff, findPtr]
  by_cases hroot : path = [slash] ∧ Trie.Has [[slash]] (tree ops)
  · rw [if_pos hroot]
    refine iff_of_false (fun h => hne ?_) fun h => h.1 hroot
    exact (Option.some.inj (Except.ok.inj h)).symm
  · rw [if_neg hroot, and_iff_right hroot]
    cases hreach : reach (reqSegs path) (tree ops) with
    | error e => simp [Except.map]
    | ok o =>
      cases o with
      | none => simp [Except.map]
      | some r =>
        obtain ⟨q, m⟩ := r
        simp [Except.map]

private theorem hit_find (ops : List (RouterOp H)) {p : StringPiece} (hp : p.Valid)
    (ctx : RouteCtx) :
    ((ofOps ops).routesMap.find p ctx).map (fun r => r.1.hit) =
      if p.view = [slash] ∧ Trie.Has [[slash]] (tree ops) then
        .ok (some ([[slash]], Trie.valAt [[slash]] (tree ops)))
      else (reach (reqSegs p.view) (tree ops)).map (Option.map fun r => (r.1, r.2.val)) := by
  change ((find (tree ops) [] p 0 ctx).map fun r => r.1.hit) = _
  by_cases hroot : p.view = [slash] ∧ Trie.Has [[slash]] (tree ops)
  · obtain ⟨hview, hhas⟩ := hroot
    obtain ⟨n, hn⟩ := Option.isSome_iff_exists.mp hhas
    have hget : OrdMap.get? [slash] (tree ops).children = some n := by
      rw [← Trie.sub?_singleton, hn]
    rw [if_pos ⟨hview, hhas⟩, find_root hp hview hget (leaf_of_root_child hn),
      Trie.valAt_of_sub? hn]
    rfl
  · have hnone : (0 : Nat) = 0 → p.view = [slash] →
        OrdMap.get? [slash] (tree ops).children = none := by
      intro _ hview
      -- the special case of `find` for `/` does not apply
      rw [← Trie.sub?_singleton, ← Option.not_isSome_iff_eq_none]
      exact fun hhas => hroot ⟨hview, hhas⟩
    rw [if_neg hroot, find_eq_search hp (tree ops) [] 0 (Nat.zero_le _) hnone,
      hit_search, map_seg_cuts hp, List.drop_zero]
    congr 2

/-- **The address of a lookup** depends on the text of the path and on the tree. -/
theorem ptr_find (ops : List (RouterOp H)) {p : StringPiece} (hp : p.Valid) (ctx : RouteCtx) :
    ((ofOps ops).routesMap.find p ctx).map (fun r => r.1.ptr) = findPtr ops p.view := by
  have hhit := congrArg (Except.map (Option.map Prod.fst)) (hit_find ops hp ctx)
  have hptr : ((ofOps ops).routesMap.find p ctx).map (fun r => r.1.ptr) =
      (((ofOps ops).routesMap.find p ctx).map (fun r => r.1.hit)).map (Option.map Prod.fst) := by
    cases (ofOps ops).routesMap.find p ctx with
    | error e => rfl
    | ok r => simp [Except.map, Iterator.hit, Function.comp_def]
  rw [hptr, hhit, findPtr]
  split
  · rfl
  · cases reach (reqSegs p.view) (tree ops) with
    | error e => rfl
    | ok r => simp [Except.map, Function.comp_def]

/-- **The value that comes with it** is that of the node. -/
theorem second_find {ops : List (RouterOp H)} {p : StringPiece} (hp : p.Valid) {ctx ctx' : RouteCtx}
    {it : Iterator H} {q : NodePtr} (hfind : (ofOps ops).routesMap.find p ctx = .ok (it, ctx'))
    (hq : it.ptr = some q) : it.second = Trie.valAt q (tree ops) := by
  have hhit := hit_find ops hp ctx
  rw [hfind] at hhit
  have hit : it.hit = some (q, it.second) := by rw [Iterator.hit, hq]; rfl
  change Except.ok it.hit = _ at hhit
  rw [hit] at hhit
  split at hhit
  · simp only [Except.ok.injEq, Option.some.injEq, Prod.mk.injEq] at hhit
    rw [hhit.1, hhit.2]
  · cases hr : reach (reqSegs p.view) (tree ops) with
    | error e => rw [hr] at hhit; simp [Except.map] at hhit
    | ok o =>
      rw [hr] at hhit
      cases o with
      | none => simp [Except.map] at hhit
      | some r =>
        simp only [Except.map, Option.map_some, Except.ok.injEq, Option.some.injEq,
          Prod.mk.injEq] at hhit
        have hsub := sub?_of_reach (wf_tree ops) hr
        rw [hhit.1, hhit.2, Trie.valAt_of_sub? hsub]

end Router

end Wfrest
