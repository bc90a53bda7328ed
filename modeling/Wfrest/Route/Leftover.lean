import Wfrest.Route.Precedence
import Wfrest.Route.Trail

/-!
# Which bindings survive a lookup

`find` writes a binding when it goes to a parameter child, and takes none back in a branch that
it gives up. So the map holds the last binding of each name, and `survivors` are those of them
that an abandoned branch has made.

Here they are said of the registered keys, without a search: the lookup comes to the parameters
that it binds in a fixed order (`Before`), and a `Leftover` is the last binding of its name, at
a node that is not on the way to the selected one (`mem_survivors_trail`).
-/

namespace Wfrest

variable {H : Type}

open RouteTableNode

namespace RouteTableNode

/-! ### Bindings that survive -/

/-- The step was taken in a branch that is given up. -/
def Mark.isDropped : Mark → Bool
  | dropped _ _ => true
  | _ => false

/-- The bindings of the steps chosen by `p` that no later step overwrites. -/
def lastBindings (p : Mark → Bool) : List Mark → List (Bytes × Bytes)
  | [] => []
  | m :: ms =>
    match m.binding? with
    | none => lastBindings p ms
    | some b =>
      if p m ∧ b.1 ∉ (bindingsOf ms).map Prod.fst then b :: lastBindings p ms
      else lastBindings p ms

/-- The bindings of abandoned branches that no later step overwrites. -/
def survivors (ms : List Mark) : List (Bytes × Bytes) := lastBindings Mark.isDropped ms

theorem mem_lastBindings_cons {p : Mark → Bool} {m : Mark} {ms : List Mark} {b : Bytes × Bytes} :
    b ∈ lastBindings p (m :: ms) ↔
      (m.binding? = some b ∧ p m = true ∧ b.1 ∉ (bindingsOf ms).map Prod.fst) ∨
        b ∈ lastBindings p ms := by
  rw [lastBindings]
  cases hm : m.binding? with
  | none => simp
  | some b' =>
    dsimp only
    split
    · next h =>
      rw [List.mem_cons, Option.some.injEq]
      constructor
      · rintro (rfl | hmem)
        · exact Or.inl ⟨rfl, h⟩
        · exact Or.inr hmem
      · rintro (⟨rfl, -⟩ | hmem)
        · exact Or.inl rfl
        · exact Or.inr hmem
    · next h =>
      refine ⟨Or.inr, ?_⟩
      rintro (⟨heq, hp⟩ | hmem)
      · rw [Option.some.inj heq] at h
        exact absurd hp h
      · exact hmem

/-- A binding that survives belongs to an abandoned branch or to a step that is kept. -/
theorem mem_lastBindings_true {ms : List Mark} {b : Bytes × Bytes} :
    b ∈ lastBindings (fun _ => true) ms ↔
      b ∈ survivors ms ∨ b ∈ lastBindings (fun m => !m.isDropped) ms := by
  unfold survivors
  induction ms with
  | nil => simp [lastBindings]
  | cons m ms ih =>
    rw [mem_lastBindings_cons, mem_lastBindings_cons, mem_lastBindings_cons, ih]
    cases m.isDropped <;> simp [or_assoc, or_left_comm]

theorem exists_param_of_mem {ms : List Mark} {b : Bytes × Bytes}
    (h : b ∈ lastBindings (fun m => !m.isDropped) ms) :
    ∃ k s, Mark.param k s ∈ ms ∧ b = (paramName k, s) := by
  induction ms with
  | nil => simp [lastBindings] at h
  | cons m ms ih =>
    rcases mem_lastBindings_cons.mp h with ⟨hb, hp, -⟩ | h
    · cases m with
      | param k s => exact ⟨k, s, List.mem_cons_self, (Option.some.inj hb).symm⟩
      | dropped name seg => simp [Mark.isDropped] at hp
      | _ => simp [Mark.binding?] at hb
    · obtain ⟨k, s, hmem, hb⟩ := ih h
      exact ⟨k, s, List.mem_cons_of_mem m hmem, hb⟩

theorem bindingsOf_cons (m : Mark) (ms : List Mark) :
    bindingsOf (m :: ms) = m.binding?.toList ++ bindingsOf ms := by
  unfold bindingsOf
  cases h : m.binding? with
  | none => rw [List.filterMap_cons_none h]; rfl
  | some b => rw [List.filterMap_cons_some h]; rfl

/-- **`route_params`** after a trail: the bindings that survive. -/
theorem get?_bindAll {ms : List Mark} {ps : List (Bytes × Bytes)} {name seg : Bytes} :
    OrdMap.get? name (bindAll ps (bindingsOf ms)) = some seg ↔
      (name, seg) ∈ lastBindings (fun _ => true) ms ∨
        (name ∉ (bindingsOf ms).map Prod.fst ∧ OrdMap.get? name ps = some seg) := by
  induction ms generalizing ps with
  | nil => simp [lastBindings, bindAll]
  | cons m ms ih =>
    rw [bindingsOf_cons, mem_lastBindings_cons, bindAll_append, ih]
    cases hm : m.binding? with
    | none => simp [bindAll]
    | some b =>
      obtain ⟨name', seg'⟩ := b
      have hset : bindAll ps (some (name', seg')).toList = OrdMap.set name' seg' ps := rfl
      rw [hset, OrdMap.get?_set]
      by_cases hn : name = name'
      -- the first mark sets this name, and a later one may set it again
      · subst hn
        simp only [if_pos, Option.some.injEq, Prod.mk.injEq, true_and, Option.toList_some,
          List.singleton_append, List.map_cons, List.mem_cons, true_or, not_true_eq_false,
          false_and, or_false]
        tauto
      · simp only [hn, if_false, Option.some.injEq, Prod.mk.injEq, Ne.symm hn, false_and, false_or,
          Option.toList_some, List.singleton_append, List.map_cons, List.mem_cons]

theorem exists_mem_lastBindings {ms : List Mark} {name : Bytes}
    (h : name ∈ (bindingsOf ms).map Prod.fst) :
    ∃ seg, (name, seg) ∈ lastBindings (fun _ => true) ms := by
  induction ms with
  | nil => simp at h
  | cons m ms ih =>
    by_cases hmem : name ∈ (bindingsOf ms).map Prod.fst
    · obtain ⟨seg, hseg⟩ := ih hmem
      exact ⟨seg, mem_lastBindings_cons.mpr (Or.inr hseg)⟩
    · rw [bindingsOf_cons, List.map_append, List.mem_append] at h
      obtain ⟨b, hb, rfl⟩ := List.mem_map.mp (h.resolve_right hmem)
      exact ⟨b.2, mem_lastBindings_cons.mpr (Or.inl ⟨by simpa using hb, rfl, hmem⟩)⟩

/-- Bindings of an abandoned branch, and what comes behind it. -/
theorem mem_survivors_append {bs : List (Bytes × Bytes)} {ms : List Mark} {b : Bytes × Bytes} :
    b ∈ survivors (bs.map (fun b => Mark.dropped b.1 b.2) ++ ms) ↔
      b ∈ survivors (bs.map fun b => Mark.dropped b.1 b.2) ∧
          b.1 ∉ (bindingsOf ms).map Prod.fst ∨ b ∈ survivors ms := by
  unfold survivors
  induction bs with
  | nil => simp [lastBindings]
  | cons b' bs ih =>
    have hbind : ∀ ms, bindingsOf (bs.map (fun b => Mark.dropped b.1 b.2) ++ ms)
        = bs ++ bindingsOf ms := fun ms => (of_dropped bs ms []).2.1
    have hnil : bindingsOf (bs.map fun b => Mark.dropped b.1 b.2) = bs := by
      simpa using hbind []
    rw [List.map_cons, List.cons_append, mem_lastBindings_cons, mem_lastBindings_cons, ih, hbind,
      hnil, List.map_append, List.mem_append, not_or]
    tauto

/-- What the branch behind the segment itself leaves when it is given up. -/
def exactGiven (s : Bytes) (rest : List Bytes) (n : RouteTableNode H) : List (Bytes × Bytes) :=
  match OrdMap.get? s n.children with
  | some child => givenUp rest child
  | none => []

end RouteTableNode

namespace Routes

/-! ### The order of the bindings -/

/-- The lookup comes to `v` before it comes to `v'`: on the way there, or in a branch that it
tries first. -/
def Before (segs : List Bytes) (v v' : NodePtr) : Prop :=
  (v <+: v' ∧ v ≠ v') ∨ Sooner segs v v'

/-- The lookup binds the name. -/
def Names (S : Routes) (segs : List Bytes) (name : Bytes) : Prop :=
  ∃ u k s, S.Binds segs u k s ∧ paramName k = name

/-- The lookup binds the parameter `k` behind `u`, and its name at no later node. -/
structure LastBinds (S : Routes) (segs : List Bytes) (u : NodePtr) (k s : Bytes) : Prop where
  binds : S.Binds segs u k s
  last : ∀ u' k' s', S.Binds segs u' k' s' → paramName k' = paramName k →
    ¬ Before segs (u ++ [k]) (u' ++ [k'])

/-- The last binding of a name, made at a node for which `P` holds. -/
def LastAt (S : Routes) (segs : List Bytes) (P : NodePtr → Prop) (b : Bytes × Bytes) : Prop :=
  ∃ u k, b.1 = paramName k ∧ S.LastBinds segs u k b.2 ∧ P (u ++ [k])

/-- The last binding of a name, made at a node that is not on the way to `q`. -/
def Leftover (S : Routes) (segs : List Bytes) (q : NodePtr) : Bytes × Bytes → Prop :=
  S.LastAt segs fun v => ¬ v <+: q

/-- A segment that is spelled like a wildcard key of `q` is taken by it all the same: the key is
the last one, and the route that goes on behind it does not match what is left. -/
def Captures (S : Routes) (segs : List Bytes) (q : NodePtr) : Prop :=
  ∀ u k t, q = u ++ k :: t → segs[u.length]? = some k → isWildcard k = true →
    t = [] ∧ u.length + 1 < segs.length ∧ ¬ S.Leaf q

/-- The lookup goes on to the first key that takes the segment, a parameter. -/
structure Tries (S : Routes) (s : Bytes) (segs : List Bytes) (k : Bytes) : Prop where
  first : S.First [] s k
  param : isWildcard k = false
  unreached : ∀ q, ¬ (S.child s).Reaches segs q

section Cons

variable {S : Routes} {segs : List Bytes} {u v v' : NodePtr} {i j k s s' name : Bytes}

theorem Tries.unique (h : S.Tries s segs j) (h' : S.Tries s segs k) : j = k :=
  h.first.unique h'.first

theorem Tries.forall_iff (h : S.Tries s segs k) {P : Bytes → Prop} :
    (∀ i, S.Tries s segs i → P i) ↔ P k :=
  ⟨fun hall => hall k h, fun hk _ hi => h.unique hi ▸ hk⟩

theorem Tries.exists_iff (h : S.Tries s segs k) {P : Bytes → Prop} :
    (∃ i, S.Tries s segs i ∧ P i) ↔ P k :=
  ⟨fun ⟨_, hi, hp⟩ => hi.unique h ▸ hp, fun hk => ⟨k, h, hk⟩⟩

theorem binds_root_iff : S.Binds (s :: segs) [] k s' ↔ s = s' ∧ S.Tries s segs k := by
  rw [binds_root]
  refine and_congr_right fun _ => ⟨fun ⟨hp, hfirst, hno⟩ => ?_, fun h => ?_⟩
  · exact ⟨hfirst, isWildcard_of_isParam hp, hno⟩
  · exact ⟨h.first.isParam h.param, h.first, h.unreached⟩

theorem binds_cons_iff : S.Binds (s :: segs) (j :: u) k s' ↔
    (j = s ∨ S.Tries s segs j) ∧ (S.child j).Binds segs u k s' := by
  rw [binds_cons]
  refine and_congr_left' (or_congr_right ⟨fun ⟨hfirst, hw, hno⟩ => ?_, fun h => ?_⟩)
  · exact ⟨hfirst, hw, hno⟩
  · exact ⟨h.first, h.param, h.unreached⟩

theorem before_nil : Before segs [] v ↔ v ≠ [] := by
  constructor
  · rintro (⟨-, hne⟩ | hsooner)
    · exact hne.symm
    · exact absurd hsooner not_sooner_of_nil
  · exact fun hne => Or.inl ⟨List.nil_prefix, hne.symm⟩

theorem not_before_nil : ¬ Before segs v [] := by
  rintro (⟨hpre, hne⟩ | hsooner)
  · exact hne (List.prefix_nil.mp hpre)
  · exact not_sooner_nil hsooner

theorem before_cons : Before (s :: segs) (j :: v) (k :: v') ↔
    j = k ∧ Before segs v v' ∨ j = s ∧ k ≠ s := by
  unfold Before
  rw [sooner_cons, List.cons_prefix_cons, Ne, List.cons.injEq]
  tauto

/-- **The names** that are bound behind the first segment. -/
theorem names_cons : S.Names (s :: segs) name ↔
    (S.child s).Names segs name ∨
      ∃ k, S.Tries s segs k ∧ (paramName k = name ∨ (S.child k).Names segs name) := by
  constructor
  · rintro ⟨u, k, s', h, hname⟩
    obtain _ | ⟨j, u⟩ := u
    · exact Or.inr ⟨k, (binds_root_iff.mp h).2, Or.inl hname⟩
    · obtain ⟨rfl | htry, hchild⟩ := binds_cons_iff.mp h
      · exact Or.inl ⟨u, k, s', hchild, hname⟩
      · exact Or.inr ⟨j, htry, Or.inr ⟨u, k, s', hchild, hname⟩⟩
  · rintro (⟨u, k, s', h, hname⟩ | ⟨j, htry, hname | ⟨u, k, s', h, hname⟩⟩)
    · exact ⟨s :: u, k, s', binds_cons_iff.mpr ⟨Or.inl rfl, h⟩, hname⟩
    · exact ⟨[], j, s, binds_root_iff.mpr ⟨rfl, htry⟩, hname⟩
    · exact ⟨j :: u, k, s', binds_cons_iff.mpr ⟨Or.inr htry, h⟩, hname⟩

/-- A parameter of the root has the last word if nothing behind it has its name. -/
theorem lastBinds_root : S.LastBinds (s :: segs) [] k s' ↔
    s = s' ∧ S.Tries s segs k ∧ ¬ (S.child k).Names segs (paramName k) := by
  constructor
  · rintro ⟨hbinds, hlast⟩
    obtain ⟨rfl, htry⟩ := binds_root_iff.mp hbinds
    refine ⟨rfl, htry, fun ⟨u, j, s', h, hname⟩ => ?_⟩
    refine hlast (k :: u) j s' (binds_cons_iff.mpr ⟨Or.inr htry, h⟩) hname ?_
    exact before_cons.mpr (Or.inl ⟨rfl, before_nil.mpr (by simp)⟩)
  · rintro ⟨rfl, htry, hno⟩
    refine ⟨binds_root_iff.mpr ⟨rfl, htry⟩, fun u j s' h hname hbefore => ?_⟩
    obtain _ | ⟨i, u⟩ := u
    · obtain rfl := (binds_root_iff.mp h).2.unique htry
      rcases before_cons.mp hbefore with ⟨-, hnil⟩ | ⟨hj, hne⟩
      · exact not_before_nil hnil
      · exact hne hj
    · obtain ⟨hi, h⟩ := binds_cons_iff.mp h
      rcases before_cons.mp hbefore with ⟨rfl, -⟩ | ⟨hk, hne⟩
      · exact hno ⟨u, j, s', h, hname⟩
      · -- the segment is spelled like the parameter, and no other key is tried
        exact hne ((hi.resolve_left hne).unique htry |>.trans hk)

/-- A parameter behind `j` has the last word there, and no key that is tried after `j` has its
name or binds it. -/
theorem lastBinds_cons : S.LastBinds (s :: segs) (j :: u) k s' ↔
    (S.child j).LastBinds segs u k s' ∧ (S.Tries s segs j ∨ j = s ∧ ∀ i, S.Tries s segs i →
      paramName i ≠ paramName k ∧ ¬ (S.child i).Names segs (paramName k)) := by
  constructor
  · rintro ⟨hbinds, hlast⟩
    obtain ⟨hj, hbinds⟩ := binds_cons_iff.mp hbinds
    refine ⟨⟨hbinds, fun u' k' s'' h hname hbefore => ?_⟩, ?_⟩
    · exact hlast (j :: u') k' s'' (binds_cons_iff.mpr ⟨hj, h⟩) hname
        (before_cons.mpr (Or.inl ⟨rfl, hbefore⟩))
    by_cases htry : S.Tries s segs j
    · exact Or.inl htry
    obtain rfl := hj.resolve_right htry
    refine Or.inr ⟨rfl, fun i hi => ?_⟩
    have hne : i ≠ j := fun h => htry (h ▸ hi)
    refine ⟨fun hname => ?_, fun ⟨u', k', s'', h, hname⟩ => ?_⟩
    · exact hlast [] i j (binds_root_iff.mpr ⟨rfl, hi⟩) hname
        (before_cons.mpr (Or.inr ⟨rfl, hne⟩))
    · exact hlast (i :: u') k' s'' (binds_cons_iff.mpr ⟨Or.inr hi, h⟩) hname
        (before_cons.mpr (Or.inr ⟨rfl, hne⟩))
  · rintro ⟨⟨hbinds, hlast⟩, hj⟩
    refine ⟨binds_cons_iff.mpr ⟨hj.symm.imp_left And.left, hbinds⟩, fun u' k' s'' h hname hb => ?_⟩
    obtain _ | ⟨i, u'⟩ := u'
    · have htry := (binds_root_iff.mp h).2
      rcases before_cons.mp hb with ⟨rfl, hnil⟩ | ⟨rfl, hne⟩
      · exact not_before_nil hnil
      · rcases hj with hj | ⟨-, hj⟩
        · exact hne (htry.unique hj)
        · exact (hj k' htry).1 hname
    · obtain ⟨hi, hchild⟩ := binds_cons_iff.mp h
      rcases before_cons.mp hb with ⟨rfl, hbefore⟩ | ⟨rfl, hne⟩
      · exact hlast u' k' s'' hchild hname hbefore
      · have htry := hi.resolve_left hne
        rcases hj with hj | ⟨-, hj⟩
        · exact hne (htry.unique hj)
        · exact (hj i htry).2 ⟨u', k', s'', hchild, hname⟩

theorem not_lastAt_nil {P : NodePtr → Prop} {b : Bytes × Bytes} : ¬ S.LastAt [] P b :=
  fun ⟨_, _, _, h, _⟩ => not_binds_nil h.binds

/-- **The last bindings** behind the first segment: those that the branch behind the segment
itself makes and nothing overwrites, then those behind the key that is tried. -/
theorem lastAt_cons {P : NodePtr → Prop} {b : Bytes × Bytes} : S.LastAt (s :: segs) P b ↔
    ((S.child s).LastAt segs (fun v => P (s :: v)) b ∧
      ∀ i, S.Tries s segs i → paramName i ≠ b.1 ∧ ¬ (S.child i).Names segs b.1) ∨
    ∃ k, S.Tries s segs k ∧ ((b = (paramName k, s) ∧ ¬ (S.child k).Names segs b.1 ∧ P [k]) ∨
      (S.child k).LastAt segs (fun v => P (k :: v)) b) := by
  constructor
  · rintro ⟨u, k, hname, h, hp⟩
    obtain _ | ⟨j, u⟩ := u
    · obtain ⟨rfl, htry, hno⟩ := lastBinds_root.mp h
      exact Or.inr ⟨k, htry, Or.inl ⟨Prod.ext hname rfl, hname ▸ hno, hp⟩⟩
    · obtain ⟨hchild, htry | ⟨rfl, hlater⟩⟩ := lastBinds_cons.mp h
      · exact Or.inr ⟨j, htry, Or.inr ⟨u, k, hname, hchild, hp⟩⟩
      · exact Or.inl ⟨⟨u, k, hname, hchild, hp⟩, hname ▸ hlater⟩
  · rintro (⟨⟨u, k, hname, h, hp⟩, hlater⟩ | ⟨k, htry, ⟨rfl, hno, hp⟩ | ⟨u, j, hname, h, hp⟩⟩)
    · exact ⟨s :: u, k, hname, lastBinds_cons.mpr ⟨h, Or.inr ⟨rfl, hname ▸ hlater⟩⟩, hp⟩
    · exact ⟨[], k, rfl, lastBinds_root.mpr ⟨rfl, htry, hno⟩, hp⟩
    · exact ⟨k :: u, j, hname, lastBinds_cons.mpr ⟨h, Or.inl htry⟩, hp⟩

theorem captures_cons : S.Captures (s :: segs) (k :: v) ↔
    (k = s → isWildcard k = true → v = [] ∧ 0 < segs.length ∧ ¬ S.Leaf (k :: v)) ∧
      (S.child k).Captures segs v := by
  constructor
  · intro h
    refine ⟨fun hk hw => ?_, fun u j t hv hs hw => ?_⟩
    · obtain ⟨hnil, hlen, hleaf⟩ := h [] k v rfl (by rw [hk]; rfl) hw
      exact ⟨hnil, Nat.succ_lt_succ_iff.mp hlen, hleaf⟩
    · obtain ⟨hnil, hlen, hleaf⟩ := h (k :: u) j t (by rw [hv]; rfl) hs hw
      exact ⟨hnil, Nat.succ_lt_succ_iff.mp hlen, hleaf⟩
  · rintro ⟨hhead, htail⟩ u j t hv hs hw
    obtain _ | ⟨i, u⟩ := u
    · obtain ⟨rfl, rfl⟩ := List.cons.inj hv
      obtain ⟨hnil, hlen, hleaf⟩ := hhead (Option.some.inj hs).symm hw
      exact ⟨hnil, Nat.succ_lt_succ hlen, hleaf⟩
    · obtain ⟨rfl, rfl⟩ := List.cons.inj hv
      obtain ⟨hnil, hlen, hleaf⟩ := htail u j t rfl hs hw
      exact ⟨hnil, Nat.succ_lt_succ hlen, hleaf⟩

theorem lastAt_congr {P Q : NodePtr → Prop} {b : Bytes × Bytes} (h : ∀ v, v ≠ [] → (P v ↔ Q v)) :
    S.LastAt segs P b ↔ S.LastAt segs Q b :=
  exists₂_congr fun u k => and_congr_right fun _ => and_congr_right fun _ =>
    h (u ++ [k]) (List.append_ne_nil_of_right_ne_nil u (by simp))

end Cons

/-! ### The bindings of a search -/

section Tree

variable {n c : RouteTableNode H} {k s name : Bytes} {rest segs : List Bytes} {q : NodePtr}
  {b : Bytes × Bytes}

/-- The key that a search tries when nothing lies behind the segment itself. -/
theorem tries_ofTree (hwf : Trie.WF n) (hgive : ∀ c ∈ OrdMap.get? s n.children, GivesUp rest c) :
    (ofTree n).Tries s rest k ↔
      ∃ c, n.children.find? (candidate s) = some (k, c) ∧ isWildcard k = false := by
  have hmiss : ((ofTree n).child s).Misses rest := by
    cases hget : OrdMap.get? s n.children with
    | none => exact misses_of_get?_eq_none hget
    | some c =>
      rw [child_ofTree hget]
      exact (givesUp_iff (hwf.child (OrdMap.mem_of_get? hget))).mp (hgive c hget)
  rw [exists_and_right, ← first_ofTree hwf]
  exact ⟨fun h => ⟨h.first, h.param⟩, fun h => ⟨h.1, h.2, hmiss.unreached⟩⟩

theorem child_of_find? (hwf : Trie.WF n) (hfind : n.children.find? (candidate s) = some (k, c)) :
    (ofTree n).child k = ofTree c :=
  child_ofTree (hwf.sorted.get?_eq_some_iff.mpr (List.mem_of_find?_eq_some hfind))

/-- Where there is no child, nothing is bound. -/
theorem not_names_of_get?_eq_none (hget : OrdMap.get? k n.children = none) :
    ¬ ((ofTree n).child k).Names segs name := by
  rintro ⟨u, j, s', h, -⟩
  have hk := node_ofTree.mp ((ofTree n).of_append (p := [k]) h.first.node)
  rw [hget] at hk
  cases hk

/-- **The names that a search binds** when it gives up. -/
theorem names_givenUp (hwf : Trie.WF n) (h : GivesUp segs n) :
    name ∈ (givenUp segs n).map Prod.fst ↔ (ofTree n).Names segs name := by
  induction segs generalizing n with
  | nil => exact iff_of_false (by simp [givenUp]) fun ⟨u, k, s, h, _⟩ => not_binds_nil h
  | cons s rest ih =>
    obtain ⟨-, hexact, hfirst⟩ := h
    rw [givenUp, names_cons, List.map_append, List.mem_append]
    refine or_congr ?_ ?_
    · cases hget : OrdMap.get? s n.children with
      | none => exact iff_of_false (by simp) (not_names_of_get?_eq_none hget)
      | some c =>
        rw [child_ofTree hget]
        exact ih (hwf.child (OrdMap.mem_of_get? hget)) (hexact c hget)
    · cases hfind : n.children.find? (candidate s) with
      | none =>
        refine iff_of_false (by simp) ?_
        rintro ⟨k, htry, -⟩
        obtain ⟨c, hc, -⟩ := (tries_ofTree hwf hexact).mp htry
        rw [hfind] at hc
        cases hc
      | some e =>
        obtain ⟨k, c⟩ := e
        obtain ⟨hw, -, hgive⟩ := hfirst (k, c) hfind
        rw [List.map_cons, List.mem_cons, ih (hwf.child (List.mem_of_find?_eq_some hfind)) hgive,
          ← child_of_find? hwf hfind, eq_comm]
        exact (((tries_ofTree hwf hexact).mpr ⟨c, hfind, hw⟩).exists_iff
          (P := fun k => paramName k = name ∨ ((ofTree n).child k).Names rest name)).symm

theorem bindingsOf_dropped (bs : List (Bytes × Bytes)) :
    bindingsOf (bs.map fun b => Mark.dropped b.1 b.2) = bs := by
  have h := (of_dropped bs [] []).2.1
  rwa [List.append_nil, bindingsOf_nil, List.append_nil] at h

/-- **What a search leaves behind** when it gives up: of each name the last binding. -/
theorem survivors_givenUp (hwf : Trie.WF n) (h : GivesUp segs n) :
    b ∈ survivors ((givenUp segs n).map fun b => Mark.dropped b.1 b.2) ↔
      (ofTree n).LastAt segs (fun _ => True) b := by
  induction segs generalizing n with
  | nil => exact iff_of_false (by simp [givenUp, survivors, lastBindings]) not_lastAt_nil
  | cons s rest ih =>
    obtain ⟨-, hexact, hfirst⟩ := h
    have hA : b ∈ survivors ((exactGiven s rest n).map fun b => Mark.dropped b.1 b.2) ↔
        ((ofTree n).child s).LastAt rest (fun _ => True) b := by
      unfold exactGiven
      cases hget : OrdMap.get? s n.children with
      | none =>
        refine iff_of_false (by simp [survivors, lastBindings]) ?_
        rintro ⟨u, k, -, hlast, -⟩
        exact not_names_of_get?_eq_none hget ⟨u, k, b.2, hlast.binds, rfl⟩
      | some c =>
        rw [child_ofTree hget]
        exact ih (hwf.child (OrdMap.mem_of_get? hget)) (hexact c hget)
    cases hfind : n.children.find? (candidate s) with
    | none =>
      have htry : ∀ k, ¬ (ofTree n).Tries s rest k := by
        intro k hk
        obtain ⟨c, hc, -⟩ := (tries_ofTree hwf hexact).mp hk
        rw [hfind] at hc
        cases hc
      have hgiven : givenUp (s :: rest) n = exactGiven s rest n := by
        rw [givenUp, hfind]
        exact List.append_nil _
      rw [hgiven, hA, lastAt_cons]
      simp [htry]
    | some e =>
      obtain ⟨k, c⟩ := e
      obtain ⟨hw, -, hgive⟩ := hfirst (k, c) hfind
      have htry := (tries_ofTree hwf hexact).mpr ⟨c, hfind, hw⟩
      have hwf' := hwf.child (List.mem_of_find?_eq_some hfind)
      have hgiven : givenUp (s :: rest) n
          = exactGiven s rest n ++ (paramName k, s) :: givenUp rest c := by
        rw [givenUp, hfind]
        rfl
      rw [hgiven, List.map_append, mem_survivors_append, bindingsOf_dropped, hA, lastAt_cons,
        htry.forall_iff, htry.exists_iff, child_of_find? hwf hfind, survivors, List.map_cons,
        List.map_cons, mem_lastBindings_cons, ← survivors, ih hwf' hgive, bindingsOf_dropped,
        List.mem_cons, names_givenUp hwf' hgive]
      simp only [Mark.binding?, Mark.isDropped, Option.some.injEq, true_and, and_true, not_or]
      rw [eq_comm (a := b), ne_comm]

/-! ### The bindings of a trail -/

/-- The step through the child named as the segment. -/
theorem trail_exact (hget : OrdMap.get? s n.children = some c) (h : Leads rest q c) :
    RouteTableNode.trail (s :: rest) n = .exact s :: RouteTableNode.trail rest c := by
  obtain ⟨m, hm⟩ := (leads_iff rest q c).mp h
  have hgive : ¬ GivesUp rest c := by
    rw [← reach_eq_none_iff, hm]
    simp
  have hne : n.children.isEmpty = false := by
    rw [List.isEmpty_eq_false_iff]
    exact List.ne_nil_of_mem (OrdMap.mem_of_get? hget)
  rw [RouteTableNode.trail, hne, hget]
  simp [hgive]

/-- The step through the first key that takes the segment, behind the branch that is given
up. -/
theorem trail_first (hgive : ∀ c ∈ OrdMap.get? s n.children, GivesUp rest c)
    (hfind : n.children.find? (candidate s) = some (k, c)) :
    RouteTableNode.trail (s :: rest) n =
      (exactGiven s rest n).map (fun b => Mark.dropped b.1 b.2) ++
        if isWildcard k then [.wildcard k s] else .param k s :: RouteTableNode.trail rest c := by
  have hne : n.children.isEmpty = false := by
    rw [List.isEmpty_eq_false_iff]
    exact List.ne_nil_of_mem (List.mem_of_find?_eq_some hfind)
  rw [RouteTableNode.trail, hne, trailParam, hfind, exactGiven]
  cases hget : OrdMap.get? s n.children with
  | none => simp
  | some c' => simp [hgive c' hget]

/-- The steps of a lookup that ends at a node, with its trail. -/
inductive Walks : List Bytes → RouteTableNode H → NodePtr → List Mark → Prop
  | stop {segs : List Bytes} {n : RouteTableNode H} (h : segs = [] ∨ n.children = []) :
      Walks segs n [] []
  | bare {n : RouteTableNode H} : Walks [] n [[star]] [.bare]
  | exact {s : Bytes} {rest : List Bytes} {n c : RouteTableNode H} {q : NodePtr} {ms : List Mark}
      (hget : OrdMap.get? s n.children = some c) (hlead : Leads rest q c)
      (h : Walks rest c q ms) : Walks (s :: rest) n (s :: q) (.exact s :: ms)
  | wildcard {s k : Bytes} {rest : List Bytes} {n c : RouteTableNode H}
      (hgive : ∀ c ∈ OrdMap.get? s n.children, GivesUp rest c)
      (hfind : n.children.find? (candidate s) = some (k, c)) (hw : isWildcard k = true) :
      Walks (s :: rest) n [k]
        ((exactGiven s rest n).map (fun b => Mark.dropped b.1 b.2) ++ [.wildcard k s])
  | param {s k : Bytes} {rest : List Bytes} {n c : RouteTableNode H} {q : NodePtr} {ms : List Mark}
      (hgive : ∀ c ∈ OrdMap.get? s n.children, GivesUp rest c)
      (hfind : n.children.find? (candidate s) = some (k, c)) (hw : isWildcard k = false)
      (hlead : Leads rest q c) (h : Walks rest c q ms) :
      Walks (s :: rest) n (k :: q)
        ((exactGiven s rest n).map (fun b => Mark.dropped b.1 b.2) ++ .param k s :: ms)

/-- **A lookup that leads to a node** walks there along its trail. -/
theorem walks_trail (h : Leads segs q n) : Walks segs n q (RouteTableNode.trail segs n) := by
  induction segs generalizing n q with
  | nil =>
    rw [Leads] at h
    rw [RouteTableNode.trail]
    split at h
    · next hstop =>
      rw [if_pos (by simpa using hstop), h]
      exact .stop (Or.inl rfl)
    · next hstop =>
      rw [if_neg (by simpa using hstop), if_pos h.2, h.1]
      exact .bare
  | cons s rest ih =>
    obtain _ | ⟨k, q⟩ := q
    · rw [Leads] at h
      rw [RouteTableNode.trail, if_pos (by simpa using h)]
      exact .stop (Or.inr h)
    · rcases h with ⟨c, hget, rfl, hlead⟩ | ⟨hgive, c, hfind, ⟨hw, rfl⟩ | ⟨hw, -, hlead⟩⟩
      · rw [trail_exact hget hlead]
        exact .exact hget hlead (ih hlead)
      · rw [trail_first hgive hfind, if_pos hw]
        exact .wildcard hgive hfind hw
      · rw [trail_first hgive hfind, if_neg (by simp [hw])]
        exact .param hgive hfind hw hlead (ih hlead)

/-- Where no route goes on, nothing is bound. -/
theorem not_binds_of_stop {u : NodePtr} {s' : Bytes} (h : segs = [] ∨ n.children = []) :
    ¬ (ofTree n).Binds segs u k s' := by
  intro hbinds
  rcases h with rfl | hnil
  · exact not_binds_nil hbinds
  · obtain _ | ⟨j, u⟩ := u
    · exact leaf_ofTree.mpr hnil k hbinds.first.node
    · exact leaf_ofTree.mpr hnil j ((ofTree n).of_append (p := [j]) hbinds.first.node)

theorem names_exactGiven (hwf : Trie.WF n)
    (hgive : ∀ c ∈ OrdMap.get? s n.children, GivesUp rest c) :
    name ∈ (exactGiven s rest n).map Prod.fst ↔ ((ofTree n).child s).Names rest name := by
  unfold exactGiven
  cases hget : OrdMap.get? s n.children with
  | none => exact iff_of_false (by simp) (not_names_of_get?_eq_none hget)
  | some c =>
    rw [child_ofTree hget]
    exact names_givenUp (hwf.child (OrdMap.mem_of_get? hget)) (hgive c hget)

theorem survivors_exactGiven (hwf : Trie.WF n)
    (hgive : ∀ c ∈ OrdMap.get? s n.children, GivesUp rest c) :
    b ∈ survivors ((exactGiven s rest n).map fun b => Mark.dropped b.1 b.2) ↔
      ((ofTree n).child s).LastAt rest (fun _ => True) b := by
  unfold exactGiven
  cases hget : OrdMap.get? s n.children with
  | none =>
    refine iff_of_false (by simp [survivors, lastBindings]) fun ⟨u, k, _, hlast, _⟩ => ?_
    exact not_names_of_get?_eq_none hget ⟨u, k, b.2, hlast.binds, rfl⟩
  | some c =>
    rw [child_ofTree hget]
    exact survivors_givenUp (hwf.child (OrdMap.mem_of_get? hget)) (hgive c hget)

/-- The key that is gone on to is not the segment, which has been given up. -/
theorem ne_of_first (hwf : Trie.WF n) (hgive : ∀ c ∈ OrdMap.get? s n.children, GivesUp rest c)
    (hfind : n.children.find? (candidate s) = some (k, c)) (hlead : Leads rest q c) : s ≠ k := by
  rintro rfl
  have hnone := (reach_eq_none_iff rest c).mpr
    (hgive c (hwf.sorted.get?_eq_some_iff.mpr (List.mem_of_find?_eq_some hfind)))
  obtain ⟨m, hm⟩ := (leads_iff rest q c).mp hlead
  rw [hnone] at hm
  cases hm

/-- No key is tried where something is found behind the segment itself. -/
theorem not_tries_of_leads (hwf : Trie.WF n) (hget : OrdMap.get? s n.children = some c)
    (hlead : Leads rest q c) : ¬ (ofTree n).Tries s rest k := by
  intro htry
  refine htry.unreached q ?_
  rw [child_ofTree hget]
  exact ((leads_iff_selects (hwf.child (OrdMap.mem_of_get? hget))).mp hlead).reaches

/-- No key is tried where a wildcard is the first one. -/
theorem not_tries_of_wildcard {j : Bytes} (hwf : Trie.WF n)
    (hgive : ∀ c ∈ OrdMap.get? s n.children, GivesUp rest c)
    (hfind : n.children.find? (candidate s) = some (k, c)) (hw : isWildcard k = true) :
    ¬ (ofTree n).Tries s rest j := by
  intro htry
  obtain ⟨d, hd, hj⟩ := (tries_ofTree hwf hgive).mp htry
  rw [hfind, Option.some.injEq, Prod.mk.injEq] at hd
  rw [← hd.1, hw] at hj
  cases hj

/-- **The names that a lookup binds** on its trail. -/
theorem Walks.names {ms : List Mark} (h : Walks segs n q ms) (hwf : Trie.WF n) :
    name ∈ (bindingsOf ms).map Prod.fst ↔ (ofTree n).Names segs name := by
  induction h with
  | stop h =>
    exact iff_of_false (by simp) fun ⟨u, k, s, hbinds, _⟩ => not_binds_of_stop h hbinds
  | bare => exact iff_of_false (by simp) fun ⟨u, k, s, hbinds, _⟩ => not_binds_nil hbinds
  | exact hget hlead h ih =>
    rw [bindingsOf_exact, ih (hwf.child (OrdMap.mem_of_get? hget)), names_cons, child_ofTree hget]
    simp [not_tries_of_leads hwf hget hlead]
  | wildcard hgive hfind hw =>
    rw [(of_dropped _ _ []).2.1, List.map_append, List.mem_append, names_exactGiven hwf hgive,
      names_cons]
    simp [not_tries_of_wildcard hwf hgive hfind hw]
  | @param s k rest n c q ms hgive hfind hw hlead h ih =>
    have htry := (tries_ofTree hwf hgive).mpr ⟨c, hfind, hw⟩
    rw [(of_dropped _ _ []).2.1, List.map_append, List.mem_append, names_exactGiven hwf hgive,
      names_cons, htry.exists_iff (P := fun k => paramName k = name ∨
        ((ofTree n).child k).Names rest name), child_of_find? hwf hfind,
      ← ih (hwf.child (List.mem_of_find?_eq_some hfind)), bindingsOf_param, List.map_cons,
      List.mem_cons, eq_comm (a := name)]

/-- **The bindings that survive a lookup** are the leftovers. -/
theorem Walks.survivors {ms : List Mark} (h : Walks segs n q ms) (hwf : Trie.WF n) :
    b ∈ RouteTableNode.survivors ms ↔ (ofTree n).Leftover segs q b := by
  unfold Leftover
  induction h with
  | stop h =>
    refine iff_of_false (by simp [RouteTableNode.survivors, lastBindings]) ?_
    exact fun ⟨u, k, _, hlast, _⟩ => not_binds_of_stop h hlast.binds
  | bare =>
    exact iff_of_false (by simp [RouteTableNode.survivors, lastBindings, Mark.binding?])
      not_lastAt_nil
  | exact hget hlead h ih =>
    -- no other key is tried, so nothing later overwrites what the child binds
    rw [lastAt_cons, child_ofTree hget]
    simp only [not_tries_of_leads hwf hget hlead, List.cons_prefix_cons, true_and, false_and,
      exists_false, or_false, IsEmpty.forall_iff, implies_true, and_true]
    rw [← ih (hwf.child (OrdMap.mem_of_get? hget))]
    rfl
  | @wildcard s k rest n c hgive hfind hw =>
    -- the node of a binding behind the segment has two keys at least
    have hoff : ∀ v : NodePtr, v ≠ [] → (¬ s :: v <+: [k] ↔ True) := fun v hv =>
      iff_true_intro fun hpre => hv (List.prefix_nil.mp (List.cons_prefix_cons.mp hpre).2)
    rw [mem_survivors_append, survivors_exactGiven hwf hgive, lastAt_cons, lastAt_congr hoff]
    simp [not_tries_of_wildcard hwf hgive hfind hw, RouteTableNode.survivors, lastBindings,
      Mark.binding?]
  | @param s k rest n c q ms hgive hfind hw hlead h ih =>
    have htry := (tries_ofTree hwf hgive).mpr ⟨c, hfind, hw⟩
    have hwf' := hwf.child (List.mem_of_find?_eq_some hfind)
    have hne := ne_of_first hwf hgive hfind hlead
    -- the branch that was given up lies off the way
    have hoff : ∀ v : NodePtr, v ≠ [] → (¬ s :: v <+: k :: q ↔ True) := fun v _ =>
      iff_true_intro fun hpre => hne (List.cons_prefix_cons.mp hpre).1
    rw [mem_survivors_append, survivors_exactGiven hwf hgive, lastAt_cons, lastAt_congr hoff,
      htry.forall_iff, htry.exists_iff, child_of_find? hwf hfind, ← h.names hwf']
    have hkept : RouteTableNode.survivors (.param k s :: ms) = RouteTableNode.survivors ms := by
      simp [RouteTableNode.survivors, lastBindings, Mark.binding?, Mark.isDropped]
    simp only [hkept, List.cons_prefix_cons, true_and, List.nil_prefix, not_true, and_false,
      false_or, bindingsOf_param, List.map_cons, List.mem_cons, not_or]
    rw [← ih hwf', ne_comm]

private theorem exact_mem_dropped_append {bs : List (Bytes × Bytes)} {ms : List Mark} :
    Mark.exact k ∈ bs.map (fun b => Mark.dropped b.1 b.2) ++ ms ↔ Mark.exact k ∈ ms := by
  simp

/-- The lookup takes a parameter key for a literal where the segment is spelled like it. -/
theorem Walks.exact_mem_iff {ms : List Mark} (h : Walks segs n q ms) (hwf : Trie.WF n)
    (hk : isParam k = true) : Mark.exact k ∈ ms ↔ (k, k) ∈ q.zip segs := by
  induction h with
  | stop h => simp
  | bare => simp
  | exact hget hlead h ih =>
    rw [List.mem_cons, ih (hwf.child (OrdMap.mem_of_get? hget)), List.zip_cons_cons, List.mem_cons]
    simp
  | @wildcard s j rest n c hgive hfind hw =>
    rw [exact_mem_dropped_append]
    refine iff_of_false (by simp) fun hmem => ?_
    obtain ⟨rfl, -⟩ : k = j ∧ k = s := by simpa using hmem
    rw [isWildcard_of_isParam hk] at hw
    cases hw
  | @param s j rest n c q ms hgive hfind hw hlead h ih =>
    rw [exact_mem_dropped_append, List.mem_cons,
      ih (hwf.child (List.mem_of_find?_eq_some hfind)), List.zip_cons_cons, List.mem_cons]
    refine or_congr (iff_of_false (by simp) fun heq => ?_) Iff.rfl
    obtain ⟨rfl, rfl⟩ := Prod.mk.inj heq
    exact ne_of_first hwf hgive hfind hlead rfl

/-- **No wildcard key is taken for a literal** on the way to a node with handlers iff it takes
the segments that are spelled like it. -/
theorem Walks.captures_iff {ms : List Mark} (h : Walks segs n q ms) (hwf : Trie.WF n)
    (hhandled : (ofTree n).handled q) :
    (∀ k, Mark.exact k ∈ ms → isWildcard k = false) ↔ (ofTree n).Captures segs q := by
  induction h with
  | stop h => exact iff_of_true (by simp) fun u k t hv => by simp at hv
  | bare => exact iff_of_true (by simp) fun u k t _ hs => by simp at hs
  | @exact s rest n c q ms hget hlead h ih =>
    have hchild := child_ofTree hget
    have hih := ih (hwf.child (OrdMap.mem_of_get? hget)) (by rw [← hchild]; exact hhandled)
    have hselects := (leads_iff_selects (hwf.child (OrdMap.mem_of_get? hget))).mp hlead
    -- nothing is left over behind a literal step to a leaf
    have hspelled : (s = s → isWildcard s = true → q = [] ∧ 0 < rest.length ∧
        ¬ (ofTree n).Leaf (s :: q)) ↔ isWildcard s = false := by
      refine ⟨fun hs => Bool.eq_false_iff.mpr fun hw => ?_, fun hs _ hw => ?_⟩
      · obtain ⟨rfl, hlen, hleaf⟩ := hs rfl hw
        obtain ⟨x, xs, rfl⟩ := List.exists_cons_of_length_pos hlen
        have hc : (ofTree c).Leaf [] := (selects_cons_nil.mp hselects).2
        rw [← hchild] at hc
        exact hleaf hc
      · rw [hs] at hw
        cases hw
    rw [captures_cons, hchild, ← hih, hspelled]
    simp only [List.mem_cons, Mark.exact.injEq, forall_eq_or_imp]
  | @wildcard s j rest n c hgive hfind hw =>
    refine iff_of_true (by simp) (captures_cons.mpr ⟨?_, fun u k t hv => by simp at hv⟩)
    -- the child is spelled by the segment, and was given up although it has handlers
    rintro rfl -
    have hchild := child_of_find? hwf hfind
    have hgive := hgive c (hwf.sorted.get?_eq_some_iff.mpr (List.mem_of_find?_eq_some hfind))
    have hmap : (ofTree c).handled [] := by
      rw [← hchild]
      exact hhandled
    cases rest with
    | nil => exact absurd hgive.1 hmap
    | cons x xs =>
      refine ⟨rfl, Nat.succ_pos _, fun hleaf => hgive.1 (leaf_ofTree.mp ?_)⟩
      rw [← hchild]
      exact hleaf
  | @param s j rest n c q ms hgive hfind hw hlead h ih =>
    have hchild := child_of_find? hwf hfind
    have hih := ih (hwf.child (List.mem_of_find?_eq_some hfind)) (by rw [← hchild]; exact hhandled)
    rw [captures_cons, hchild, ← hih]
    simp [hw]

end Tree

end Routes

end Wfrest
